import LiquidTemplate.Proofs.Nesting.Sound
import LiquidTemplate.Proofs.Text.Positions
import Mathlib.Data.List.Induction

/-!
# Positions tell offsets apart

The position of an offset between two characters is the number of line feeds before it and the number of characters
since the last one (`Position.foldl_next_eq`), and each character that is passed takes the position further
(`Position.lt_foldl_next`). So different boundaries of a text have different positions, in the same order; any other
offset has the position of the next boundary, or of the end of the text (`positions_of_offsets`).
-/

namespace LiquidTemplate

namespace Text

def lastLine (cs : List Char) : List Char :=
  (cs.reverse.takeWhile (· != '\n')).reverse

theorem lastLine_concat (cs : List Char) (c : Char) :
    lastLine (cs ++ [c]) = if c == '\n' then [] else lastLine cs ++ [c] := by
  unfold lastLine
  by_cases hc : c = '\n' <;> simp [hc]

/-- A character that starts before an offset is passed, also if it goes beyond the offset. -/
theorem charsBefore_inside {a b : List Char} {c : Char} {n : Nat} (hstart : byteSize a < n)
    (hstop : n ≤ byteSize a + c.utf8Size) : charsBefore (a ++ c :: b) n = a ++ [c] := by
  induction a generalizing n with
  | nil =>
    obtain ⟨m, rfl⟩ : ∃ m, n = m + 1 := ⟨n - 1, by omega⟩
    rw [byteSize, Nat.zero_add] at hstop
    rw [List.nil_append, charsBefore, Nat.sub_eq_zero_of_le hstop, charsBefore_zero, List.nil_append]
  | cons d a ih =>
    rw [byteSize] at hstart hstop
    obtain ⟨m, rfl⟩ : ∃ m, n = m + 1 := ⟨n - 1, by omega⟩
    rw [List.cons_append, charsBefore, ih (by omega) (by omega), List.cons_append]

end Text

namespace Position

/-! ## Lines and columns -/

theorem foldl_next_eq (cs : List Char) :
    cs.foldl next ⟨1, 1⟩ = ⟨1 + cs.count '\n', 1 + (Text.lastLine cs).length⟩ := by
  induction cs using List.reverseRecOn with
  | nil => rfl
  | append_singleton cs c ih =>
    rw [List.foldl_append, List.foldl_cons, List.foldl_nil, ih, next, Text.lastLine_concat, List.count_append]
    by_cases hc : c = '\n'
    · simp [hc, Nat.add_assoc]
    · simp [hc, Nat.add_assoc]

theorem ofOffset_byteSize {source : String} {a b : List Char} (h : source.toList = a ++ b) :
    ofOffset source (Text.byteSize a) = ⟨1 + a.count '\n', 1 + (Text.lastLine a).length⟩ := by
  rw [ofOffset, after_eq_foldl, h, Text.charsBefore_append, foldl_next_eq]

/-! ## The strict order of positions -/

/-- Lines count first, then columns. -/
instance : LT Position :=
  ⟨fun p q => p.line < q.line ∨ p.line = q.line ∧ p.column < q.column⟩

theorem lt_def {p q : Position} : p < q ↔ p.line < q.line ∨ p.line = q.line ∧ p.column < q.column :=
  Iff.rfl

theorem lt_of_lt_of_le {p q r : Position} (h : p < q) (h' : q ≤ r) : p < r := by
  rw [lt_def] at *
  rw [le_def] at h'
  omega

theorem lt_next (p : Position) (c : Char) : p < p.next c := by
  unfold next
  split
  · exact .inl (Nat.lt_succ_self _)
  · exact .inr ⟨rfl, Nat.lt_succ_self _⟩

theorem lt_foldl_next {cs : List Char} (h : cs ≠ []) (p : Position) : p < cs.foldl next p := by
  obtain ⟨c, cs, rfl⟩ := List.exists_cons_of_ne_nil h
  exact lt_of_lt_of_le (lt_next p c) (le_foldl_next cs (p.next c))

theorem ofOffset_lt {source : String} {m n : Nat} (hm : Text.IsBoundary source.toList m)
    (hn : Text.IsBoundary source.toList n) (h : m < n) : ofOffset source m < ofOffset source n := by
  obtain ⟨a, b, hsource, rfl⟩ := hm
  obtain ⟨c, d, hsource', rfl⟩ := hn
  obtain ⟨w, rfl⟩ := Text.prefix_of_byteSize_le ⟨b, hsource.symm⟩ ⟨d, hsource'.symm⟩ (Nat.le_of_lt h)
  have hw : w ≠ [] := by
    rintro rfl
    rw [List.append_nil] at h
    exact Nat.lt_irrefl _ h
  have hfirst : Text.charsBefore source.toList (Text.byteSize a) = a := by rw [hsource, Text.charsBefore_append]
  have hsecond : Text.charsBefore source.toList (Text.byteSize (a ++ w)) = a ++ w := by
    rw [hsource', Text.charsBefore_append]
  rw [ofOffset, ofOffset, after_eq_foldl, after_eq_foldl, hfirst, hsecond, List.foldl_append]
  exact lt_foldl_next hw _

end Position

/-! ## All offsets -/

/-- **Positions are in the order of the boundaries they stand for.** An offset between two characters has the line feeds
before it and the characters since the last of them as its position, so of two such offsets the smaller one has the
smaller position. An offset inside of a character has the position of the end of that character, and one behind the end
of the text has the position of the end of the text. -/
theorem positions_of_offsets (source : String) :
    (∀ a b, source.toList = a ++ b →
      Position.ofOffset source (Text.byteSize a) = ⟨1 + a.count '\n', 1 + (Text.lastLine a).length⟩) ∧
    (∀ m n, Text.IsBoundary source.toList m → Text.IsBoundary source.toList n → m < n →
      Position.ofOffset source m < Position.ofOffset source n) ∧
    (∀ a c b n, source.toList = a ++ c :: b → Text.byteSize a < n → n < Text.byteSize a + c.utf8Size →
      Position.ofOffset source n = Position.ofOffset source (Text.byteSize a + c.utf8Size)) ∧
    ∀ n, Text.byteSize source.toList ≤ n →
      Position.ofOffset source n = Position.ofOffset source (Text.byteSize source.toList) := by
  refine ⟨fun a b h => Position.ofOffset_byteSize h, fun m n hm hn h => Position.ofOffset_lt hm hn h, ?_, ?_⟩
  · intro a c b n hsource hstart hstop
    have hinside : Text.charsBefore source.toList n = a ++ [c] := by
      rw [hsource, Text.charsBefore_inside hstart (Nat.le_of_lt hstop)]
    have hend : Text.charsBefore source.toList (Text.byteSize a + c.utf8Size) = a ++ [c] := by
      rw [hsource, Text.charsBefore_inside (by have := c.utf8Size_pos; omega) (Nat.le_refl _)]
    rw [Position.ofOffset, Position.ofOffset, Position.after_eq_foldl, Position.after_eq_foldl, hinside, hend]
  · intro n hn
    rw [Position.ofOffset, Position.ofOffset, Position.after_eq_foldl, Position.after_eq_foldl,
      Text.charsBefore_of_le hn, Text.charsBefore_of_le (Nat.le_refl _)]

/-- A line feed behind a character of two bytes, and offsets inside of a character and behind the end. -/
theorem positions_behind_accents :
    Position.ofOffset "aé\nçb" 6 = ⟨2, 2⟩ ∧
    Position.ofOffset "aé\nçb" 4 < Position.ofOffset "aé\nçb" 6 ∧
    Position.ofOffset "aé\nçb" 5 = Position.ofOffset "aé\nçb" 6 ∧
    Position.ofOffset "aé\nçb" 9 = Position.ofOffset "aé\nçb" 7 := by
  obtain ⟨hplace, horder, hinside, hbehind⟩ := positions_of_offsets "aé\nçb"
  refine ⟨hplace ['a', 'é', '\n', 'ç'] ['b'] (by decide), ?_, ?_, ?_⟩
  · exact horder 4 6 ⟨['a', 'é', '\n'], ['ç', 'b'], by decide, by decide⟩
      ⟨['a', 'é', '\n', 'ç'], ['b'], by decide, by decide⟩ (by decide)
  · exact hinside ['a', 'é', '\n'] 'ç' ['b'] 5 (by decide) (by decide) (by decide)
  · exact hbehind 9 (by decide)

end LiquidTemplate
