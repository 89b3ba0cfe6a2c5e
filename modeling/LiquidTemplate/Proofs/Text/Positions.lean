import LiquidTemplate.Fault
import LiquidTemplate.Proofs.Text.Lines
import Mathlib.Data.List.TakeWhile

/-!
# Lines, columns and offsets

The position of an offset counts the characters that start before it (`Text.charsBefore`), so it never moves back when
the offset grows (`Position.ofOffset_mono`). The line of that number among the lines of the text is what is left of the
offset up to the line feed before it and what is right of it up to the line feed after it
(`Text.splitChars_getElem?_count`).
-/

namespace LiquidTemplate

namespace Text

def charsBefore : List Char → Nat → List Char
  | [], _ => []
  | _ :: _, 0 => []
  | c :: cs, n + 1 => c :: charsBefore cs (n + 1 - c.utf8Size)

theorem charsBefore_zero (cs : List Char) : charsBefore cs 0 = [] := by
  cases cs <;> rfl

theorem charsBefore_append (a b : List Char) : charsBefore (a ++ b) (byteSize a) = a := by
  induction a with
  | nil => exact charsBefore_zero b
  | cons c a ih =>
    obtain ⟨n, hn⟩ := exists_byteSize_cons c a
    rw [hn]
    rw [byteSize] at hn
    rw [List.cons_append, charsBefore, ← hn, Nat.add_sub_cancel_left, ih]

theorem charsBefore_of_le {cs : List Char} {n : Nat} (h : byteSize cs ≤ n) : charsBefore cs n = cs := by
  induction cs generalizing n with
  | nil => rfl
  | cons c cs ih =>
    rw [byteSize] at h
    have hpos := c.utf8Size_pos
    obtain ⟨m, rfl⟩ : ∃ m, n = m + 1 := ⟨n - 1, by omega⟩
    rw [charsBefore, ih (by omega)]

theorem charsBefore_prefix {m n : Nat} (h : m ≤ n) (cs : List Char) : charsBefore cs m <+: charsBefore cs n := by
  induction cs generalizing m n with
  | nil => exact List.prefix_rfl
  | cons c cs ih =>
    cases m with
    | zero => exact List.nil_prefix
    | succ m =>
      obtain ⟨n, rfl⟩ : ∃ n', n = n' + 1 := ⟨n - 1, by omega⟩
      exact (List.prefix_cons_inj c).2 (ih (by omega))

theorem head?_splitChars (sep : Char → Bool) (cs : List Char) :
    (splitChars sep cs).head? = some (cs.takeWhile (! sep ·)) := by
  induction cs with
  | nil => rfl
  | cons c cs ih =>
    rw [splitChars, List.takeWhile_cons]
    split
    next hc => simp [hc]
    next hc =>
      obtain ⟨first, rest, hsplit, -⟩ := exists_splitChars sep cs
      rw [hsplit, List.head?_cons, Option.some.injEq] at ih
      simp [hsplit, hc, ih]

theorem length_splitChars (sep : Char) (cs : List Char) : (splitChars (· == sep) cs).length = cs.count sep + 1 := by
  induction cs with
  | nil => rfl
  | cons c cs ih =>
    obtain ⟨first, rest, hsplit, -⟩ := exists_splitChars (· == sep) cs
    rw [hsplit, List.length_cons] at ih
    rw [splitChars, hsplit]
    by_cases hc : c = sep
    · simp [hc, ih]
    · simp [hc, ih]

theorem all_bne {sep : Char} {cs : List Char} (h : sep ∉ cs) : ∀ c ∈ cs, (c != sep) = true := by
  intro c hc
  rw [bne_iff_ne]
  rintro rfl
  exact h hc

theorem reverse_takeWhile_reverse {sep : Char} {y : List Char} (hy : sep ∉ y) (x : List Char) :
    ((x ++ sep :: y).reverse.takeWhile (· != sep)).reverse = y := by
  rw [List.reverse_append, List.reverse_cons, List.append_assoc,
    List.takeWhile_append_of_pos (all_bne (mt List.mem_reverse.1 hy))]
  simp

/-- The piece around a place in a text: its number is the number of separators before the place. -/
theorem splitChars_getElem?_count (sep : Char) (a b : List Char) :
    (splitChars (· == sep) (a ++ b))[a.count sep]? =
      some ((a.reverse.takeWhile (· != sep)).reverse ++ b.takeWhile (· != sep)) := by
  -- after the last separator on the left, the piece is the first one
  have hfirst {y : List Char} (hy : sep ∉ y) :
      (splitChars (· == sep) (y ++ b))[0]? = some (y ++ b.takeWhile (· != sep)) := by
    rw [← List.head?_eq_getElem?, head?_splitChars]
    exact congrArg some (List.takeWhile_append_of_pos (all_bne hy))
  by_cases ha : sep ∈ a
  · obtain ⟨y, x, hsplit, hy⟩ := List.eq_append_cons_of_mem (List.mem_reverse.2 ha)
    obtain rfl : a = x.reverse ++ sep :: y.reverse := by simpa using congrArg List.reverse hsplit
    have hy' : sep ∉ y.reverse := mt List.mem_reverse.1 hy
    have hcount : (x.reverse ++ sep :: y.reverse).count sep = (splitChars (· == sep) x.reverse).length + 0 := by
      rw [length_splitChars, List.count_append, List.count_cons_self, List.count_eq_zero.2 hy']
    rw [reverse_takeWhile_reverse hy', List.append_assoc, List.cons_append, splitChars_append_cons, hcount,
      List.getElem?_append_right (Nat.le_add_right _ _), Nat.add_sub_cancel_left]
    exact hfirst hy'
  · have hself : a.reverse.takeWhile (· != sep) = a.reverse :=
      List.takeWhile_eq_self_iff.2 (all_bne (mt List.mem_reverse.1 ha))
    rw [List.count_eq_zero.2 ha, hfirst ha, hself, List.reverse_reverse]

end Text

namespace Position

/-! ## The order of positions -/

/-- Lines count first, then columns. -/
instance : LE Position :=
  ⟨fun p q => p.line < q.line ∨ p.line = q.line ∧ p.column ≤ q.column⟩

theorem le_def {p q : Position} : p ≤ q ↔ p.line < q.line ∨ p.line = q.line ∧ p.column ≤ q.column :=
  Iff.rfl

theorem le_trans {p q r : Position} (h : p ≤ q) (h' : q ≤ r) : p ≤ r := by
  rw [le_def] at *
  omega

def next (p : Position) (c : Char) : Position :=
  if c == '\n' then ⟨p.line + 1, 1⟩ else ⟨p.line, p.column + 1⟩

theorem line_next (p : Position) (c : Char) : (p.next c).line = p.line + if c == '\n' then 1 else 0 := by
  unfold next
  split <;> rfl

theorem le_next (p : Position) (c : Char) : p ≤ p.next c := by
  unfold next
  split
  · exact .inl (Nat.lt_succ_self _)
  · exact .inr ⟨rfl, Nat.le_succ _⟩

theorem after_eq_foldl (cs : List Char) (n : Nat) (p : Position) :
    after cs n p = (Text.charsBefore cs n).foldl next p := by
  induction cs generalizing n p with
  | nil => rfl
  | cons c cs ih =>
    cases n with
    | zero => rfl
    | succ n => exact ih _ _

theorem line_foldl_next (cs : List Char) (p : Position) : (cs.foldl next p).line = p.line + cs.count '\n' := by
  induction cs generalizing p with
  | nil => rfl
  | cons c cs ih =>
    rw [List.foldl_cons, ih, line_next, List.count_cons]
    omega

theorem le_foldl_next (cs : List Char) (p : Position) : p ≤ cs.foldl next p := by
  induction cs generalizing p with
  | nil => exact .inr ⟨rfl, Nat.le_refl _⟩
  | cons c cs ih => exact le_trans (le_next p c) (ih (p.next c))

theorem ofOffset_mono (source : String) {m n : Nat} (h : m ≤ n) : ofOffset source m ≤ ofOffset source n := by
  obtain ⟨rest, hrest⟩ := Text.charsBefore_prefix h source.toList
  rw [ofOffset, ofOffset, after_eq_foldl, after_eq_foldl, ← hrest, List.foldl_append]
  exact le_foldl_next _ _

theorem line_ofOffset (source : String) (n : Nat) :
    (ofOffset source n).line = 1 + (Text.charsBefore source.toList n).count '\n' := by
  rw [ofOffset, after_eq_foldl, line_foldl_next]

end Position

end LiquidTemplate
