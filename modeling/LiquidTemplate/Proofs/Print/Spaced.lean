import LiquidTemplate.Proofs.Print.Respacing
import LiquidTemplate.Proofs.Text.Slices

/-!
# Respacings of words and blanks

Two texts that consist of the same words, with runs of blanks of the same classes between them, give a `Respacing`:
the offsets at and inside of the words go to the same places in the other text. What is inside of one word is moved as
a whole (`Spaced.rigid_word`).
-/

namespace LiquidTemplate

/-! ## What can be seen at an offset -/

namespace Text

theorem blankAt_append (p q : List Char) : blankAt (p ++ q) (byteSize p) = q.head?.any isBlank := by
  rw [blankAt, charAt?, dropBytes?_append, Option.bind_some]

theorem blankBefore_append (p q : List Char) :
    (decide (0 < byteSize p) && blankAt (p ++ q) (byteSize p - 1)) = p.reverse.head?.any isBlank := by
  rcases List.eq_nil_or_concat p with rfl | ⟨p, c, rfl⟩
  · rfl
  · have hpos := c.utf8Size_pos
    have hsize : byteSize (p ++ [c]) - 1 = byteSize p + (c.utf8Size - 1) := by
      rw [byteSize_append, byteSize, byteSize]
      omega
    have hlast : blankAt (c :: q) (c.utf8Size - 1) = isBlank c := by
      cases hc : isBlank c with
      | false => exact blankAt_last hc q
      | true =>
        rw [utf8Size_of_isBlank hc]
        simp [blankAt, charAt?, dropBytes?, hc]
    rw [List.concat_eq_append, hsize, List.append_assoc, List.singleton_append, blankAt_append_add, hlast]
    simp [byteSize]
    omega

theorem lineFeedAfter_append (p q : List Char) :
    lineFeedAfter (p ++ q) (byteSize p) = (q.takeWhile isBlank).contains '\n' := by
  rw [lineFeedAfter, dropBytes?_append, Option.getD_some]

theorem lineFeedBefore_append (p q : List Char) :
    lineFeedBefore (p ++ q) (byteSize p) = (p.reverse.takeWhile isBlank).contains '\n' := by
  rw [lineFeedBefore, takeBytes?_append, Option.getD_some]

end Text

namespace Spaced

open Text

variable {xs : List Spaced}

def firstStart (xs : List Spaced) : Nat :=
  byteSize ((xs.head?.map (·.run)).getD [])

/-- An offset at or inside of a word. -/
def IsAnchor (xs : List Spaced) (i : Nat) : Prop :=
  ∃ p q p' q', At xs p q p' q' ∧ byteSize p = i

/-- An offset at or inside of a word, between the start of the first and the end of the last word. -/
def IsInner (xs : List Spaced) (i : Nat) : Prop :=
  IsAnchor xs i ∧ firstStart xs < i ∧ i < byteSize (old xs)

theorem IsInner.exists_at (hxs : Match xs) (tail tail' : List Char) {i : Nat} (h : IsInner xs i) :
    ∃ p q p' q', old xs ++ tail = p ++ q ∧ new xs ++ tail' = p' ++ q' ∧ i = byteSize p ∧ shift xs i = byteSize p' ∧
      SameView q q' ∧ SameView p.reverse p'.reverse := by
  obtain ⟨⟨p, q, p', q', hat, rfl⟩, hfirst, hlast⟩ := h
  have hq : q ≠ [] := by
    rintro rfl
    rw [hat.old_eq, List.append_nil] at hlast
    omega
  refine ⟨p, q ++ tail, p', q' ++ tail', by rw [hat.old_eq, List.append_assoc], by rw [hat.new_eq, List.append_assoc],
    rfl, hat.shift_eq hxs, hat.sameView_after hxs hq tail tail', ?_⟩
  cases xs with
  | nil => cases hat
  | cons x xs =>
    refine hat.sameView_before hxs ?_
    rintro rfl
    exact absurd hfirst (Nat.lt_irrefl _)

theorem IsAnchor.between (hxs : Match xs) (tail tail' : List Char) {i j : Nat} (hi : IsAnchor xs i)
    (hj : IsAnchor xs j) : (shift xs i < shift xs j ↔ i < j) ∧
      SameClass (sliceChars (old xs ++ tail) ⟨i, j⟩) (sliceChars (new xs ++ tail') ⟨shift xs i, shift xs j⟩) := by
  obtain ⟨p, q, p', q', hat, rfl⟩ := hi
  obtain ⟨u, v, u', v', hat', rfl⟩ := hj
  rw [hat.shift_eq hxs, hat'.shift_eq hxs]
  rcases hat.between hat' hxs with ⟨w, w', rfl, rfl, hclass⟩ | ⟨w, w', rfl, rfl, hclass⟩
  · have hzero := hclass.byteSize_eq_zero
    rw [byteSize_append, byteSize_append]
    refine ⟨⟨fun _ => by omega, fun _ => by omega⟩, ?_⟩
    rw [hat'.old_eq, hat'.new_eq]
    simp only [List.append_assoc, sliceChars_append]
    exact hclass
  · rw [byteSize_append, byteSize_append]
    refine ⟨⟨fun _ => by omega, fun _ => by omega⟩, ?_⟩
    rw [sliceChars_of_le _ (by omega), sliceChars_of_le _ (by omega)]
    exact .refl []

/-- **The respacing from one text to another of the same words.** -/
def respacing (hxs : Match xs) (tail tail' : List Char) : Respacing (old xs ++ tail) (new xs ++ tail') where
  move := shift xs
  anchor := IsAnchor xs
  inner := IsInner xs
  monotone := monotone_shift xs
  anchor_of_inner _ h := h.1
  lt_iff _ _ hi hj := (hi.between hxs tail tail' hj).1
  between _ _ hi hj := (hi.between hxs tail tail' hj).2
  blankAt i h := by
    obtain ⟨p, q, p', q', hold, hnew, rfl, hmove, hafter, -⟩ := h.exists_at hxs tail tail'
    rw [hold, hnew, hmove, blankAt_append, blankAt_append, hafter.blank]
  blankBefore i h := by
    obtain ⟨p, q, p', q', hold, hnew, rfl, hmove, -, hbefore⟩ := h.exists_at hxs tail tail'
    rw [hold, hnew, hmove, blankBefore_append, blankBefore_append, hbefore.blank]
  lineFeedBefore i h := by
    obtain ⟨p, q, p', q', hold, hnew, rfl, hmove, -, hbefore⟩ := h.exists_at hxs tail tail'
    rw [hold, hnew, hmove, lineFeedBefore_append, lineFeedBefore_append, hbefore.feed]
  lineFeedAfter i h := by
    obtain ⟨p, q, p', q', hold, hnew, rfl, hmove, hafter, -⟩ := h.exists_at hxs tail tail'
    rw [hold, hnew, hmove, lineFeedAfter_append, lineFeedAfter_append, hafter.feed]

/-- An offset at or inside of one word. -/
def InWord (pre : List Spaced) (x : Spaced) (i : Nat) : Prop :=
  ∃ u v, x.word = u ++ v ∧ i = byteSize (old pre ++ (x.run ++ u))

theorem InWord.isAnchor {pre : List Spaced} {x : Spaced} (post : List Spaced) {i : Nat} (h : InWord pre x i) :
    IsAnchor (pre ++ x :: post) i := by
  obtain ⟨u, v, hword, rfl⟩ := h
  exact ⟨_, _, _, _, at_of_word pre x post hword, rfl⟩

theorem InWord.shift_eq {pre : List Spaced} {x : Spaced} {post : List Spaced} (hxs : Match (pre ++ x :: post)) {i : Nat}
    (h : InWord pre x i) :
    shift (pre ++ x :: post) i + byteSize (old pre ++ x.run) = byteSize (new pre ++ x.run') + i := by
  obtain ⟨u, v, hword, rfl⟩ := h
  rw [(at_of_word pre x post hword).shift_eq hxs]
  simp only [byteSize_append]
  omega

theorem rigid_word {pre : List Spaced} {x : Spaced} {post : List Spaced} (hxs : Match (pre ++ x :: post))
    (tail tail' : List Char) :
    Rigid (old (pre ++ x :: post) ++ tail) (new (pre ++ x :: post) ++ tail') (shift (pre ++ x :: post))
      (InWord pre x) where
  lt_iff i j hi hj := ((hi.isAnchor post).between hxs tail tail' (hj.isAnchor post)).1
  text i j hi hj := by
    obtain ⟨u, v, hword, rfl⟩ := hi
    obtain ⟨u', v', hword', rfl⟩ := hj
    have hat := at_of_word pre x post hword
    have hat' := at_of_word pre x post hword'
    rw [hat.shift_eq hxs, hat'.shift_eq hxs]
    rcases List.prefix_or_prefix_of_prefix ⟨v, rfl⟩ ⟨v', (hword.symm.trans hword').symm⟩ with ⟨w, rfl⟩ | ⟨w, rfl⟩
    · -- both slices are what lies between the two places in the word
      have hslice (p q : List Char) :
          sliceChars (p ++ u ++ (w ++ q)) ⟨byteSize (p ++ u), byteSize (p ++ (u ++ w))⟩ = w := by
        rw [← List.append_assoc p u w, byteSize_append (p ++ u) w]
        exact sliceChars_append (p ++ u) w q
      have hold := hslice (old pre ++ x.run) (v' ++ old post ++ tail)
      have hnew := hslice (new pre ++ x.run') (v' ++ new post ++ tail')
      rw [hat'.old_eq, hat'.new_eq]
      simp only [List.append_assoc] at hold hnew ⊢
      rw [hold, hnew]
    · simp only [byteSize_append]
      rw [sliceChars_of_le _ (by omega), sliceChars_of_le _ (by omega)]

end Spaced

def Respacing.refl (a : List Char) : Respacing a a where
  move := id
  anchor _ := True
  inner _ := True
  monotone := monotone_id
  anchor_of_inner _ h := h
  lt_iff _ _ _ _ := Iff.rfl
  between _ _ _ _ := .refl _
  blankAt _ _ := rfl
  blankBefore _ _ := rfl
  lineFeedBefore _ _ := rfl
  lineFeedAfter _ _ := rfl

end LiquidTemplate
