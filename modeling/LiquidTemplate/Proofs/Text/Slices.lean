import LiquidTemplate.Text.Offset

/-!
# Slices of a text

An offset at which a text can be cut divides it into two parts, and a slice is a middle part
(`exists_of_slice?`).
-/

namespace LiquidTemplate.Text

theorem exists_of_dropBytes? {cs rest : List Char} {n : Nat} (h : dropBytes? cs n = some rest) :
    ∃ a, cs = a ++ rest ∧ n = byteSize a := by
  induction cs generalizing n with
  | nil =>
    cases n with
    | zero => exact ⟨[], by simpa [dropBytes?] using h, rfl⟩
    | succ n => simp [dropBytes?] at h
  | cons c cs ih =>
    cases n with
    | zero => exact ⟨[], by simpa [dropBytes?] using h, rfl⟩
    | succ n =>
      rw [dropBytes?] at h
      split at h
      next hle =>
        obtain ⟨a, rfl, hsize⟩ := ih h
        refine ⟨c :: a, rfl, ?_⟩
        rw [byteSize]
        omega
      next => cases h

theorem exists_of_takeBytes? {cs w : List Char} {n : Nat} (h : takeBytes? cs n = some w) :
    ∃ b, cs = w ++ b ∧ n = byteSize w := by
  induction cs generalizing n w with
  | nil =>
    cases n with
    | zero => exact ⟨[], by simpa [takeBytes?] using h, by cases h; rfl⟩
    | succ n => simp [takeBytes?] at h
  | cons c cs ih =>
    cases n with
    | zero =>
      cases h
      exact ⟨c :: cs, rfl, rfl⟩
    | succ n =>
      rw [takeBytes?] at h
      split at h
      next hle =>
        obtain ⟨v, hv, rfl⟩ := Option.map_eq_some_iff.1 h
        obtain ⟨b, rfl, hsize⟩ := ih hv
        refine ⟨b, rfl, ?_⟩
        rw [byteSize]
        omega
      next => cases h

theorem exists_of_slice? {cs w : List Char} {span : Span} (h : slice? cs span = some w) :
    ∃ a b, cs = a ++ (w ++ b) ∧ span = ⟨byteSize a, byteSize a + byteSize w⟩ := by
  unfold slice? at h
  split at h
  next hle =>
    obtain ⟨rest, hrest, hw⟩ := Option.bind_eq_some_iff.1 h
    obtain ⟨a, rfl, hstart⟩ := exists_of_dropBytes? hrest
    obtain ⟨b, rfl, hsize⟩ := exists_of_takeBytes? hw
    refine ⟨a, b, rfl, ?_⟩
    rw [← hsize, ← hstart, Nat.add_sub_cancel' hle]
  next => cases h

theorem sliceChars_append (p w q : List Char) :
    sliceChars (p ++ (w ++ q)) ⟨byteSize p, byteSize p + byteSize w⟩ = w := by
  rw [sliceChars, slice?_append, Option.getD_some]

theorem sliceChars_of_le (s : List Char) {i j : Nat} (h : j ≤ i) : sliceChars s ⟨i, j⟩ = [] := by
  unfold sliceChars slice?
  rcases Nat.lt_or_eq_of_le h with h | rfl
  · rw [if_neg (by simpa using h)]
    rfl
  · simp only [Nat.le_refl, if_true, Nat.sub_self]
    cases dropBytes? s j with
    | none => rfl
    | some rest => cases rest <;> rfl

theorem sliceChars_subset (cs : List Char) (span : Span) : sliceChars cs span ⊆ cs := by
  unfold sliceChars
  cases h : slice? cs span with
  | none => exact List.nil_subset _
  | some w =>
    obtain ⟨a, b, rfl, -⟩ := exists_of_slice? h
    simp

end LiquidTemplate.Text
