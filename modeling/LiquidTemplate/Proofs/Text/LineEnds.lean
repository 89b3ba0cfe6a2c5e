import LiquidTemplate.Options.Basic
import LiquidTemplate.Proofs.Text.Lines
import Mathlib.Data.List.Basic

/-!
# How lines end

`Text.BreaksAs b cs` says that every line feed of a text ends a line in the way that is asked for. Of two texts one
after the other this holds if it holds of both, unless one ends with a carriage return and the other one starts with a
line feed (`breaksAs_append_iff`). A text that is cut into lines and put together again breaks as asked, but for one
thing: of several carriage returns at the end of a line only one is taken away (`breaksAs_joinLines`).
-/

namespace LiquidTemplate

namespace Text

/-- Right before a line feed there is a carriage return exactly if lines are to end with both. -/
def BreaksAs (b : LineBreak) (cs : List Char) : Prop :=
  ∀ u v, cs = u ++ '\n' :: v → (u.getLast? = some '\r' ↔ b = .crlf)

/-- There is no carriage return at the end. -/
def EndsClean (cs : List Char) : Prop :=
  cs.getLast? ≠ some '\r'

variable {b : LineBreak} {u v p cs : List Char}

theorem endsClean_nil : EndsClean [] := by
  simp [EndsClean]

theorem endsClean_concat {x : Char} (h : x ≠ '\r') : EndsClean (u ++ [x]) := by
  simpa [EndsClean] using h

theorem endsClean_of_notMem (h : '\r' ∉ cs) : EndsClean cs :=
  fun hlast => h (List.mem_of_getLast? hlast)

theorem EndsClean.append (hu : EndsClean u) (hv : EndsClean v) : EndsClean (u ++ v) := by
  rcases List.eq_nil_or_concat' v with rfl | ⟨w, x, rfl⟩
  · rwa [List.append_nil]
  · rw [← List.append_assoc]
    exact endsClean_concat fun hx => hv (by simp [hx])

theorem EndsClean.of_ne_nil (hv : EndsClean v) (hne : v ≠ []) (u : List Char) : EndsClean (u ++ v) := by
  obtain ⟨w, x, rfl⟩ := (List.eq_nil_or_concat' v).resolve_left hne
  rw [← List.append_assoc]
  exact endsClean_concat fun hx => hv (by simp [hx])

theorem EndsClean.of_append (h : EndsClean (u ++ v)) : EndsClean v := by
  rcases List.eq_nil_or_concat' v with rfl | ⟨w, x, rfl⟩
  · exact endsClean_nil
  · rw [← List.append_assoc] at h
    exact endsClean_concat fun hx => h (by simp [hx])

/-! ## Line feeds -/

/-- The line feeds of a text after another one that ends with a carriage return or not. -/
def breaksFrom (b : LineBreak) : Bool → List Char → Bool
  | _, [] => true
  | afterReturn, c :: cs => (c != '\n' || afterReturn == decide (b = .crlf)) && breaksFrom b (c == '\r') cs

theorem breaksFrom_iff : breaksFrom b (decide (u.getLast? = some '\r')) cs = true ↔
    ∀ x y, cs = x ++ '\n' :: y → ((u ++ x).getLast? = some '\r' ↔ b = .crlf) := by
  induction cs generalizing u with
  | nil => simp [breaksFrom]
  | cons c cs ih =>
    have hrest := ih (u := u ++ [c])
    rw [List.getLast?_concat, show decide (some c = some '\r') = (c == '\r') by simp [Bool.beq_eq_decide_eq]] at hrest
    rw [breaksFrom, Bool.and_eq_true, hrest]
    constructor
    · rintro ⟨hc, hcs⟩ x y hsplit
      cases x with
      | nil =>
        obtain ⟨rfl, -⟩ := List.cons.inj hsplit
        simpa using hc
      | cons a x =>
        obtain ⟨rfl, rfl⟩ := List.cons.inj hsplit
        simpa using hcs x y rfl
    · intro h
      refine ⟨?_, fun x y hsplit => by simpa using h (c :: x) y (by rw [hsplit, List.cons_append])⟩
      by_cases hc : c = '\n'
      · simpa [hc] using h [] cs (by rw [hc, List.nil_append])
      · simp [hc]

instance (b : LineBreak) (cs : List Char) : Decidable (BreaksAs b cs) :=
  decidable_of_iff (breaksFrom b false cs = true) (by simpa [BreaksAs] using @breaksFrom_iff b [] cs)

theorem breaksAs_of_notMem (h : '\n' ∉ cs) : BreaksAs b cs := by
  rintro u v rfl
  simp at h

theorem BreaksAs.of_append_left (h : BreaksAs b (u ++ v)) : BreaksAs b u := by
  rintro x y rfl
  exact h x (y ++ v) (by simp)

/-- **Two texts break as asked if each of them does**, where no line end is put together from both. -/
theorem breaksAs_append_iff (h : EndsClean u ∨ v.head? ≠ some '\n') :
    BreaksAs b (u ++ v) ↔ BreaksAs b u ∧ BreaksAs b v := by
  -- a line feed at the start of the second text comes after no carriage return in either reading
  have hlast {x y : List Char} (hv : v = x ++ '\n' :: y) : (u ++ x).getLast? = some '\r' ↔ x.getLast? = some '\r' := by
    rcases List.eq_nil_or_concat' x with rfl | ⟨w, a, rfl⟩
    · have hclean : EndsClean u := h.resolve_right (by simp [hv])
      simpa [EndsClean] using hclean
    · simp
  constructor
  · intro hall
    refine ⟨hall.of_append_left, ?_⟩
    rintro x y hv
    rw [← hlast hv]
    exact hall (u ++ x) y (by rw [hv, List.append_assoc])
  · rintro ⟨hu, hv⟩ x y hsplit
    rcases List.append_eq_append_iff.1 hsplit with ⟨w, rfl, hw⟩ | ⟨w, rfl, hw⟩
    · rw [hlast hw]
      exact hv w y hw
    · cases w with
      | nil =>
        rw [List.append_nil] at hlast
        have hstart : v = [] ++ '\n' :: y := by simpa using hw.symm
        have hboth := hv [] y hstart
        rw [← hlast hstart] at hboth
        simpa using hboth
      | cons a w =>
        obtain ⟨rfl, rfl⟩ := List.cons.inj hw
        exact hu x w rfl

theorem breaksAs_lineBreak (b : LineBreak) : BreaksAs b b.text.toList := by
  intro u v h
  cases b with
  | lf =>
    have hu : u = [] := by
      cases u with
      | nil => rfl
      | cons a u => simp [LineBreak.text] at h
    simp [hu]
  | crlf =>
    have hu : u = ['\r'] := by
      match u, h with
      | [], h => simp [LineBreak.text] at h
      | [a], h =>
        simp [LineBreak.text] at h
        rw [h.1]
      | a :: a' :: u, h => simp [LineBreak.text] at h
    simp [hu]

theorem endsClean_lineBreak (b : LineBreak) : EndsClean b.text.toList := by
  cases b <;> simp [EndsClean, LineBreak.text]

theorem append_cons_inj {q z : List Char} (hq : '\n' ∉ q) (hp : '\n' ∉ p) (h : q ++ '\n' :: z = p ++ '\n' :: v) :
    q = p ∧ z = v := by
  induction q generalizing p with
  | nil =>
    cases p with
    | nil => simpa using h
    | cons a p =>
      obtain ⟨rfl, -⟩ := List.cons.inj h
      simp at hp
  | cons a q ih =>
    cases p with
    | nil =>
      obtain ⟨rfl, -⟩ := List.cons.inj h
      simp at hq
    | cons a' p =>
      obtain ⟨rfl, hrest⟩ := List.cons.inj h
      obtain ⟨rfl, rfl⟩ := ih (fun hm => hq (List.mem_cons_of_mem _ hm))
        (fun hm => hp (List.mem_cons_of_mem _ hm)) hrest
      exact ⟨rfl, rfl⟩

theorem infix_line_iff {w : List Char} (hw : '\n' ∉ w) (hp : '\n' ∉ p) :
    w ++ ['\n'] <:+: p ++ '\n' :: v ↔ w <:+ p ∨ w ++ ['\n'] <:+: v := by
  constructor
  · rintro ⟨x, y, hxy⟩
    by_cases hx : '\n' ∈ x
    · -- the first line ends in `x`
      obtain ⟨q, z, rfl, hq⟩ := List.eq_append_cons_of_mem hx
      have hsplit : q ++ '\n' :: (z ++ w ++ '\n' :: y) = p ++ '\n' :: v := by simpa using hxy
      obtain ⟨-, rfl⟩ := append_cons_inj hq hp hsplit
      exact .inr ⟨z, y, by simp⟩
    · -- the first line is `x` and `w`
      have hsplit : (x ++ w) ++ '\n' :: y = p ++ '\n' :: v := by simpa using hxy
      obtain ⟨rfl, -⟩ := append_cons_inj (by simp [hx, hw]) hp hsplit
      exact .inl (List.suffix_append x w)
  · rintro (⟨x, rfl⟩ | hmember)
    · exact ⟨x, v, by simp⟩
    · exact List.infix_append_of_infix_right (hmember.trans (List.suffix_cons _ _).isInfix)

theorem breaksAs_line_iff (hp : '\n' ∉ p) :
    BreaksAs b (p ++ '\n' :: v) ↔ (p.getLast? = some '\r' ↔ b = .crlf) ∧ BreaksAs b v := by
  have hline : BreaksAs b (p ++ ['\n']) ↔ (p.getLast? = some '\r' ↔ b = .crlf) := by
    refine ⟨fun h => h p [] rfl, fun h x y hsplit => ?_⟩
    have hx : '\n' ∉ x := by
      intro hmem
      obtain ⟨q, z, rfl, hq⟩ := List.eq_append_cons_of_mem hmem
      obtain ⟨-, hnil⟩ := append_cons_inj hp hq (by simpa using hsplit)
      simp at hnil
    obtain ⟨rfl, -⟩ := append_cons_inj hp hx hsplit
    exact h
  have hsplit : p ++ '\n' :: v = (p ++ ['\n']) ++ v := by simp
  rw [hsplit, breaksAs_append_iff (.inl (endsClean_concat (by decide))), hline]

/-! ## Lines put together again -/

theorem dropReturn_of_endsClean (h : EndsClean p) : dropReturn p = p := by
  unfold dropReturn
  split
  next rest hrest =>
    refine absurd ?_ h
    rw [← List.head?_reverse, hrest, List.head?_cons]
  · rfl

theorem dropReturn_concat (p : List Char) : dropReturn (p ++ ['\r']) = p := by
  simp [dropReturn]

/-- One carriage return is taken away, and a second one is still there. -/
theorem getLast?_dropReturn : (dropReturn p).getLast? = some '\r' ↔ ['\r', '\r'] <:+ p := by
  constructor
  · intro hlast
    by_cases hp : EndsClean p
    · rw [dropReturn_of_endsClean hp] at hlast
      exact absurd hlast hp
    · obtain ⟨q, rfl⟩ := List.getLast?_eq_some_iff.1 (not_not.1 hp)
      rw [dropReturn_concat] at hlast
      obtain ⟨w, rfl⟩ := List.getLast?_eq_some_iff.1 hlast
      exact ⟨w, by simp⟩
  · rintro ⟨w, rfl⟩
    rw [show w ++ ['\r', '\r'] = (w ++ ['\r']) ++ ['\r'] by simp, dropReturn_concat]
    simp

theorem endsClean_lines {pieces : List (List Char)} (h : EndsClean (['\n'].intercalate pieces)) :
    EndsClean (b.text.toList.intercalate (pieces.map dropReturn)) := by
  induction pieces with
  | nil => exact endsClean_nil
  | cons p pieces ih =>
    cases pieces with
    | nil =>
      have hp : EndsClean p := by simpa using h
      simpa [dropReturn_of_endsClean hp] using hp
    | cons q pieces =>
      rw [List.intercalate_cons_cons] at h
      rw [List.map_cons, List.map_cons, List.intercalate_cons_cons]
      have hbreak : EndsClean (dropReturn p ++ b.text.toList) :=
        (endsClean_lineBreak b).of_ne_nil (by cases b <;> simp [LineBreak.text]) _
      exact hbreak.append (ih h.of_append)

/-- Lines that are put together again break as asked, unless two carriage returns were at the end of one. -/
theorem breaksAs_lines {pieces : List (List Char)} (h : ∀ p ∈ pieces, '\n' ∉ p) :
    BreaksAs b (b.text.toList.intercalate (pieces.map dropReturn)) ↔
      (b = .lf → ¬ ['\r', '\r', '\n'] <:+: ['\n'].intercalate pieces) := by
  induction pieces with
  | nil => simp [BreaksAs]
  | cons p pieces ih =>
    obtain ⟨hp, hpieces⟩ := List.forall_mem_cons.1 h
    have hline : '\n' ∉ dropReturn p := fun hmem => hp (dropReturn_subset p hmem)
    cases pieces with
    | nil =>
      have hfeed : ¬ ['\r', '\r', '\n'] <:+: p := fun hinside => hp (hinside.subset (by simp))
      simp [breaksAs_of_notMem hline, hfeed]
    | cons q pieces =>
      rw [List.map_cons, List.map_cons, List.intercalate_cons_cons, List.intercalate_cons_cons, ← List.map_cons]
      have hinside : ['\r', '\r', '\n'] <:+: p ++ ['\n'] ++ ['\n'].intercalate (q :: pieces) ↔
          ['\r', '\r'] <:+ p ∨ ['\r', '\r', '\n'] <:+: ['\n'].intercalate (q :: pieces) := by
        simpa using infix_line_iff (w := ['\r', '\r']) (by simp) hp
      have hrest := ih hpieces
      -- the line ends in a line feed, and before it there is what the break adds to the line
      cases b with
      | lf =>
        have hfirst := breaksAs_line_iff (b := .lf) (v := ['\n'].intercalate ((q :: pieces).map dropReturn)) hline
        have hbreak : LineBreak.lf.text.toList = ['\n'] := by decide
        rw [hbreak] at hrest ⊢
        rw [List.append_assoc, List.singleton_append, hfirst, hrest, getLast?_dropReturn, hinside]
        simp
      | crlf =>
        have hfirst := breaksAs_line_iff (b := .crlf) (p := dropReturn p ++ ['\r'])
          (v := ['\r', '\n'].intercalate ((q :: pieces).map dropReturn)) (by simp [hline])
        have hbreak : LineBreak.crlf.text.toList = ['\r', '\n'] := by decide
        rw [hbreak] at hrest ⊢
        simp only [List.append_assoc, List.cons_append, List.nil_append] at hfirst ⊢
        rw [hfirst, hrest]
        simp

end Text

/-- **A text that is cut into lines and put together again** breaks as asked, unless two carriage returns are at the end
of one of its lines and lines are to end with a line feed alone. -/
theorem breaksAs_joinLines (b : LineBreak) (s : String) :
    Text.BreaksAs b (b.text.intercalate (Text.rawLines s)).toList ↔
      (b = .lf → ¬ ['\r', '\r', '\n'] <:+: s.toList) := by
  have hclean : ∀ p ∈ Text.splitChars (· == '\n') s.toList, '\n' ∉ p :=
    fun p hp hmem => by simpa using (Text.of_mem_splitChars hp).2 _ hmem
  have hlines := Text.breaksAs_lines (b := b) hclean
  rw [Text.intercalate_splitChars] at hlines
  rw [String.toList_intercalate, Text.rawLines, List.map_map]
  simpa [Function.comp_def] using hlines

theorem endsClean_joinLines (b : LineBreak) {s : String} (h : Text.EndsClean s.toList) :
    Text.EndsClean (b.text.intercalate (Text.rawLines s)).toList := by
  have hlines := @Text.endsClean_lines b (Text.splitChars (· == '\n') s.toList) (by rwa [Text.intercalate_splitChars])
  rw [String.toList_intercalate, Text.rawLines, List.map_map]
  simpa [Function.comp_def] using hlines

end LiquidTemplate
