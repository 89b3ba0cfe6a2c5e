import LiquidTemplate.Proofs.Print.Visible
import LiquidTemplate.Proofs.Text.Lines
import Mathlib.Data.List.Forall2

/-!
# Words and paragraphs of a text

A text is filled into lines of some width. Its words stay the same, and so do its paragraphs: blanks with at least two
line feeds become one blank line, and all other blanks between two words become a space or a line break
(`printText_reflows`). A text is followed run by run (`Text.run_induction`), and there is one equation for each notion
that takes a run apart from what comes after it.
-/

namespace LiquidTemplate

namespace Text

/-- The words of a text: what stands between its blanks. -/
def words (cs : List Char) : List (List Char) :=
  (splitChars isBlank cs).filter (! ·.isEmpty)

/-- The runs of blanks in a text, apart from the one at its end. -/
def blankRuns (cs : List Char) : List (List Char) :=
  (splitChars (! isBlank ·) cs).dropLast.filter (! ·.isEmpty)

def gaps (cs : List Char) : List (List Char) :=
  blankRuns (cs.dropWhile isBlank)

/-! ## Runs -/

theorem exists_run (x : Char) (cs : List Char) : ∃ r rest, x :: cs = r ++ rest ∧ r ≠ [] ∧
    (∀ c ∈ r, isBlank c = isBlank x) ∧ ∀ c ∈ rest.head?, isBlank c = !isBlank x := by
  induction cs generalizing x with
  | nil => exact ⟨[x], [], rfl, by simp, by simp, by simp⟩
  | cons y cs ih =>
    by_cases hy : isBlank y = isBlank x
    · obtain ⟨r, rest, hsplit, -, hr, hrest⟩ := ih y
      rw [hy] at hr hrest
      exact ⟨x :: r, rest, by rw [hsplit, List.cons_append], by simp, by simpa using hr, hrest⟩
    · exact ⟨[x], y :: cs, rfl, by simp, by simp, by simpa using Bool.eq_not_of_ne hy⟩

/-- A text is made up of runs of blanks and of other characters in turn. -/
theorem run_induction {P : List Char → Prop} (nil : P [])
    (run : ∀ blank r cs, r ≠ [] → (∀ c ∈ r, isBlank c = blank) →
      (∀ c ∈ cs.head?, isBlank c = !blank) → P cs → P (r ++ cs))
    (cs : List Char) : P cs := by
  induction hlength : cs.length using Nat.strongRecOn generalizing cs with
  | ind n ih =>
    cases cs with
    | nil => exact nil
    | cons x cs =>
      obtain ⟨r, rest, hsplit, hne, hr, hrest⟩ := exists_run x cs
      have hpos := List.length_pos_iff.2 hne
      rw [hsplit, List.length_append] at hlength
      rw [hsplit]
      exact run (isBlank x) r rest hne hr hrest (ih rest.length (by omega) rest rfl)

variable {blank : Bool} {r w b cs : List Char}

theorem runs_append (hne : r ≠ []) (hr : ∀ c ∈ r, isBlank c = blank) (hcs : ∀ c ∈ cs.head?, isBlank c = !blank) :
    runs (r ++ cs) = r :: runs cs := by
  induction r with
  | nil => exact absurd rfl hne
  | cons x r ih =>
    obtain ⟨hx, hr⟩ := List.forall_mem_cons.1 hr
    rw [List.cons_append, runs]
    cases r with
    | nil =>
      cases cs with
      | nil => rfl
      | cons y cs =>
        have hy : isBlank y = !blank := hcs y rfl
        obtain ⟨d, ds, rest, hruns, hd⟩ : ∃ d ds rest, runs (y :: cs) = (d :: ds) :: rest ∧ d = y := by
          rw [runs]
          split
          · split <;> exact ⟨_, _, _, rfl, rfl⟩
          · exact ⟨_, _, _, rfl, rfl⟩
        rw [List.nil_append, hruns]
        simp [hd, hx, hy]
    | cons y r =>
      have hy : isBlank y = blank := hr y List.mem_cons_self
      rw [ih (List.cons_ne_nil _ _) hr]
      simp [hx, hy]

/-! ## Words -/

theorem words_blank_append (hb : ∀ c ∈ b, isBlank c = true) (cs : List Char) : words (b ++ cs) = words cs := by
  induction b with
  | nil => rfl
  | cons c b ih =>
    obtain ⟨hc, hb⟩ := List.forall_mem_cons.1 hb
    rw [List.cons_append, words, splitChars, if_pos hc, List.filter_cons_of_neg (by simp)]
    exact ih hb

theorem words_word_append (hne : w ≠ []) (hw : ∀ c ∈ w, isBlank c = false) (hcs : ∀ c ∈ cs.head?, isBlank c = true) :
    words (w ++ cs) = w :: words cs := by
  obtain ⟨first, rest, hsplit, -⟩ := exists_splitChars isBlank cs
  have hfirst : first = [] := by
    cases cs with
    | nil => exact (List.cons.inj hsplit).1.symm
    | cons c cs =>
      rw [splitChars, if_pos (hcs c rfl)] at hsplit
      exact (List.cons.inj hsplit).1.symm
  rw [words, splitChars_append hw hsplit, words, hsplit, hfirst, List.append_nil,
    List.filter_cons_of_pos (by simpa using hne), List.filter_cons_of_neg (by simp)]

/-! ## Blanks between words -/

theorem blankRuns_word_append (hw : ∀ c ∈ w, isBlank c = false) (cs : List Char) :
    blankRuns (w ++ cs) = blankRuns cs := by
  induction w with
  | nil => rfl
  | cons c w ih =>
    obtain ⟨hc, hw⟩ := List.forall_mem_cons.1 hw
    obtain ⟨first, rest, hsplit, -⟩ := exists_splitChars (! isBlank ·) (w ++ cs)
    rw [← ih hw, List.cons_append, blankRuns, splitChars, if_pos (by simp [hc]), blankRuns, hsplit,
      List.dropLast_cons_cons, List.filter_cons_of_neg (by simp)]

theorem blankRuns_blank (hb : ∀ c ∈ b, isBlank c = true) : blankRuns b = [] := by
  have hsplit := @splitChars_append (! isBlank ·) b [] [] [] (by simpa using hb) rfl
  rw [List.append_nil] at hsplit
  rw [blankRuns, hsplit]
  rfl

theorem blankRuns_blank_append (hne : b ≠ []) (hb : ∀ c ∈ b, isBlank c = true) {x : Char} (hx : isBlank x = false)
    (cs : List Char) : blankRuns (b ++ x :: cs) = b :: blankRuns (x :: cs) := by
  obtain ⟨first, rest, hsplit, -⟩ := exists_splitChars (! isBlank ·) cs
  have hword : splitChars (! isBlank ·) (x :: cs) = [] :: first :: rest := by
    rw [splitChars, if_pos (by simp [hx]), hsplit]
  rw [blankRuns, splitChars_append (by simpa using hb) hword, List.append_nil, List.dropLast_cons_cons,
    List.filter_cons_of_pos (by simpa using hne), blankRuns, hword, List.dropLast_cons_cons,
    List.filter_cons_of_neg (by simp)]

theorem gaps_blank_append (hb : ∀ c ∈ b, isBlank c = true) (cs : List Char) : gaps (b ++ cs) = gaps cs := by
  rw [gaps, gaps, List.dropWhile_append_of_pos hb]

theorem gaps_eq_blankRuns (hcs : ∀ c ∈ cs.head?, isBlank c = false) : gaps cs = blankRuns cs := by
  cases cs with
  | nil => rfl
  | cons c cs => rw [gaps, List.dropWhile_cons_of_neg (by simpa using hcs)]

end Text

/-! ## Filled text -/

/-- How blanks between two words are printed: as a blank line if they have at least two line feeds, else as a space or
as a line break. -/
def PageStyle.IsWordGap (style : PageStyle) (indent : Nat) (blanks gap : List Char) : Prop :=
  if 1 < blanks.count '\n' then gap = (style.lineBreak.text ++ style.newLine indent).toList
  else gap = [' '] ∨ gap = (style.newLine indent).toList

section

variable {style : PageStyle} {indent : Nat} {flat : Bool} {s : String}

theorem layout_fill_word {w : List Char} {rs : List (List Char)} (hw : w.all Text.isBlank = false)
    (h : (fill (w :: rs)).Layout style indent flat s) :
    ∃ u, s.toList = w ++ u.toList ∧ (fill rs).Layout style indent flat u := by
  cases rs with
  | nil =>
    simp only [fill, hw, Bool.false_eq_true, if_false] at h
    exact ⟨"", by simp [Doc.layout_text.1 h], .nil⟩
  | cons r rs =>
    simp only [fill, hw, Bool.false_eq_true, if_false] at h
    obtain ⟨t, u, rfl, ht, hu⟩ := Doc.layout_append.1 h
    exact ⟨u, by simp [Doc.layout_text.1 ht], hu⟩

theorem isWordGap_of_layout {b : List Char} (h : (if 1 < b.count '\n' then Doc.blankLine else .softLine).Layout style
    indent flat s) : style.IsWordGap indent b s.toList := by
  unfold PageStyle.IsWordGap
  split at h
  next hfeeds =>
    obtain ⟨t, u, rfl, ht, hu⟩ := Doc.layout_append.1 h
    rw [if_pos hfeeds, Doc.layout_emptyLine.1 ht, Doc.layout_hardLine.1 hu]
  next hfeeds =>
    obtain ⟨inner, -, h⟩ := Doc.layout_group.1 h
    rw [if_neg hfeeds, Doc.layout_line.1 h]
    cases inner with
    | true => exact .inl (by simp)
    | false => exact .inr rfl

theorem layout_fill_blank {b : List Char} {rs : List (List Char)} (hb : b.all Text.isBlank = true)
    (h : (fill (b :: rs)).Layout style indent flat s) :
    (rs = [] ∧ s = "") ∨ rs ≠ [] ∧ ∃ g u, s = g ++ u ∧ style.IsWordGap indent b g.toList ∧ IsBlankText g ∧ g ≠ "" ∧
      (fill rs).Layout style indent flat u := by
  cases rs with
  | nil =>
    simp only [fill, hb, if_true] at h
    exact .inl ⟨rfl, Doc.layout_nil.1 h⟩
  | cons r rs =>
    simp only [fill, hb, if_true, Text.isParagraphBreak, Bool.true_and, decide_eq_true_eq] at h
    obtain ⟨g, u, rfl, hg, hu⟩ := Doc.layout_append.1 h
    have hblank : IsBlankText g ∧ g ≠ "" := by
      split at hg
      · exact layout_blankLine hg
      · exact layout_softLine hg
    exact .inr ⟨List.cons_ne_nil _ _, g, u, rfl, isWordGap_of_layout hg, hblank.1, hblank.2, hu⟩

end

/-- What is printed of a text starts with a blank or not, as the text does; of blanks alone nothing is printed. -/
def Text.StartsAs (cs t : List Char) : Prop :=
  (t = [] ∧ ∀ c ∈ cs.head?, isBlank c = true) ∨ ∃ x ∈ cs.head?, ∃ y ∈ t.head?, isBlank x = isBlank y

/-- `t` has the words of `cs`, and between them the gaps that the blanks of `cs` ask for. -/
structure Text.Reflows (style : PageStyle) (indent : Nat) (cs t : List Char) : Prop where
  words : words t = words cs
  gaps : List.Forall₂ (style.IsWordGap indent) (gaps cs) (gaps t)
  blankRuns : List.Forall₂ (style.IsWordGap indent) (blankRuns cs) (blankRuns t)
  starts : StartsAs cs t

namespace Text.Reflows

variable {style : PageStyle} {indent : Nat} {w b g cs t : List Char}

theorem nil (style : PageStyle) (indent : Nat) : Reflows style indent [] [] :=
  ⟨rfl, .nil, .nil, .inl ⟨rfl, by simp⟩⟩

theorem blank (hb : ∀ c ∈ b, isBlank c = true) : Reflows style indent b [] := by
  have hwords := words_blank_append hb []
  have hgaps := gaps_blank_append hb []
  rw [List.append_nil] at hwords hgaps
  refine ⟨hwords.symm, ?_, ?_, .inl ⟨rfl, fun c hc => hb c (List.mem_of_mem_head? hc)⟩⟩
  · rw [hgaps]
    exact .nil
  · rw [blankRuns_blank hb]
    exact .nil

theorem word_append (h : Reflows style indent cs t) (hne : w ≠ []) (hw : ∀ c ∈ w, isBlank c = false)
    (hcs : ∀ c ∈ cs.head?, isBlank c = true) : Reflows style indent (w ++ cs) (w ++ t) := by
  have ht : ∀ c ∈ t.head?, isBlank c = true := by
    rcases h.starts with ⟨rfl, -⟩ | ⟨y, hy, z, hz, hyz⟩
    · simp
    · intro c hc
      rw [Option.mem_unique hc hz, ← hyz]
      exact hcs y hy
  obtain ⟨x, w, rfl⟩ := List.exists_cons_of_ne_nil hne
  have hx : isBlank x = false := hw x List.mem_cons_self
  refine ⟨?_, ?_, ?_, .inr ⟨x, rfl, x, rfl, rfl⟩⟩
  · rw [words_word_append hne hw ht, words_word_append hne hw hcs, h.words]
  · rw [gaps_eq_blankRuns (by simpa using hx), gaps_eq_blankRuns (by simpa using hx), blankRuns_word_append hw,
      blankRuns_word_append hw]
    exact h.blankRuns
  · rw [blankRuns_word_append hw, blankRuns_word_append hw]
    exact h.blankRuns

theorem blank_append (h : Reflows style indent cs t) (hne : b ≠ []) (hb : ∀ c ∈ b, isBlank c = true) (hgne : g ≠ [])
    (hg : ∀ c ∈ g, isBlank c = true) (hgap : style.IsWordGap indent b g) (hword : ∃ y ∈ cs.head?, isBlank y = false) :
    Reflows style indent (b ++ cs) (g ++ t) := by
  obtain ⟨y, hy, hyword⟩ := hword
  obtain ⟨z, hz, hzword⟩ : ∃ z ∈ t.head?, isBlank z = false := by
    rcases h.starts with ⟨-, hblank⟩ | ⟨y', hy', z, hz, hyz⟩
    · cases (hblank y hy).symm.trans hyword
    · rw [Option.mem_unique hy' hy] at hyz
      exact ⟨z, hz, hyz ▸ hyword⟩
  obtain ⟨cs, rfl⟩ := List.head?_eq_some_iff.1 hy
  obtain ⟨t, rfl⟩ := List.head?_eq_some_iff.1 hz
  obtain ⟨x, b, rfl⟩ := List.exists_cons_of_ne_nil hne
  obtain ⟨k, g, rfl⟩ := List.exists_cons_of_ne_nil hgne
  refine ⟨?_, ?_, ?_, .inr ⟨x, rfl, k, rfl, ?_⟩⟩
  · rw [words_blank_append hg, words_blank_append hb, h.words]
  · rw [gaps_blank_append hb, gaps_blank_append hg]
    exact h.gaps
  · rw [blankRuns_blank_append hne hb hyword, blankRuns_blank_append hgne hg hzword]
    exact .cons hgap h.blankRuns
  · rw [hb x List.mem_cons_self, hg k List.mem_cons_self]

end Text.Reflows

/-- **However a filled text is laid out**, it has the words of the text, and the gaps that its blanks ask for. -/
theorem reflows_of_layout {style : PageStyle} {indent : Nat} {flat : Bool} (cs : List Char) {s : String}
    (h : (fill (Text.runs cs)).Layout style indent flat s) : Text.Reflows style indent cs s.toList := by
  induction cs using Text.run_induction generalizing s with
  | nil =>
    rw [Doc.layout_nil.1 h]
    exact .nil style indent
  | run blank r cs hne hr hcs ih =>
    rw [Text.runs_append hne hr hcs] at h
    cases blank with
    | false =>
      have hword : r.all Text.isBlank = false := by
        obtain ⟨x, r, rfl⟩ := List.exists_cons_of_ne_nil hne
        simp [hr x List.mem_cons_self]
      obtain ⟨u, hu, hlayout⟩ := layout_fill_word hword h
      rw [hu]
      exact (ih hlayout).word_append hne hr hcs
    | true =>
      rcases layout_fill_blank (List.all_eq_true.2 hr) h with ⟨hnil, rfl⟩ | ⟨hmore, g, u, rfl, hgap, hg, hgne, hlayout⟩
      · have hcs : cs = [] := by rw [← Text.flatten_runs cs, hnil, List.flatten_nil]
        rw [hcs, List.append_nil]
        exact .blank hr
      · -- a word comes after the blanks
        have hword : ∃ y ∈ cs.head?, Text.isBlank y = false := by
          cases cs with
          | nil => exact absurd rfl hmore
          | cons y cs => exact ⟨y, rfl, hcs y rfl⟩
        rw [String.toList_append]
        exact (ih hlayout).blank_append hne hr (by simpa using hgne) (List.all_eq_true.1 hg) hgap hword

/-- **Filling a text keeps its words and paragraphs**, at every width and indentation. Between two words there is one
blank line if the blanks between them have at least two line feeds, and else a space or a line break. -/
theorem printText_reflows (value : String) (style : PageStyle) (indent : Nat) (flat : Bool) (rest : Nat → Bool)
    (p : Page) : ∃ s, ((printText value).renderOn style indent flat rest p).out = p.out ++ s ∧
      Text.words s.toList = Text.words value.toList ∧
      List.Forall₂ (style.IsWordGap indent) (Text.gaps value.toList) (Text.gaps s.toList) := by
  obtain ⟨s, hlayout, hout⟩ := (printText value).renderOn_layout style indent flat rest p
  have hreflows := reflows_of_layout value.toList hlayout
  exact ⟨s, hout, hreflows.words, hreflows.gaps⟩

/-- Words on three lines, of which the last two are apart. -/
example : Text.words "a b\nc \n\t\nd".toList = [['a'], ['b'], ['c'], ['d']] ∧
    Text.gaps "a b\nc \n\t\nd".toList = [[' '], ['\n'], [' ', '\n', '\t', '\n']] := by
  decide

end LiquidTemplate
