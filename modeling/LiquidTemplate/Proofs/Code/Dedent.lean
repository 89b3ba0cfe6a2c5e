import LiquidTemplate.Code.Dedent
import LiquidTemplate.Proofs.Text.Lines
import Mathlib.Data.List.TakeWhile

/-!
# Dedented code

Dedenting works on the lines of a piece of code without the white space at their ends (`codeLines`). Indenting the code
further adds the same characters to all of these lines that are not empty, and dedenting takes them off again
(`dedentLines_indent`). What is dedented is flush (`Flush`), and flush lines that are joined are not changed by
dedenting (`dedentLines_of_flush`, `codeLines_join`).
-/

namespace LiquidTemplate

/-- The lines of a piece of code without white space at their ends. -/
def codeLines (code : String) : List (List Char) :=
  (Text.lines code).map fun line => Text.trimEndChars line.toList

/-- Lines without empty ones at the two ends and without their common indentation. -/
def dedentLines (lines : List (List Char)) : List (List Char) :=
  (trimLines lines).map (List.drop (commonIndent (trimLines lines)))

theorem dedent_eq (code : String) : dedent code = (dedentLines (codeLines code)).map String.ofList := by
  rw [dedentLines, List.map_map]
  rfl

/-- Put some characters in front of a line that is not blank. -/
def indentLine (p line : List Char) : List Char :=
  if line.all Text.isWhiteSpace then line else p ++ line

def indentLines (p code : String) : String :=
  String.ofList (['\n'].intercalate ((Text.splitChars (· == '\n') code.toList).map (indentLine p.toList)))

/-- Lines without white space at their ends, of which the first one and the last one are not blank, and one that is not
blank is not indented. -/
structure Flush (lines : List (List Char)) : Prop where
  first : ∃ line, lines.head? = some line ∧ line.all Text.isWhiteSpace = false
  last : ∃ line, lines.getLast? = some line ∧ line.all Text.isWhiteSpace = false
  trimmed : ∀ line ∈ lines, line.getLast?.any Text.isWhiteSpace = false
  notIndented : ∃ line ∈ lines, line.all Text.isWhiteSpace = false ∧ line.head?.any isIndent = false

/-! ## Lines without white space at their ends -/

theorem isWhiteSpace_of_isIndent {c : Char} (h : isIndent c = true) : Text.isWhiteSpace c = true := by
  simp only [isIndent, Bool.or_eq_true, beq_iff_eq] at h
  rcases h with rfl | rfl <;> decide

theorem Text.trimEndChars_eq_nil_iff {line : List Char} : trimEndChars line = [] ↔ line.all isWhiteSpace = true := by
  rw [trimEndChars, List.reverse_eq_nil_iff, List.dropWhile_eq_nil_iff]
  simp

theorem eq_nil_of_all_isWhiteSpace {line : List Char} (h : line.getLast?.any Text.isWhiteSpace = false)
    (hall : line.all Text.isWhiteSpace = true) : line = [] := by
  have htrim := Text.trimEndChars_eq_nil_iff.2 hall
  rwa [Text.trimEndChars_of_getLast? h] at htrim

theorem trimEndChars_indentLine (p line : List Char) :
    Text.trimEndChars (indentLine p line) = indentLine p (Text.trimEndChars line) := by
  cases hall : line.all Text.isWhiteSpace with
  | true =>
    have hnil := Text.trimEndChars_eq_nil_iff.2 hall
    rw [indentLine, if_pos hall, hnil]
    rfl
  | false =>
    have hne : Text.trimEndChars line ≠ [] := by
      rw [Ne, Text.trimEndChars_eq_nil_iff, hall]
      simp
    have hkept : (Text.trimEndChars line).all Text.isWhiteSpace ≠ true := fun h =>
      hne (eq_nil_of_all_isWhiteSpace (Text.getLast?_trimEndChars line) h)
    have hdrop : line.reverse.dropWhile Text.isWhiteSpace ≠ [] := fun h => hne (by rw [Text.trimEndChars, h]; rfl)
    rw [indentLine, hall, if_neg (by simp), indentLine, if_neg hkept, Text.trimEndChars, List.reverse_append,
      List.dropWhile_append, if_neg (by simpa using hdrop), List.reverse_append, List.reverse_reverse]
    rfl

/-! ## Lines of indented code -/

theorem indentLine_eq_nil_iff {p line : List Char} : indentLine p line = [] ↔ line = [] := by
  cases line with
  | nil => simp [indentLine]
  | cons c line =>
    unfold indentLine
    split <;> simp

theorem splitChars_indentLines {p : String} (hp : p.toList.all isIndent = true) (code : String) :
    Text.splitChars (· == '\n') (indentLines p code).toList =
      (Text.splitChars (· == '\n') code.toList).map (indentLine p.toList) := by
  obtain ⟨first, rest, hsplit, -⟩ := Text.exists_splitChars (· == '\n') code.toList
  have hfeed : '\n' ∉ p.toList := fun hmem => absurd (List.all_eq_true.1 hp _ hmem) (by decide)
  have hclean : ∀ line ∈ (first :: rest).map (indentLine p.toList), '\n' ∉ line := by
    intro line hline
    obtain ⟨piece, hpiece, rfl⟩ := List.mem_map.1 hline
    have hmem : '\n' ∉ piece := fun h => absurd ((Text.of_mem_splitChars (hsplit ▸ hpiece)).2 _ h) (by decide)
    unfold indentLine
    split
    · exact hmem
    · simp [hfeed, hmem]
  rw [indentLines, String.toList_ofList, hsplit]
  exact Text.splitChars_intercalate hclean

theorem codeLines_eq (code : String) : codeLines code =
    (if (Text.splitChars (· == '\n') code.toList).getLast? = some [] then
      (Text.splitChars (· == '\n') code.toList).dropLast
    else Text.splitChars (· == '\n') code.toList).map Text.trimEndChars := by
  simp only [codeLines, Text.lines, List.map_map, Function.comp_def, String.toList_ofList]

theorem codeLines_indentLines {p : String} (hp : p.toList.all isIndent = true) (code : String) :
    codeLines (indentLines p code) = (codeLines code).map (indentLine p.toList) := by
  have hlast (pieces : List (List Char)) :
      (pieces.map (indentLine p.toList)).getLast? = some [] ↔ pieces.getLast? = some [] := by
    rw [List.getLast?_map, Option.map_eq_some_iff]
    refine ⟨fun ⟨line, hline, hnil⟩ => ?_, fun h => ⟨[], h, rfl⟩⟩
    rw [hline, indentLine_eq_nil_iff.1 hnil]
  have htrim (pieces : List (List Char)) : (pieces.map (indentLine p.toList)).map Text.trimEndChars =
      (pieces.map Text.trimEndChars).map (indentLine p.toList) := by
    simp only [List.map_map, Function.comp_def, trimEndChars_indentLine]
  rw [codeLines_eq, codeLines_eq, splitChars_indentLines hp]
  simp only [hlast]
  split
  · rw [← List.map_dropLast, htrim]
  · exact htrim _

/-! ## Common indentation -/

theorem min?_indents_eq {lines : List (List Char)} {n : Nat} :
    ((lines.filter (! ·.isEmpty)).map indentOf).min? = some n ↔
      (∃ line ∈ lines, line ≠ [] ∧ indentOf line = n) ∧ ∀ line ∈ lines, line ≠ [] → n ≤ indentOf line := by
  have hmem (m : Nat) : m ∈ (lines.filter (! ·.isEmpty)).map indentOf ↔
      ∃ line ∈ lines, line ≠ [] ∧ indentOf line = m := by
    simp [and_assoc]
  rw [List.min?_eq_some_iff, hmem]
  refine and_congr_right fun _ => ⟨fun h line hline hne => h _ ((hmem _).2 ⟨line, hline, hne, rfl⟩), fun h m hm => ?_⟩
  obtain ⟨line, hline, hne, rfl⟩ := (hmem m).1 hm
  exact h line hline hne

/-- The common indentation is that of some line, and no line is indented less. -/
theorem commonIndent_spec {lines : List (List Char)} (h : ∃ line ∈ lines, line ≠ []) :
    (∃ line ∈ lines, line ≠ [] ∧ indentOf line = commonIndent lines) ∧
      ∀ line ∈ lines, line ≠ [] → commonIndent lines ≤ indentOf line := by
  obtain ⟨line, hline, hne⟩ := h
  have hsome : ((lines.filter (! ·.isEmpty)).map indentOf).min? ≠ none := by
    rw [Ne, List.min?_eq_none_iff, List.map_eq_nil_iff, List.filter_eq_nil_iff]
    exact fun hall => hall line hline (by simpa using hne)
  obtain ⟨n, hn⟩ := Option.ne_none_iff_exists'.1 hsome
  have hcommon : commonIndent lines = n := by rw [commonIndent, hn, Option.getD_some]
  rw [hcommon]
  exact min?_indents_eq.1 hn

theorem commonIndent_eq {lines : List (List Char)} {n : Nat} (hmem : ∃ line ∈ lines, line ≠ [] ∧ indentOf line = n)
    (hle : ∀ line ∈ lines, line ≠ [] → n ≤ indentOf line) : commonIndent lines = n := by
  rw [commonIndent, min?_indents_eq.2 ⟨hmem, hle⟩, Option.getD_some]

/-! ## Indenting and dedenting -/

theorem trimLines_map {f : List Char → List Char} (hf : ∀ line, f line = [] ↔ line = []) (lines : List (List Char)) :
    trimLines (lines.map f) = (trimLines lines).map f := by
  have hempty : List.isEmpty ∘ f = List.isEmpty := by
    funext line
    rw [Function.comp_apply, Bool.eq_iff_iff, List.isEmpty_iff, List.isEmpty_iff, hf]
  simp only [trimLines, List.dropWhile_map, hempty, ← List.map_reverse]

theorem indentLine_of_ne_nil {p line : List Char} (h : line.getLast?.any Text.isWhiteSpace = false) (hne : line ≠ []) :
    indentLine p line = p ++ line :=
  if_neg fun hall => hne (eq_nil_of_all_isWhiteSpace h hall)

theorem indentOf_append {p : List Char} (hp : p.all isIndent = true) (line : List Char) :
    indentOf (p ++ line) = p.length + indentOf line := by
  rw [indentOf, List.takeWhile_append_of_pos (List.all_eq_true.1 hp), List.length_append]
  rfl

theorem commonIndent_indent {p : List Char} (hp : p.all isIndent = true) {lines : List (List Char)}
    (h : ∀ line ∈ lines, line.getLast?.any Text.isWhiteSpace = false) (hne : ∃ line ∈ lines, line ≠ []) :
    commonIndent (lines.map (indentLine p)) = p.length + commonIndent lines := by
  obtain ⟨⟨line, hline, hnonempty, hindent⟩, hle⟩ := commonIndent_spec hne
  have hindented : ∀ line ∈ lines, line ≠ [] → indentOf (indentLine p line) = p.length + indentOf line := by
    intro line hline hnonempty
    rw [indentLine_of_ne_nil (h line hline) hnonempty, indentOf_append hp]
  refine commonIndent_eq ⟨indentLine p line, List.mem_map_of_mem hline, ?_, ?_⟩ ?_
  · rwa [Ne, indentLine_eq_nil_iff]
  · rw [hindented line hline hnonempty, hindent]
  · rintro _ hmem hnonempty'
    obtain ⟨other, hother, rfl⟩ := List.mem_map.1 hmem
    have hother' : other ≠ [] := by rwa [Ne, indentLine_eq_nil_iff] at hnonempty'
    rw [hindented other hother hother']
    exact Nat.add_le_add_left (hle other hother hother') _

theorem trimLines_subset (lines : List (List Char)) : trimLines lines ⊆ lines := by
  intro line hline
  rw [trimLines, List.mem_reverse] at hline
  have hmem := (List.dropWhile_suffix _).subset hline
  exact (List.dropWhile_suffix _).subset (List.mem_reverse.1 hmem)

/-- **Characters in front of all lines are taken off again.** -/
theorem dedentLines_indent {p : List Char} (hp : p.all isIndent = true) {lines : List (List Char)}
    (h : ∀ line ∈ lines, line.getLast?.any Text.isWhiteSpace = false) :
    dedentLines (lines.map (indentLine p)) = dedentLines lines := by
  have htrimmed : ∀ line ∈ trimLines lines, line.getLast?.any Text.isWhiteSpace = false :=
    fun line hline => h line (trimLines_subset lines hline)
  rw [dedentLines, dedentLines, trimLines_map fun _ => indentLine_eq_nil_iff, List.map_map]
  refine List.map_congr_left fun line hline => ?_
  rw [Function.comp_apply]
  by_cases hnil : line = []
  · simp [hnil, indentLine]
  · rw [commonIndent_indent hp htrimmed ⟨line, hline, hnil⟩, indentLine_of_ne_nil (htrimmed line hline) hnil,
      List.drop_length_add_append]

/-! ## Dedented lines are flush -/

theorem head?_dropWhile_isEmpty (lines : List (List Char)) : (lines.dropWhile List.isEmpty).head? ≠ some [] := by
  intro h
  have hnot := List.head?_dropWhile_not List.isEmpty lines
  rw [h] at hnot
  cases hnot

theorem getLast?_trimLines (lines : List (List Char)) : (trimLines lines).getLast? ≠ some [] := by
  rw [trimLines, List.getLast?_reverse]
  exact head?_dropWhile_isEmpty _

theorem head?_trimLines (lines : List (List Char)) : (trimLines lines).head? ≠ some [] := by
  -- what is dropped at the end is behind the first line that is not empty
  rw [trimLines, List.head?_reverse]
  intro h
  have hsuffix : (lines.dropWhile List.isEmpty).reverse.dropWhile List.isEmpty <:+
      (lines.dropWhile List.isEmpty).reverse :=
    List.dropWhile_suffix _
  obtain ⟨w, hw⟩ := hsuffix
  have hlast : (lines.dropWhile List.isEmpty).reverse.getLast? = some [] := by
    rw [← hw, List.getLast?_append, h, Option.some_or]
  rw [List.getLast?_reverse] at hlast
  exact head?_dropWhile_isEmpty lines hlast

theorem indentOf_lt_length {line : List Char} (h : line.getLast?.any Text.isWhiteSpace = false) (hne : line ≠ []) :
    indentOf line < line.length := by
  have hle : indentOf line ≤ line.length := (List.takeWhile_prefix isIndent).length_le
  refine Nat.lt_of_le_of_ne hle fun heq => hne (eq_nil_of_all_isWhiteSpace h ?_)
  have hwhole : line.takeWhile isIndent = line := List.takeWhile_prefix _ |>.eq_of_length heq
  rw [List.all_eq_true]
  intro c hc
  rw [← hwhole] at hc
  exact isWhiteSpace_of_isIndent (List.mem_takeWhile_imp hc)

theorem drop_not_blank {line : List Char} (h : line.getLast?.any Text.isWhiteSpace = false) (hne : line ≠ []) {n : Nat}
    (hn : n ≤ indentOf line) :
    (line.drop n).getLast?.any Text.isWhiteSpace = false ∧ (line.drop n).all Text.isWhiteSpace = false := by
  have hlt := indentOf_lt_length h hne
  have hlast : (line.drop n).getLast?.any Text.isWhiteSpace = false := by
    rw [List.getLast?_drop, if_neg (by omega)]
    exact h
  refine ⟨hlast, ?_⟩
  rw [← Bool.not_eq_true]
  intro hall
  have hnil := eq_nil_of_all_isWhiteSpace hlast hall
  rw [List.drop_eq_nil_iff] at hnil
  omega

theorem head?_drop_indentOf (line : List Char) : (line.drop (indentOf line)).head?.any isIndent = false := by
  induction line with
  | nil => rfl
  | cons c line ih =>
    by_cases hc : isIndent c = true
    · simpa [indentOf, hc] using ih
    · simp [indentOf, hc]

/-- **What is dedented is flush.** -/
theorem flush_dedentLines {lines : List (List Char)} (h : ∀ line ∈ lines, line.getLast?.any Text.isWhiteSpace = false)
    (hne : dedentLines lines ≠ []) : Flush (dedentLines lines) := by
  have htrimmed : ∀ line ∈ trimLines lines, line.getLast?.any Text.isWhiteSpace = false :=
    fun line hline => h line (trimLines_subset lines hline)
  have hkept : trimLines lines ≠ [] := fun hnil => hne (by rw [dedentLines, hnil]; rfl)
  have hfirst : (trimLines lines).head hkept ≠ [] := fun hnil =>
    head?_trimLines lines (by rw [List.head?_eq_some_head hkept, hnil])
  have hlast : (trimLines lines).getLast hkept ≠ [] := fun hnil =>
    getLast?_trimLines lines (by rw [List.getLast?_eq_some_getLast hkept, hnil])
  obtain ⟨⟨flush, hflush, hflushNe, hindent⟩, hle⟩ := commonIndent_spec ⟨_, List.head_mem hkept, hfirst⟩
  have hcut : ∀ line ∈ trimLines lines, line ≠ [] → _ := fun line hline hne =>
    drop_not_blank (htrimmed line hline) hne (hle line hline hne)
  refine ⟨⟨_, ?_, (hcut _ (List.head_mem hkept) hfirst).2⟩, ⟨_, ?_, (hcut _ (List.getLast_mem hkept) hlast).2⟩, ?_,
    ⟨_, List.mem_map_of_mem hflush, (hcut flush hflush hflushNe).2, ?_⟩⟩
  · rw [dedentLines, List.head?_map, List.head?_eq_some_head hkept, Option.map_some]
  · rw [dedentLines, List.getLast?_map, List.getLast?_eq_some_getLast hkept, Option.map_some]
  · intro _ hmem
    obtain ⟨line, hline, rfl⟩ := List.mem_map.1 hmem
    by_cases hnil : line = []
    · rw [hnil, List.drop_nil]
      rfl
    · exact (hcut line hline hnil).1
  · rw [← hindent]
    exact head?_drop_indentOf flush

/-! ## Flush lines stay as they are -/

theorem ne_nil_of_not_blank {line : List Char} (h : line.all Text.isWhiteSpace = false) : line ≠ [] := by
  rintro rfl
  cases h

theorem Flush.trimLines_eq {lines : List (List Char)} (h : Flush lines) : trimLines lines = lines := by
  have hkeeps {ls : List (List Char)} {line : List Char} (hhead : ls.head? = some line)
      (hblank : line.all Text.isWhiteSpace = false) : ls.dropWhile List.isEmpty = ls := by
    obtain ⟨rest, rfl⟩ := List.head?_eq_some_iff.1 hhead
    exact List.dropWhile_cons_of_neg (by simpa using ne_nil_of_not_blank hblank)
  obtain ⟨first, hfirst, hblank⟩ := h.first
  obtain ⟨last, hlast, hblank'⟩ := h.last
  rw [← List.head?_reverse] at hlast
  rw [trimLines, hkeeps hfirst hblank, hkeeps hlast hblank', List.reverse_reverse]

/-- **Dedenting does not change flush lines.** -/
theorem dedentLines_of_flush {lines : List (List Char)} (h : Flush lines) : dedentLines lines = lines := by
  obtain ⟨line, hline, hblank, hhead⟩ := h.notIndented
  have hzero : commonIndent lines = 0 := by
    refine commonIndent_eq ⟨line, hline, ne_nil_of_not_blank hblank, ?_⟩ fun _ _ _ => Nat.zero_le _
    cases line with
    | nil => rfl
    | cons c line =>
      have hc : isIndent c = false := hhead
      simp [indentOf, hc]
  rw [dedentLines, h.trimLines_eq, hzero]
  exact List.map_id _

theorem codeLines_join {lines : List (List Char)} (h : Flush lines) (hclean : ∀ line ∈ lines, '\n' ∉ line) :
    codeLines ("\n".intercalate (lines.map String.ofList)) = lines := by
  obtain ⟨first, hfirst, -⟩ := h.first
  obtain ⟨rest, rfl⟩ := List.head?_eq_some_iff.1 hfirst
  have htext : ("\n".intercalate ((first :: rest).map String.ofList)).toList = ['\n'].intercalate (first :: rest) := by
    rw [String.toList_intercalate, List.map_map]
    simp [Function.comp_def]
  have hlast : (first :: rest).getLast? ≠ some [] := by
    obtain ⟨last, hlast, hblank⟩ := h.last
    rw [hlast, Ne, Option.some.injEq]
    exact ne_nil_of_not_blank hblank
  rw [codeLines_eq, htext, Text.splitChars_intercalate hclean, if_neg hlast]
  exact (List.map_congr_left fun line hline => Text.trimEndChars_of_getLast? (h.trimmed line hline)).trans
    (List.map_id _)

theorem codeLines_trimmed {code : String} {line : List Char} (h : line ∈ codeLines code) :
    line.getLast?.any Text.isWhiteSpace = false ∧ '\n' ∉ line := by
  obtain ⟨full, hfull, rfl⟩ := List.mem_map.1 h
  refine ⟨Text.getLast?_trimEndChars _, fun hmem => (mem_lines hfull).2 ?_⟩
  exact (Text.trimEndChars_prefix _).subset hmem

theorem dedentLines_oneLine {lines : List (List Char)} (h : ∀ line ∈ lines, '\n' ∉ line) :
    ∀ line ∈ dedentLines lines, '\n' ∉ line := by
  intro _ hmem
  obtain ⟨line, hline, rfl⟩ := List.mem_map.1 hmem
  exact fun hfeed => h line (trimLines_subset lines hline) (List.mem_of_mem_drop hfeed)

/-! ## Code -/

/-- **Dedented code does not depend on how far the code is indented.** The same spaces and tabs in front of all lines
that are not blank change nothing, the dedented lines are their own dedented lines, and if there are any, they are
flush. -/
theorem dedent_indentLines {p : String} (hp : p.toList.all isIndent = true) (code : String) :
    dedent (indentLines p code) = dedent code ∧
    dedent ("\n".intercalate (dedent code)) = dedent code ∧
    (dedent code ≠ [] → Flush ((dedent code).map String.toList)) := by
  have htrimmed : ∀ line ∈ codeLines code, line.getLast?.any Text.isWhiteSpace = false :=
    fun line hline => (codeLines_trimmed hline).1
  have hlists : (dedent code).map String.toList = dedentLines (codeLines code) := by
    rw [dedent_eq, List.map_map]
    simp [Function.comp_def]
  have hflush : dedent code ≠ [] → Flush (dedentLines (codeLines code)) := fun hne =>
    flush_dedentLines htrimmed fun hnil => hne (by rw [dedent_eq, hnil]; rfl)
  refine ⟨?_, ?_, fun hne => hlists ▸ hflush hne⟩
  · rw [dedent_eq, codeLines_indentLines hp, dedentLines_indent hp htrimmed, ← dedent_eq]
  · by_cases hnil : dedent code = []
    · rw [hnil]
      decide
    · have hclean := dedentLines_oneLine fun line (hline : line ∈ codeLines code) => (codeLines_trimmed hline).2
      have hjoin := codeLines_join (hflush hnil) hclean
      rw [dedent_eq ("\n".intercalate (dedent code)), dedent_eq code, hjoin, dedentLines_of_flush (hflush hnil)]

/-- A body with a tab in front of each line, blank lines around it and white space at the ends of its lines. -/
theorem dedent_indented_body :
    dedent (indentLines "\t " " \r\n  a \r\n\n    b\n \n") = ["a", "", "  b"] ∧
    dedent ("\n".intercalate ["a", "", "  b"]) = ["a", "", "  b"] ∧
    Flush (["a", "", "  b"].map String.toList) := by
  have hbody : dedent " \r\n  a \r\n\n    b\n \n" = ["a", "", "  b"] := by decide +kernel
  have h := dedent_indentLines (p := "\t ") (by decide) " \r\n  a \r\n\n    b\n \n"
  rw [hbody] at h
  exact ⟨h.1, h.2.1, h.2.2 (by simp)⟩

end LiquidTemplate
