import LiquidTemplate.Grammar.Markup
import LiquidTemplate.Proofs.Markup.Spelling

/-!
# Lines of a text

Cutting a text into trimmed lines gives pieces of it without white space at their ends (`isStatement_of_mem`), and
cutting a text in which lines of this kind stand on lines of their own gives them back (`statementsIn_rows`).
-/

namespace LiquidTemplate

namespace Text

/-! ## Pieces between separators -/

theorem exists_splitChars (sep : Char → Bool) (cs : List Char) : ∃ first rest, splitChars sep cs = first :: rest ∧
    (first <+: cs ∧ ∀ a ∈ first, sep a = false) ∧ ∀ piece ∈ rest, piece <:+: cs ∧ ∀ a ∈ piece, sep a = false := by
  induction cs with
  | nil => exact ⟨[], [], rfl, ⟨List.nil_prefix, by simp⟩, by simp⟩
  | cons c cs ih =>
    obtain ⟨first, rest, hsplit, ⟨hfirst, hclean⟩, hrest⟩ := ih
    have hrest' : ∀ piece ∈ rest, piece <:+: c :: cs ∧ ∀ a ∈ piece, sep a = false :=
      fun piece hpiece => ⟨(hrest piece hpiece).1.trans (List.suffix_cons c cs).isInfix, (hrest piece hpiece).2⟩
    by_cases hc : sep c = true
    · refine ⟨[], first :: rest, by rw [splitChars, if_pos hc, hsplit], ⟨List.nil_prefix, by simp⟩, ?_⟩
      exact List.forall_mem_cons.2 ⟨⟨hfirst.isInfix.trans (List.suffix_cons c cs).isInfix, hclean⟩, hrest'⟩
    · refine ⟨c :: first, rest, by rw [splitChars, if_neg hc, hsplit], ⟨?_, ?_⟩, hrest'⟩
      · exact (List.prefix_cons_inj c).2 hfirst
      · exact List.forall_mem_cons.2 ⟨by simpa using hc, hclean⟩

theorem of_mem_splitChars {sep : Char → Bool} {cs piece : List Char} (h : piece ∈ splitChars sep cs) :
    piece <:+: cs ∧ ∀ a ∈ piece, sep a = false := by
  obtain ⟨first, rest, hsplit, ⟨hfirst, hclean⟩, hrest⟩ := exists_splitChars sep cs
  rw [hsplit] at h
  rcases List.mem_cons.1 h with rfl | h
  · exact ⟨hfirst.isInfix, hclean⟩
  · exact hrest piece h

theorem splitChars_append {sep : Char → Bool} {w cs first : List Char} {rest : List (List Char)}
    (hw : ∀ a ∈ w, sep a = false) (h : splitChars sep cs = first :: rest) :
    splitChars sep (w ++ cs) = (w ++ first) :: rest := by
  induction w with
  | nil => exact h
  | cons a w ih =>
    obtain ⟨ha, hw⟩ := List.forall_mem_cons.1 hw
    rw [List.cons_append, splitChars, ha, ih hw]
    rfl

theorem splitChars_of_notMem {sep : Char} {cs : List Char} (h : sep ∉ cs) : splitChars (· == sep) cs = [cs] := by
  have hclean : ∀ a ∈ cs, (a == sep) = false := by
    intro a ha
    rw [beq_eq_false_iff_ne]
    rintro rfl
    exact h ha
  simpa using splitChars_append hclean (show splitChars (· == sep) [] = [] :: [] from rfl)

theorem splitChars_append_cons (sep : Char) (a b : List Char) :
    splitChars (· == sep) (a ++ sep :: b) = splitChars (· == sep) a ++ splitChars (· == sep) b := by
  induction a with
  | nil => simp [splitChars]
  | cons c a ih =>
    obtain ⟨first, rest, hsplit, -⟩ := exists_splitChars (· == sep) a
    rw [List.cons_append, splitChars, splitChars, ih, hsplit]
    split <;> simp

theorem splitChars_intercalate {sep : Char} {first : List Char} {rest : List (List Char)}
    (h : ∀ piece ∈ first :: rest, sep ∉ piece) :
    splitChars (· == sep) ([sep].intercalate (first :: rest)) = first :: rest := by
  have hclean : ∀ piece ∈ first :: rest, ∀ a ∈ piece, (a == sep) = false := by
    intro piece hpiece a ha
    rw [beq_eq_false_iff_ne]
    rintro rfl
    exact h piece hpiece ha
  induction rest generalizing first with
  | nil =>
    have hnil : splitChars (· == sep) [] = [] :: [] := rfl
    simpa [List.intercalate] using splitChars_append (hclean first (by simp)) hnil
  | cons second rest ih =>
    have hrest : splitChars (· == sep) ([sep].intercalate (second :: rest)) = second :: rest :=
      ih (fun p hp => h p (List.mem_cons_of_mem _ hp)) fun p hp => hclean p (List.mem_cons_of_mem _ hp)
    have hsep : splitChars (· == sep) (sep :: [sep].intercalate (second :: rest)) = [] :: second :: rest := by
      rw [splitChars, hrest]
      simp
    simpa [List.intercalate] using splitChars_append (hclean first (by simp)) hsep

theorem intercalate_splitChars (sep : Char) (cs : List Char) : [sep].intercalate (splitChars (· == sep) cs) = cs := by
  induction cs with
  | nil => rfl
  | cons c cs ih =>
    obtain ⟨first, rest, hsplit, -⟩ := exists_splitChars (· == sep) cs
    rw [hsplit] at ih
    rw [splitChars, hsplit]
    by_cases hc : (c == sep) = true
    · rw [if_pos hc, List.intercalate_cons_cons, ih, beq_iff_eq.1 hc]
      rfl
    · rw [if_neg hc]
      cases rest with
      | nil => simpa using ih
      | cons second rest => simpa [List.intercalate_cons_cons] using ih

theorem dropReturn_subset (cs : List Char) : dropReturn cs ⊆ cs := by
  unfold dropReturn
  split
  next rest hrest =>
    intro c hc
    rw [← List.mem_reverse, hrest]
    exact List.mem_cons_of_mem _ (List.mem_reverse.1 hc)
  next => exact List.Subset.refl cs

theorem dropReturn_eq {cs : List Char} (h : '\r' ∉ cs) : dropReturn cs = cs := by
  unfold dropReturn
  split
  next rest hrest => exact absurd (List.mem_reverse.1 (hrest ▸ List.mem_cons_self)) h
  · rfl

theorem intercalate_rawLines {s : String} (h : '\r' ∉ s.toList) : "\n".intercalate (rawLines s) = s := by
  have hlines : (splitChars (· == '\n') s.toList).map (fun cs => (String.ofList (dropReturn cs)).toList) =
      splitChars (· == '\n') s.toList := by
    refine (List.map_congr_left fun piece hpiece => ?_).trans (List.map_id _)
    rw [String.toList_ofList, dropReturn_eq fun hmem => h ((of_mem_splitChars hpiece).1.subset hmem)]
    rfl
  apply String.toList_injective
  rw [rawLines, String.toList_intercalate, List.map_map]
  exact (congrArg _ hlines).trans (intercalate_splitChars '\n' s.toList)

/-! ## Trimming -/

theorem trimEndChars_prefix (cs : List Char) : trimEndChars cs <+: cs := by
  have hsuffix : cs.reverse.dropWhile isWhiteSpace <:+ cs.reverse := List.dropWhile_suffix _
  simpa [trimEndChars] using List.reverse_prefix.2 hsuffix

theorem head?_trimStartChars (cs : List Char) : (trimStartChars cs).head?.any isWhiteSpace = false := by
  induction cs with
  | nil => rfl
  | cons c cs ih =>
    rw [trimStartChars, List.dropWhile_cons]
    split
    · exact ih
    next hc => simpa using hc

theorem getLast?_trimEndChars (cs : List Char) : (trimEndChars cs).getLast?.any isWhiteSpace = false := by
  rw [trimEndChars, List.getLast?_reverse]
  exact head?_trimStartChars cs.reverse

theorem trimStartChars_of_head? {cs : List Char} (h : cs.head?.any isWhiteSpace = false) : trimStartChars cs = cs := by
  cases cs with
  | nil => rfl
  | cons c cs =>
    have hc : isWhiteSpace c = false := h
    rw [trimStartChars, List.dropWhile_cons, hc]
    rfl

theorem trimEndChars_of_getLast? {cs : List Char} (h : cs.getLast?.any isWhiteSpace = false) :
    trimEndChars cs = cs := by
  have hreverse : trimStartChars cs.reverse = cs.reverse := trimStartChars_of_head? (by simpa using h)
  rw [trimEndChars, show cs.reverse.dropWhile isWhiteSpace = cs.reverse from hreverse, List.reverse_reverse]

theorem isWhiteSpace_of_isBlank {a : Char} (ha : isBlank a = true) : isWhiteSpace a = true := by
  simp only [isBlank, Bool.or_eq_true, beq_iff_eq] at ha
  rcases ha with (((rfl | rfl) | rfl) | rfl) | rfl <;> decide

end Text

/-! ## Statements -/

theorem mem_lines {s line : String} (h : line ∈ Text.lines s) : line.toList <:+: s.toList ∧ '\n' ∉ line.toList := by
  rw [Text.lines, List.mem_map] at h
  obtain ⟨piece, hpiece, rfl⟩ := h
  have hmem : piece ∈ Text.splitChars (· == '\n') s.toList := by
    split at hpiece
    · exact (List.dropLast_subset _) hpiece
    · exact hpiece
  obtain ⟨hpiece, hclean⟩ := Text.of_mem_splitChars hmem
  rw [String.toList_ofList]
  exact ⟨hpiece, fun hmem => by simpa using hclean _ hmem⟩

theorem isStatement_of_mem {body line : String} (hbody : ¬ ['%', '\x7d'] <:+: body.toList)
    (h : line ∈ Grammar.statementsOf body) : IsStatement line := by
  rw [Grammar.statementsOf, List.mem_filter, List.mem_map] at h
  obtain ⟨⟨full, hfull, rfl⟩, hnonempty⟩ := h
  obtain ⟨hpiece, hclean⟩ := mem_lines hfull
  have htrim : (Text.trim full).toList = Text.trimEndChars (Text.trimStartChars full.toList) := String.toList_ofList
  have hprefix := Text.trimEndChars_prefix (Text.trimStartChars full.toList)
  have hsuffix : Text.trimStartChars full.toList <:+ full.toList := List.dropWhile_suffix _
  have hpart : (Text.trim full).toList <:+: full.toList := by
    rw [htrim]
    exact hprefix.isInfix.trans hsuffix.isInfix
  have hne : (Text.trim full).toList ≠ [] := by simpa [String.isEmpty_iff] using hnonempty
  refine ⟨hne, fun hmem => hclean (hpart.subset hmem), ?_, ?_, fun hend => hbody (hend.trans (hpart.trans hpiece))⟩
  · rw [htrim] at hne ⊢
    obtain ⟨t, ht⟩ := hprefix
    obtain ⟨a, w, hw⟩ := List.exists_cons_of_ne_nil hne
    have hhead := Text.head?_trimStartChars full.toList
    rw [← ht, hw] at hhead
    rw [hw]
    exact hhead
  · rw [htrim]
    exact Text.getLast?_trimEndChars _

theorem IsStatement.trim_between {line : String} (h : IsStatement line) {u v : List Char}
    (hu : u.all Text.isBlank = true) (hv : v.all Text.isBlank = true) :
    Text.trim (String.ofList (u ++ (line.toList ++ v))) = line := by
  have hstart : Text.trimStartChars (u ++ (line.toList ++ v)) = line.toList ++ v := by
    rw [Text.trimStartChars, List.dropWhile_append_of_pos fun a ha =>
      Text.isWhiteSpace_of_isBlank (List.all_eq_true.1 hu a ha)]
    refine Text.trimStartChars_of_head? ?_
    obtain ⟨a, w, hw⟩ := List.exists_cons_of_ne_nil h.nonempty
    simpa [hw] using h.first
  have hstop : Text.trimEndChars (line.toList ++ v) = line.toList := by
    have hblank : ∀ a ∈ v.reverse, Text.isWhiteSpace a = true := fun a ha =>
      Text.isWhiteSpace_of_isBlank (List.all_eq_true.1 hv a (List.mem_reverse.1 ha))
    rw [Text.trimEndChars, List.reverse_append, List.dropWhile_append_of_pos hblank]
    exact Text.trimEndChars_of_getLast? h.last
  rw [Text.trim, String.toList_ofList, hstart, hstop, String.ofList_toList]

def statementsIn (cs : List Char) : List String :=
  ((Text.splitChars (· == '\n') cs).map fun piece => Text.trim (String.ofList piece)).filter (! ·.isEmpty)

/-- Whether an empty last line counts does not matter. -/
theorem statementsOf_eq (body : String) : Grammar.statementsOf body = statementsIn body.toList := by
  rw [Grammar.statementsOf, Text.lines, statementsIn]
  split
  next hlast =>
    obtain ⟨pieces, hpieces⟩ := List.getLast?_eq_some_iff.1 hlast
    have hempty : (Text.trim (String.ofList [])).isEmpty = true := rfl
    rw [hpieces, List.dropLast_concat, List.map_map, List.map_append, List.filter_append, List.map_singleton,
      List.filter_cons_of_neg (by simp [hempty]), List.filter_nil, List.append_nil]
    rfl
  next =>
    rw [List.map_map]
    rfl

theorem statementsIn_append (a b : List Char) : statementsIn (a ++ '\n' :: b) = statementsIn a ++ statementsIn b := by
  rw [statementsIn, Text.splitChars_append_cons, List.map_append, List.filter_append]
  rfl

/-- Blanks on one line. -/
structure Text.IsMargin (w : List Char) : Prop where
  blank : w.all isBlank = true
  oneLine : '\n' ∉ w

theorem Text.IsMargin.statementsIn {w : List Char} (h : Text.IsMargin w) : statementsIn w = [] := by
  have hstart : Text.trimStartChars w = [] := by
    have hdrop : (w ++ []).dropWhile isWhiteSpace = [].dropWhile isWhiteSpace :=
      List.dropWhile_append_of_pos fun a ha => isWhiteSpace_of_isBlank (List.all_eq_true.1 h.blank a ha)
    simpa [trimStartChars] using hdrop
  have htrim : (Text.trim (String.ofList w)).isEmpty = true := by
    rw [Text.trim, String.toList_ofList, hstart]
    rfl
  rw [LiquidTemplate.statementsIn, splitChars_of_notMem h.oneLine, List.map_singleton,
    List.filter_cons_of_neg (by simp [htrim]), List.filter_nil]

theorem IsStatement.statementsIn {line : String} (h : IsStatement line) {u v : List Char} (hu : Text.IsMargin u)
    (hv : Text.IsMargin v) : statementsIn (u ++ (line.toList ++ v)) = [line] := by
  have hsplit : Text.splitChars (· == '\n') (u ++ (line.toList ++ v)) = [u ++ (line.toList ++ v)] :=
    Text.splitChars_of_notMem (by simp [hu.oneLine, h.oneLine, hv.oneLine])
  have hne : line.isEmpty = false := by simpa [String.isEmpty_iff] using h.nonempty
  rw [LiquidTemplate.statementsIn, hsplit, List.map_singleton, h.trim_between hu.blank hv.blank,
    List.filter_cons_of_pos (by simp [hne]), List.filter_nil]

/-- A statement with what stands between it and the one before it: a line break among blanks. -/
structure IsRow (row : List Char × String) : Prop where
  gap : ∃ u v, row.1 = u ++ '\n' :: v ∧ Text.IsMargin u ∧ Text.IsMargin v
  statement : IsStatement row.2

theorem IsRow.blank {row : List Char × String} (h : IsRow row) : row.1 ≠ [] ∧ row.1.all Text.isBlank = true := by
  obtain ⟨u, v, hgap, hu, hv⟩ := h.gap
  have hbreak : Text.isBlank '\n' = true := rfl
  rw [hgap, List.all_append, List.all_cons, hu.blank, hv.blank, hbreak]
  exact ⟨by simp, rfl⟩

def rowChars (rows : List (List Char × String)) : List Char :=
  rows.flatMap fun row => row.1 ++ row.2.toList

/-- The statements of rows come back, after a first part `w` that holds the statements `before`. -/
theorem statementsIn_rows {rows : List (List Char × String)} (h : ∀ row ∈ rows, IsRow row) {w : List Char}
    {before : List String} (hw : ∀ v, Text.IsMargin v → statementsIn (w ++ v) = before) :
    statementsIn (w ++ rowChars rows) = before ++ rows.map (·.2) := by
  induction rows generalizing w before with
  | nil => simpa [rowChars] using hw [] ⟨rfl, by simp⟩
  | cons row rows ih =>
    obtain ⟨hrow, hrows⟩ := List.forall_mem_cons.1 h
    obtain ⟨u, v, hgap, hu, hv⟩ := hrow.gap
    have htext : w ++ rowChars (row :: rows) = (w ++ u) ++ '\n' :: ((v ++ row.2.toList) ++ rowChars rows) := by
      simp [rowChars, hgap]
    have hlater : statementsIn ((v ++ row.2.toList) ++ rowChars rows) = [row.2] ++ rows.map (·.2) := by
      refine ih hrows fun v' hv' => ?_
      rw [List.append_assoc]
      exact hrow.statement.statementsIn hv hv'
    rw [htext, statementsIn_append, hw u hu, hlater]
    rfl

end LiquidTemplate
