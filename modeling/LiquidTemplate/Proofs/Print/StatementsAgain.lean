import LiquidTemplate.Proofs.Print.TagsAgain
import LiquidTemplate.Proofs.Print.Visible

/-!
# Printed statements

The statements of a `liquid` tag are printed one a line. A counter that goes up at the words that open a block and down
at the words that close one gives their levels (`levels`). If the words match as brackets (`WellNested`), then the
levels are those of the blocks (`Leveled`), and whatever the levels are, what is printed is read as the same statements
(`statements_read_again`).
-/

namespace LiquidTemplate

/-! ## Levels -/

/-- Statements with the levels that they are printed at, where so many blocks are open before them. -/
def levels : Nat → List String → List (Nat × String)
  | _, [] => []
  | depth, line :: lines =>
    let step := statementLevel depth (Text.firstWord line)
    (step.1 + 1, line) :: levels step.2 lines

theorem map_snd_levels (depth : Nat) (lines : List String) : (levels depth lines).map (·.2) = lines := by
  induction lines generalizing depth with
  | nil => rfl
  | cons line lines ih => rw [levels, List.map_cons, ih]

def isStatementBranch (word : String) : Bool :=
  word ∈ ["else", "elsif", "when"]

/-- Statements whose words that open and close blocks match as brackets. -/
inductive WellNested : List String → Prop where
  | nil : WellNested []
  | plain {line : String} {lines : List String} (hopen : isStatementBlock (Text.firstWord line) = false)
      (hclose : isStatementEnd (Text.firstWord line) = false) (after : WellNested lines) : WellNested (line :: lines)
  | block {opener closer : String} {inner lines : List String}
      (hopen : isStatementBlock (Text.firstWord opener) = true)
      (hclose : Text.firstWord closer = "end" ++ Text.firstWord opener) (inside : WellNested inner)
      (after : WellNested lines) : WellNested (opener :: (inner ++ closer :: lines))

/-- Statements at the levels of their blocks. Those directly inside of the block around them are at `level`, apart from
the ones that start a branch, which are at the level `outer` of that block. -/
inductive Leveled : (level outer : Nat) → List (Nat × String) → Prop where
  | nil {level outer : Nat} : Leveled level outer []
  | plain {level outer : Nat} {line : String} {rows : List (Nat × String)}
      (hopen : isStatementBlock (Text.firstWord line) = false) (hclose : isStatementEnd (Text.firstWord line) = false)
      (hbranch : isStatementBranch (Text.firstWord line) = false) (after : Leveled level outer rows) :
      Leveled level outer ((level, line) :: rows)
  | branch {level outer : Nat} {line : String} {rows : List (Nat × String)}
      (hbranch : isStatementBranch (Text.firstWord line) = true) (after : Leveled level outer rows) :
      Leveled level outer ((outer, line) :: rows)
  | block {level outer : Nat} {opener closer : String} {inner rows : List (Nat × String)}
      (hopen : isStatementBlock (Text.firstWord opener) = true)
      (hclose : Text.firstWord closer = "end" ++ Text.firstWord opener) (inside : Leveled (level + 1) level inner)
      (after : Leveled level outer rows) : Leveled level outer ((level, opener) :: (inner ++ (level, closer) :: rows))

/-! ## The counter -/

section

variable {word : String} {depth : Nat}

theorem statementLevel_eq (depth : Nat) (word : String) : statementLevel depth word =
    (if isStatementBranch word || isStatementEnd word then depth - 1 else depth,
      (if isStatementEnd word then depth - 1 else depth) + if isStatementBlock word then 1 else 0) := by
  unfold statementLevel isStatementBranch
  cases isStatementBlock word <;> rfl

/-- A word that opens a block does nothing else, and the word that closes that block does only that. -/
theorem words_differ (h : isStatementBlock word = true) :
    (isStatementBranch word = false ∧ isStatementEnd word = false) ∧
      isStatementBlock ("end" ++ word) = false ∧ isStatementEnd ("end" ++ word) = true := by
  have hwords : ∀ word ∈ ["if", "unless", "for", "case", "capture", "tablerow", "paginate", "form", "comment"],
      (isStatementBranch word = false ∧ isStatementEnd word = false) ∧
        isStatementBlock ("end" ++ word) = false ∧ isStatementEnd ("end" ++ word) = true := by decide +kernel
  exact hwords word (of_decide_eq_true h)

theorem statementLevel_plain (hopen : isStatementBlock word = false) (hclose : isStatementEnd word = false) :
    statementLevel depth word = (if isStatementBranch word then depth - 1 else depth, depth) := by
  simp [statementLevel_eq, hopen, hclose]

theorem statementLevel_open (h : isStatementBlock word = true) : statementLevel depth word = (depth, depth + 1) := by
  obtain ⟨⟨hbranch, hclose⟩, -⟩ := words_differ h
  simp [statementLevel_eq, h, hbranch, hclose]

theorem statementLevel_close (h : isStatementBlock word = true) :
    statementLevel (depth + 1) ("end" ++ word) = (depth, depth) := by
  obtain ⟨-, hopen, hclose⟩ := words_differ h
  simp [statementLevel_eq, hopen, hclose]

end

/-- **The counter follows the blocks**: over statements that are well nested it gives the levels of their blocks, and it
comes back to where it was. -/
theorem WellNested.levels_append {lines : List String} (h : WellNested lines) (depth : Nat) (more : List String) :
    ∃ rows, Leveled (depth + 1) (depth - 1 + 1) rows ∧ levels depth (lines ++ more) = rows ++ levels depth more := by
  induction h generalizing depth more with
  | nil => exact ⟨[], .nil, rfl⟩
  | @plain line lines hopen hclose _ ih =>
    obtain ⟨rows, hrows, hlevels⟩ := ih depth more
    cases hbranch : isStatementBranch (Text.firstWord line) with
    | false =>
      refine ⟨_, .plain hopen hclose hbranch hrows, ?_⟩
      rw [List.cons_append, levels, statementLevel_plain hopen hclose, hbranch, hlevels]
      rfl
    | true =>
      refine ⟨_, .branch hbranch hrows, ?_⟩
      rw [List.cons_append, levels, statementLevel_plain hopen hclose, hbranch, hlevels]
      rfl
  | @block opener closer inner lines hopen hclose _ _ ihInner ihLines =>
    obtain ⟨inside, hinside, hinner⟩ := ihInner (depth + 1) (closer :: (lines ++ more))
    obtain ⟨rows, hrows, hlevels⟩ := ihLines depth more
    refine ⟨_, .block hopen hclose hinside hrows, ?_⟩
    have htext : opener :: (inner ++ closer :: lines) ++ more =
        opener :: (inner ++ closer :: (lines ++ more)) := by simp
    have hcloser : levels (depth + 1) (closer :: (lines ++ more)) =
        (depth + 1, closer) :: (rows ++ levels depth more) := by
      rw [levels, hclose, statementLevel_close hopen, hlevels]
    rw [htext, levels, statementLevel_open hopen, hinner, hcloser]
    simp

theorem WellNested.leveled {lines : List String} (h : WellNested lines) : Leveled 1 1 (levels 0 lines) := by
  obtain ⟨rows, hrows, hlevels⟩ := h.levels_append 0 []
  rw [List.append_nil, levels, List.append_nil] at hlevels
  rw [hlevels]
  exact hrows

/-! ## Reading rows again -/

namespace Grammar

open Peg

variable {rest : List Char}

theorem head_rows {rows : List (List Char × String)} (h : ∀ row ∈ rows, IsRow row) (hrest : GapEnds rest) :
    (rowChars rows ++ rest).head?.any Text.isWordChar = false := by
  have hword : ∀ a, Text.isBlank a = true → Text.isWordChar a = false := by
    intro a ha
    simp only [Text.isBlank, Bool.or_eq_true, beq_iff_eq] at ha
    rcases ha with (((rfl | rfl) | rfl) | rfl) | rfl <;> decide
  cases rows with
  | nil => exact hrest.head_any hword
  | cons row rows =>
    obtain ⟨hne, hblank⟩ := (h row (by simp)).blank
    obtain ⟨a, gap, hgap⟩ := List.exists_cons_of_ne_nil hne
    rw [hgap, List.all_cons, Bool.and_eq_true] at hblank
    simpa [rowChars, hgap] using hword a hblank.1

def rowsChars (left right : Bool) (rows : List (List Char × String)) (gap : List Char) : List Char :=
  delimitedChars tagOpen tagClose left right " ".toList ("liquid".toList ++ rowChars rows) gap

theorem isPiece_rows {rows : List (List Char × String)} (h : ∀ row ∈ rows, IsRow row) (left right : Bool)
    {gap : List Char} (hne : gap ≠ []) (hgap : gap.all Text.isBlank = true) :
    IsPiece (rowsChars left right rows gap) fun offset =>
      .tag (delimiterAt left right (rowsChars left right rows gap) offset) "liquid" (.statements (rows.map (·.2))) := by
  refine ⟨rfl, fun rest => ?_⟩
  have hrest : GapEnds (gap ++ (closingChars tagClose right ++ rest)) := ⟨gap, right, rest, ⟨hne, hgap⟩, rfl⟩
  have hopens : OpensWord "liquid".toList
      ("liquid".toList ++ rowChars rows ++ (gap ++ (closingChars tagClose right ++ rest))) :=
    ⟨by decide, _, List.append_assoc .., head_rows h hrest⟩
  have hmarkup : liquidMarkup.Takes keys ("liquid".toList ++ ([] ++ rowChars rows))
      (gap ++ (closingChars tagClose right ++ rest)) ("liquid", .statements ([] ++ rows.map (·.2))) :=
    takes_liquidRows h (head_rows h hrest) (by simp) (fun v hv => hv.statementsIn) hrest
  exact takesAt_leaf (by decide) hgap hopens (takes_tagMarkup_liquid hopens hmarkup)

end Grammar

/-! ## Printed statements -/

section

variable {style : PageStyle} {indent : Nat} {flat : Bool}

theorem newLine_margins (style : PageStyle) (columns : Nat) : ∃ u v, (style.newLine columns).toList = u ++ '\n' :: v ∧
    Text.IsMargin u ∧ Text.IsMargin v := by
  have hindent : Text.IsMargin (style.indentation columns).toList := by
    unfold PageStyle.indentation
    split <;> constructor <;> simp [Text.isBlank]
  rw [PageStyle.newLine, String.toList_append]
  cases style.lineBreak with
  | lf => exact ⟨[], _, rfl, ⟨rfl, by simp⟩, hindent⟩
  | crlf => exact ⟨['\r'], _, rfl, ⟨rfl, by simp⟩, hindent⟩

def statementsText (style : PageStyle) (indent indentWidth : Nat) (rows : List (Nat × String)) : String :=
  String.join (rows.map fun row => style.newLine (indent + indentWidth * row.1) ++ row.2)

theorem layout_printStatements {indentWidth depth : Nat} {lines : List String} {s : String}
    (h : Doc.Layout style indent flat (printStatements indentWidth depth lines) s) :
    s = statementsText style indent indentWidth (levels depth lines) := by
  induction lines generalizing depth s with
  | nil => exact Doc.layout_nil.1 h
  | cons line lines ih =>
    have hstep : printStatements indentWidth depth (line :: lines) =
        .nest (indentWidth * ((statementLevel depth (Text.firstWord line)).1 + 1)) (.hardLine ++ .text line) ++
          printStatements indentWidth (statementLevel depth (Text.firstWord line)).2 lines := rfl
    rw [hstep] at h
    obtain ⟨t, u, rfl, hfirst, hlater⟩ := Doc.layout_append.1 h
    obtain ⟨gap, text, rfl, hgap, htext⟩ := Doc.layout_append.1 (Doc.layout_nest.1 hfirst)
    rw [Doc.layout_hardLine.1 hgap, Doc.layout_text.1 htext, ih hlater]
    simp [statementsText, levels]

def pageRows (style : PageStyle) (indent indentWidth : Nat) (rows : List (Nat × String)) : List (List Char × String) :=
  rows.map fun row => ((style.newLine (indent + indentWidth * row.1)).toList, row.2)

theorem toList_statementsText (indentWidth : Nat) (rows : List (Nat × String)) :
    (statementsText style indent indentWidth rows).toList = rowChars (pageRows style indent indentWidth rows) := by
  simp [statementsText, rowChars, pageRows, String.toList_join, List.flatMap_map]

theorem isRow_pageRows {rows : List (Nat × String)} (h : ∀ row ∈ rows, IsStatement row.2) (indentWidth : Nat) :
    ∀ row ∈ pageRows style indent indentWidth rows, IsRow row := by
  simp only [pageRows, List.mem_map]
  rintro _ ⟨row, hrow, rfl⟩
  exact ⟨newLine_margins style _, h row hrow⟩

theorem toList_tagStart (d : Delimiter) : d.tagStart.toList = tagOpen.toList ++ Grammar.dash d.trimLeft := by
  unfold Delimiter.tagStart Grammar.dash
  split <;> simp

theorem toList_tagStop (d : Delimiter) : d.tagStop.toList = Grammar.closingChars tagClose d.trimRight := by
  unfold Delimiter.tagStop Grammar.closingChars Grammar.dash
  split <;> simp

def liquidText (style : PageStyle) (indent indentWidth : Nat) (d : Delimiter) (rows : List (Nat × String)) : String :=
  d.tagStart ++ (" liquid" ++ statementsText style indent indentWidth rows ++ style.newLine indent) ++ d.tagStop

theorem toList_liquidText (indentWidth : Nat) (d : Delimiter) (rows : List (Nat × String)) :
    (liquidText style indent indentWidth d rows).toList = Grammar.rowsChars d.trimLeft d.trimRight
      (pageRows style indent indentWidth rows) (style.newLine indent).toList := by
  simp [liquidText, toList_statementsText, toList_tagStart, toList_tagStop, Grammar.rowsChars, Grammar.delimitedChars]

/-- **Printed statements are read again.** -/
theorem parse_liquidText {lines : List String} (h : ∀ line ∈ lines, IsStatement line)
    (indentWidth : Nat) (d : Delimiter) :
    Document.parse (liquidText style indent indentWidth d (levels 0 lines)) .strict =
      .ok (.ofNodes (liquidText style indent indentWidth d (levels 0 lines))
        [{ info := (), span := ⟨0, Text.byteSize (liquidText style indent indentWidth d (levels 0 lines)).toList⟩,
           kind := .tag "liquid" (.statements lines)
             ⟨⟨0, Text.byteSize (liquidText style indent indentWidth d (levels 0 lines)).toList⟩,
               d.trimLeft, d.trimRight⟩ }]) := by
  have hrows : ∀ row ∈ pageRows style indent indentWidth (levels 0 lines), IsRow row := by
    refine isRow_pageRows (fun row hrow => h row.2 ?_) indentWidth
    rw [← map_snd_levels 0 lines]
    exact List.mem_map_of_mem hrow
  have hlines : (pageRows style indent indentWidth (levels 0 lines)).map (·.2) = lines := by
    simpa [pageRows, Function.comp_def] using map_snd_levels 0 lines
  have hne : (style.newLine indent).toList ≠ [] := by simpa using newLine_ne_empty style indent
  have hpiece := Grammar.isPiece_rows hrows d.trimLeft d.trimRight hne (isBlankText_newLine style indent)
  rw [← toList_liquidText, hlines] at hpiece
  exact parse_single_tag rfl hpiece

end

theorem layout_liquid {ctx : PrintContext} {style : PageStyle} {indent : Nat} {flat : Bool} {name : String}
    {lines : List String} {d : Delimiter} {s : String}
    (h : Doc.Layout style indent flat (plainDoc ctx (.tag name (.statements lines) d)) s) :
    s = liquidText style indent ctx.options.indentWidth d (levels 0 lines) := by
  obtain ⟨body, hbody, rfl⟩ := layout_plainTag h
  obtain ⟨t, stop, rfl, ht, hstop⟩ := Doc.layout_append.1 hbody
  obtain ⟨word, statements, rfl, hword, hstatements⟩ := Doc.layout_append.1 ht
  rw [Doc.layout_text.1 hword, layout_printStatements hstatements, Doc.layout_hardLine.1 hstop]
  rfl

/-- **The statements of a `liquid` tag are printed by the blocks around them, and read again.** Unless the node before
the tag says to leave it as it is, each statement is on a line of its own, so many times the width of an indentation to
the right as its level says. What is printed is read as a tag with the same statements, and if they are well nested,
then their levels are those of their blocks. -/
theorem statements_read_again {source : String} {origin : Delimiter} {name : String} {lines : List String}
    (h : (Token.tag origin name (.statements lines)).StandsIn source) {ctx : PrintContext} {prev : Option (Node Facts)}
    (hprev : isIgnored ctx prev = false) {n : Node Facts} {d : Delimiter}
    (hn : n.kind = .tag name (.statements lines) d)
    (formatter : CodeFormatter) (level : Nat) (session : Session) (style : PageStyle) (indent : Nat) (flat : Bool)
    (rest : Nat → Bool) (p : Page) :
    ∃ s, (((printNode ctx formatter level prev n).run session).1.renderOn style indent flat rest p).out = p.out ++ s ∧
      s = d.tagStart ++ (" liquid" ++ String.join ((levels 0 lines).map fun row =>
          style.newLine (indent + ctx.options.indentWidth * row.1) ++ row.2) ++ style.newLine indent) ++ d.tagStop ∧
      Document.parse s .strict = .ok (.ofNodes s
        [{ info := (), span := ⟨0, Text.byteSize s.toList⟩,
           kind := .tag "liquid" (.statements lines) ⟨⟨0, Text.byteSize s.toList⟩, d.trimLeft, d.trimRight⟩ }]) ∧
      (WellNested lines → Leveled 1 1 (levels 0 lines)) := by
  have hspelled := (StandsAlone.mk ⟨source, origin, h⟩ nofun).spelled
  rw [run_printNode_tag hn hprev, hn]
  obtain ⟨s, hlayout, hout⟩ := Doc.renderOn_layout (plainDoc ctx (.tag name (.statements lines) d))
    style indent flat rest p
  obtain rfl := layout_liquid hlayout
  exact ⟨_, hout, rfl, parse_liquidText hspelled.2 _ d, WellNested.leveled⟩

def Markup.statements? : Markup → Option (List String)
  | .statements lines => some lines
  | _ => none

theorem Markup.eq_of_statements? {markup : Markup} {lines : List String} (h : markup.statements? = some lines) :
    markup = .statements lines := by
  unfold statements? at h
  split at h
  next => rw [Option.some.inj h]
  next => cases h

/-- A condition with two branches in a loop. -/
theorem nested_statements_read_again :
    ∃ (origin : Delimiter) (lines : List String) (n : Node Facts),
      (Token.tag origin "liquid" (.statements lines)).StandsIn
        "\x7b%- liquid for x in y\n\n if x\necho x \n else\n\tbreak\nendif\n    endfor %\x7d" ∧
      isIgnored ⟨[], {}⟩ none = false ∧ n.kind = .tag "liquid" (.statements lines) ⟨⟨0, 0⟩, true, false⟩ ∧
      WellNested lines ∧
      ∃ s, (((printNode ⟨[], {}⟩ CodeFormatter.identity 0 none n).run {}).1.renderOn
          (Options.pageStyle {}) 2 false (fun _ => true) {}).out = s ∧
        s = "\x7b%- liquid\n    for x in y\n      if x\n        echo x\n      else\n        break\n      endif\n" ++
          "    endfor\n  %\x7d" ∧
        Document.parse s .strict = .ok (.ofNodes s
          [{ info := (), span := ⟨0, Text.byteSize s.toList⟩,
             kind := .tag "liquid" (.statements lines) ⟨⟨0, Text.byteSize s.toList⟩, true, false⟩ }]) ∧
        Leveled 1 1 (levels 0 lines) := by
  obtain ⟨tokens, htokens, hlone⟩ := @exists_eq_ok _ _
    (Token.ofSource "\x7b%- liquid for x in y\n\n if x\necho x \n else\n\tbreak\nendif\n    endfor %\x7d")
    (Token.isLoneTag "liquid" fun markup => markup.statements? ==
      some ["for x in y", "if x", "echo x", "else", "break", "endif", "endfor"]) (by decide +kernel)
  obtain ⟨origin, markup, rfl, hmarkup⟩ := Token.exists_of_isLoneTag hlone
  obtain rfl := Markup.eq_of_statements? (beq_iff_eq.1 hmarkup)
  have hinner : WellNested ["if x", "echo x", "else", "break", "endif"] :=
    @WellNested.block "if x" "endif" ["echo x", "else", "break"] [] (by decide) (by decide)
      (.plain (by decide) (by decide) (.plain (by decide) (by decide) (.plain (by decide) (by decide) .nil))) .nil
  have hnested : WellNested ["for x in y", "if x", "echo x", "else", "break", "endif", "endfor"] :=
    @WellNested.block "for x in y" "endfor" ["if x", "echo x", "else", "break", "endif"] [] (by decide) (by decide)
      hinner .nil
  have hstands : (Token.tag origin "liquid" (.statements
      ["for x in y", "if x", "echo x", "else", "break", "endif", "endfor"])).StandsIn _ :=
    ⟨_, htokens, _, List.mem_singleton.2 rfl, .here _⟩
  obtain ⟨s, hout, htext, hagain, hlevels⟩ := @statements_read_again _ _ _ _ hstands ⟨[], {}⟩ none rfl
    ⟨default, ⟨0, 0⟩, .tag "liquid" (.statements _) ⟨⟨0, 0⟩, true, false⟩, [], [], [], []⟩ _ rfl
    CodeFormatter.identity 0 {} (Options.pageStyle {}) 2 false (fun _ => true) {}
  refine ⟨origin, _, _, hstands, rfl, rfl, hnested, s, hout, ?_, hagain, hlevels hnested⟩
  rw [htext]
  decide +kernel

end LiquidTemplate
