import LiquidTemplate.Print.Node
import LiquidTemplate.Proofs.Layout.Modes
import LiquidTemplate.Proofs.Whitespace.Annotated

/-!
# Trim markers of a printed tag

What a tag with a body is printed as, whatever the width. A tag is a list of *stretches*, each a delimiter with
the nodes up to the next one, and a closing delimiter. Its text is that of the stretches one after the other
(`PrintedStretch.text`), and the trim markers in it are those of the source and those that make up for line
breaks: a marker is added between a delimiter and a node exactly if white space between them matters, the
source has none, and a line break is printed there (`SideMarked`). The main statement, `layout_printBlock`,
holds of every layout of the printed document.
-/

namespace LiquidTemplate

/-! ## What is printed -/

def dash (marked : Bool) : String :=
  if marked then "-" else ""

/-- White space before a node matters and the source has none. -/
def Node.sticksBefore (source : List Char) (n : Node Facts) : Bool :=
  n.info.leadingMatters && !n.hasLeadingIn source

def Node.sticksAfter (source : List Char) (n : Node Facts) : Bool :=
  n.info.trailingMatters && !n.hasTrailingIn source

/-- A delimiter of a tag, with what stands in it and the nodes up to the next delimiter. -/
structure Stretch where
  head : String
  delimiter : Delimiter
  nodes : List (Node Facts)

/-- The text of a stretch in its parts. -/
structure PrintedStretch where
  /-- A marker at the start of the delimiter. -/
  left : Bool
  head : String
  /-- A marker at the end of the delimiter. -/
  right : Bool
  /-- What stands between the delimiter and the first node. -/
  before : String
  /-- The text of the nodes. -/
  inner : String
  /-- What stands between the last node and the next delimiter. -/
  after : String

namespace PrintedStretch

def text (p : PrintedStretch) : String :=
  tagOpen ++ dash p.left ++ p.head ++ dash p.right ++ tagClose ++ p.before ++ p.inner ++ p.after

def texts : List PrintedStretch → String
  | [] => ""
  | p :: ps => p.text ++ texts ps

end PrintedStretch

/-- What is printed for the head of a delimiter, line by line between two spaces. -/
def PageStyle.headText (style : PageStyle) (head : String) : String :=
  " " ++ style.lineBreak.text.intercalate (Text.rawLines head) ++ " "

/-- A text that is a line break with the indentation of the line after it. -/
def PageStyle.IsNewLine (style : PageStyle) (gap : String) : Prop :=
  ∃ columns, gap = style.newLine columns

/-- The marker on one side of a delimiter towards a body. It is kept if the source has it, and otherwise it is
there exactly if there is a node next to it that sticks, and the gap between them is a line break. -/
def SideMarked (style : PageStyle) (sticks : Option Bool) (gap : String) (inSource printed : Bool) : Prop :=
  (inSource = true → printed = true) ∧
    (inSource = false → (printed = true ↔ sticks = some true ∧ style.IsNewLine gap))

/-- A text is that of some nodes printed one after the other, in a group that is flat or broken. -/
def SiblingsText (style : PageStyle) (ctx : PrintContext) (formatter : CodeFormatter) (nodes : List (Node Facts))
    (s : String) : Prop :=
  ∃ (level : Nat) (separates : Bool) (session : Session) (indent : Nat) (flat : Bool),
    Doc.Layout style indent flat ((printSiblings ctx formatter level separates none nodes).run session).1 s

def nextDelimiter (closer : Delimiter) (ss : List Stretch) : Delimiter :=
  (ss.head?.map (·.delimiter)).getD closer

def nextLeft (closerLeft : Bool) (ps : List PrintedStretch) : Bool :=
  (ps.head?.map (·.left)).getD closerLeft

/-- Stretches and their texts up to the closing delimiter. Each body has its nodes between two gaps, and the two
markers that face it are as they should be. -/
inductive StretchesMarked (style : PageStyle) (ctx : PrintContext) (formatter : CodeFormatter) (closer : Delimiter)
    (closerLeft : Bool) : List Stretch → List PrintedStretch → Prop where
  | nil : StretchesMarked style ctx formatter closer closerLeft [] []
  | cons {s : Stretch} {p : PrintedStretch} {ss : List Stretch} {ps : List PrintedStretch}
      (head : p.head = style.headText s.head)
      (inner : s.nodes ≠ [] → SiblingsText style ctx formatter s.nodes p.inner)
      (right : SideMarked style (s.nodes.head?.map (·.sticksBefore ctx.source)) p.before s.delimiter.trimRight p.right)
      (left : SideMarked style (s.nodes.getLast?.map (·.sticksAfter ctx.source)) p.after
        (nextDelimiter closer ss).trimLeft (nextLeft closerLeft ps))
      (rest : StretchesMarked style ctx formatter closer closerLeft ss ps) :
      StretchesMarked style ctx formatter closer closerLeft (s :: ss) (p :: ps)

/-- A text is that of a tag: stretches and a closing delimiter, with a marker on the two outer sides exactly if the
source has it there. -/
def BlockText (style : PageStyle) (ctx : PrintContext) (formatter : CodeFormatter) (name : String)
    (stretches : List Stretch) (closer : Delimiter) (text : String) : Prop :=
  ∃ (printed : List PrintedStretch) (closerLeft closerRight : Bool),
    text = PrintedStretch.texts printed ++ tagOpen ++ dash closerLeft ++ (" end" ++ name ++ " ") ++
      dash closerRight ++ tagClose ∧
    nextLeft closerLeft printed = (nextDelimiter closer stretches).trimLeft ∧
    closerRight = closer.trimRight ∧
    StretchesMarked style ctx formatter closer closerLeft stretches printed

/-! ## Markers and gaps -/

/-- An added marker is shown in a group that is flat or broken. -/
def AddedTrim.isShown (flat : Bool) : AddedTrim → Bool
  | .never => false
  | .onBreak => !flat
  | .always => true

section

variable {style : PageStyle} {indent : Nat} {flat : Bool} {s : String}

theorem layout_trimMarker {inSource : Bool} {added : AddedTrim}
    (h : Doc.Layout style indent flat (trimMarker inSource added) s) :
    s = dash (inSource || added.isShown flat) := by
  cases inSource <;> cases added <;>
    simp_all [trimMarker, Doc.layout_text, Doc.layout_nil, Doc.layout_choice, AddedTrim.isShown, dash]
  cases flat <;> simp_all [Doc.layout_text, Doc.layout_nil]

theorem isNewLine_newLine (columns : Nat) : style.IsNewLine (style.newLine columns) :=
  ⟨columns, rfl⟩

theorem not_isNewLine_empty : ¬ style.IsNewLine "" := by
  rintro ⟨columns, h⟩
  have hmem : '\n' ∈ (style.newLine columns).toList := by
    cases hbreak : style.lineBreak <;> simp [PageStyle.newLine, LineBreak.text, hbreak]
  rw [← h] at hmem
  simp at hmem

/-- **The marker and the line break come together.** Between a delimiter and a node, the added marker is shown
exactly if the node sticks to the delimiter and the gap is a line break. -/
theorem isShown_boundary {matters hasBlank forced : Bool}
    (h : Doc.Layout style indent flat (boundary matters hasBlank forced).1 s) :
    (boundary matters hasBlank forced).2.isShown flat = true ↔
      (matters && !hasBlank) = true ∧ style.IsNewLine s := by
  -- only a node that sticks asks for a marker, and there flat and broken differ
  cases matters <;> cases hasBlank <;> cases forced <;> cases flat <;>
    simp_all [boundary, Doc.layout_hardLine, Doc.layout_line, AddedTrim.isShown, isNewLine_newLine,
      not_isNewLine_empty]

theorem layout_lines {ls : List String} (h : Doc.Layout style indent flat (.separated .emptyLine (ls.map .text)) s) :
    s = style.lineBreak.text.intercalate ls := by
  induction ls generalizing s with
  | nil => simpa [Doc.separated, Doc.layout_nil] using h
  | cons l ls ih =>
    cases ls with
    | nil => simpa [Doc.separated, Doc.layout_text] using h
    | cons m ms =>
      obtain ⟨t, u, rfl, ht, hu⟩ := Doc.layout_append.1 h
      obtain ⟨v, w, rfl, hv, hw⟩ := Doc.layout_append.1 ht
      rw [Doc.layout_text.1 hv, Doc.layout_emptyLine.1 hw, ih hu, String.intercalate_cons_cons]

theorem layout_printHead {head : String} (h : Doc.Layout style indent flat (printHead head) s) :
    s = style.headText head := by
  obtain ⟨t, u, rfl, ht, hu⟩ := Doc.layout_append.1 h
  obtain ⟨v, w, rfl, hv, hw⟩ := Doc.layout_append.1 ht
  rw [Doc.layout_text.1 hv, layout_lines hw, Doc.layout_text.1 hu, PageStyle.headText]

end

/-! ## Bodies -/

/-- However a body is laid out, it is its nodes between two gaps, and the markers that it asks for are shown
exactly where the node next to the gap sticks and the gap is a line break. -/
def Body.IsMarked (style : PageStyle) (ctx : PrintContext) (formatter : CodeFormatter) (nodes : List (Node Facts))
    (b : Body) : Prop :=
  ∀ (indent : Nat) (flat : Bool) (s after : String),
    Doc.Layout style indent flat b.doc s → Doc.Layout style indent flat b.after after →
    ∃ before inner, s = before ++ inner ∧ (nodes ≠ [] → SiblingsText style ctx formatter nodes inner) ∧
      (b.openTrim.isShown flat = true ↔
        nodes.head?.map (·.sticksBefore ctx.source) = some true ∧ style.IsNewLine before) ∧
      (b.closeTrim.isShown flat = true ↔
        nodes.getLast?.map (·.sticksAfter ctx.source) = some true ∧ style.IsNewLine after)

theorem Body.isMarked_nil (style : PageStyle) (ctx : PrintContext) (formatter : CodeFormatter) (doc after : Doc) :
    Body.IsMarked style ctx formatter [] ⟨doc, after, .never, .never⟩ := by
  intro indent flat s t _ _
  exact ⟨s, "", by simp, by simp, by simp [AddedTrim.isShown], by simp [AddedTrim.isShown]⟩

theorem Body.isMarked_bodyOf (style : PageStyle) {ctx : PrintContext} {formatter : CodeFormatter} (forced : Bool)
    (container : Facts) {nodes : List (Node Facts)} (hknows : ∀ n ∈ nodes, n.KnowsSource ctx.source) (level : Nat)
    (separates : Bool) (session : Session) :
    Body.IsMarked style ctx formatter nodes (bodyOf ctx forced container nodes
      ((printSiblings ctx formatter level separates none nodes).run session).1) := by
  cases nodes with
  | nil => exact Body.isMarked_nil style ctx formatter _ _
  | cons first rest =>
    obtain ⟨last, hlast⟩ : ∃ last, (first :: rest).getLast? = some last := ⟨_, List.getLast?_cons⟩
    intro indent flat s after hs hafter
    simp only [bodyOf, List.head?_cons, hlast] at hs hafter ⊢
    obtain ⟨before, inner, rfl, hbefore, hinner⟩ := Doc.layout_append.1 (Doc.layout_nest.1 hs)
    refine ⟨before, inner, rfl, fun _ => ⟨level, separates, session, _, flat, hinner⟩, ?_, ?_⟩
    · have hfirst := (hknows first List.mem_cons_self).1
      rw [isShown_boundary hbefore, hfirst, Option.map_some, Option.some.injEq, Node.sticksBefore]
    · have hend := (hknows last (List.mem_of_getLast? hlast)).2
      rw [isShown_boundary hafter, hend, Option.map_some, Option.some.injEq, Node.sticksAfter]

/-! ## Parts of a tag -/

theorem sideMarked_or {style : PageStyle} {sticks : Option Bool} {gap : String} {inSource shown : Bool}
    (h : shown = true ↔ sticks = some true ∧ style.IsNewLine gap) :
    SideMarked style sticks gap inSource (inSource || shown) := by
  constructor
  · intro hsource
    rw [hsource, Bool.true_or]
  · intro hsource
    rw [hsource, Bool.false_or]
    exact h

/-- A part of a tag prints a stretch with a delimiter of its own. -/
def Part.Prints (style : PageStyle) (ctx : PrintContext) (formatter : CodeFormatter) (part : Part) (s : Stretch) :
    Prop :=
  part.delimiter = some (s.head, s.delimiter) ∧ part.body.IsMarked style ctx formatter s.nodes

/-- The parts after the first one. The marker at the start of the first delimiter is the one of the source or the
one that the body before it asks for. -/
theorem layout_printParts {style : PageStyle} {ctx : PrintContext} {formatter : CodeFormatter} {indent : Nat}
    {flat : Bool} (closer : Delimiter) {parts : List Part} {ss : List Stretch}
    (hparts : List.Forall₂ (Part.Prints style ctx formatter) parts ss) (close : AddedTrim) {text : String}
    (h : Doc.Layout style indent flat (printParts close parts).1 text) :
    ∃ printed : List PrintedStretch, text = PrintedStretch.texts printed ∧
      nextLeft (closer.trimLeft || (printParts close parts).2.isShown flat) printed =
        ((nextDelimiter closer ss).trimLeft || close.isShown flat) ∧
      StretchesMarked style ctx formatter closer (closer.trimLeft || (printParts close parts).2.isShown flat) ss
        printed := by
  induction hparts generalizing close text with
  | nil => exact ⟨[], Doc.layout_nil.1 h, rfl, .nil⟩
  | @cons part s parts ss hpart _ ih =>
    obtain ⟨hdelimiter, hbody⟩ := hpart
    simp only [printParts, hdelimiter] at h ⊢
    obtain ⟨t, others, rfl, ht, hothers⟩ := Doc.layout_append.1 h
    obtain ⟨t, after, rfl, ht, hafter⟩ := Doc.layout_append.1 ht
    obtain ⟨t, body, rfl, ht, hdoc⟩ := Doc.layout_append.1 ht
    obtain ⟨t, stop, rfl, ht, hstop⟩ := Doc.layout_append.1 ht
    obtain ⟨t, right, rfl, ht, hright⟩ := Doc.layout_append.1 ht
    obtain ⟨t, head, rfl, ht, hhead⟩ := Doc.layout_append.1 ht
    obtain ⟨start, left, rfl, hstart, hleft⟩ := Doc.layout_append.1 ht
    obtain ⟨before, inner, rfl, hinner, hopen, hclose⟩ := hbody indent flat body after hdoc hafter
    obtain ⟨printed, rfl, hnext, hmarked⟩ := ih part.body.closeTrim hothers
    rw [Doc.layout_text.1 hstart, layout_trimMarker hleft, layout_printHead hhead, layout_trimMarker hright,
      Doc.layout_text.1 hstop]
    refine ⟨⟨s.delimiter.trimLeft || close.isShown flat, style.headText s.head,
      s.delimiter.trimRight || part.body.openTrim.isShown flat, before, inner, after⟩ :: printed, ?_, rfl,
      .cons rfl hinner (sideMarked_or hopen) ?_ hmarked⟩
    · simp only [PrintedStretch.texts, PrintedStretch.text, String.append_assoc]
    · rw [hnext]
      exact sideMarked_or hclose

/-- **What a tag with a body is printed as**, in every layout of its document: the first part follows the opening
delimiter, each other part its own one, and the markers make up for line breaks and for nothing else. -/
theorem layout_printBlock {style : PageStyle} {ctx : PrintContext} {formatter : CodeFormatter} {indent : Nat}
    {flat : Bool} {name : String} {opener closer : Delimiter} {first : Part} {parts : List Part}
    {s : Stretch} {ss : List Stretch} (hopener : s.delimiter = opener)
    (hfirst : first.delimiter = none) (hbody : first.body.IsMarked style ctx formatter s.nodes)
    (hparts : List.Forall₂ (Part.Prints style ctx formatter) parts ss) {text : String}
    (h : Doc.Layout style indent flat (printBlock name s.head opener (some closer) (first :: parts)) text) :
    BlockText style ctx formatter name (s :: ss) closer text := by
  simp only [printBlock, printParts, hfirst, List.head?_cons, Option.map_some, Option.getD_some] at h
  obtain ⟨t, last, rfl, ht, hlast⟩ := Doc.layout_append.1 h
  obtain ⟨t, closerRight, rfl, ht, hcloserRight⟩ := Doc.layout_append.1 ht
  obtain ⟨t, u, rfl, ht, hu⟩ := Doc.layout_append.1 ht
  obtain ⟨start, left, rfl, hstart, hleft⟩ := Doc.layout_append.1 ht
  -- everything from here on is in one group, so the markers and the gaps see the same mode
  obtain ⟨mode, -, hu⟩ := Doc.layout_group.1 hu
  obtain ⟨u, stop, rfl, hu, hstop⟩ := Doc.layout_append.1 hu
  obtain ⟨u, closerLeft, rfl, hu, hcloserLeft⟩ := Doc.layout_append.1 hu
  obtain ⟨u, closerStart, rfl, hu, hcloserStart⟩ := Doc.layout_append.1 hu
  obtain ⟨u, rest, rfl, hu, hrest⟩ := Doc.layout_append.1 hu
  obtain ⟨u, openerStop, rfl, hu, hopenerStop⟩ := Doc.layout_append.1 hu
  obtain ⟨head, right, rfl, hhead, hright⟩ := Doc.layout_append.1 hu
  obtain ⟨v, others, rfl, hv, hothers⟩ := Doc.layout_append.1 hrest
  obtain ⟨v, after, rfl, hv, hafter⟩ := Doc.layout_append.1 hv
  obtain ⟨nothing, body, rfl, hnothing, hdoc⟩ := Doc.layout_append.1 hv
  obtain ⟨before, inner, rfl, hinner, hopen, hclose⟩ := hbody indent mode body after hdoc hafter
  obtain ⟨printed, rfl, hnext, hmarked⟩ := layout_printParts closer hparts first.body.closeTrim hothers
  rw [Doc.layout_text.1 hstart, layout_trimMarker hleft, layout_printHead hhead, layout_trimMarker hright,
    Doc.layout_text.1 hopenerStop, Doc.layout_nil.1 hnothing, Doc.layout_text.1 hcloserStart,
    layout_trimMarker hcloserLeft, Doc.layout_text.1 hstop, layout_trimMarker hcloserRight,
    Doc.layout_text.1 hlast]
  refine ⟨⟨opener.trimLeft, style.headText s.head, opener.trimRight || first.body.openTrim.isShown mode, before,
    inner, after⟩ :: printed, closer.trimLeft || (printParts first.body.closeTrim parts).2.isShown mode,
    closer.trimRight, ?_, ?_, rfl, .cons rfl hinner ?_ ?_ hmarked⟩
  · simp only [PrintedStretch.texts, PrintedStretch.text, String.append_assoc, AddedTrim.isShown, Bool.or_false,
      String.empty_append]
  · simp [nextLeft, nextDelimiter, hopener]
  · rw [hopener]
    exact sideMarked_or hopen
  · rw [hnext]
    exact sideMarked_or hclose

end LiquidTemplate
