import LiquidTemplate.Proofs.Grammar.Spelled
import LiquidTemplate.Proofs.Print.Placed
import LiquidTemplate.Proofs.Print.Settled
import LiquidTemplate.Proofs.Print.Visible

/-!
# Nodes that take several lines

`Node.breaks` says of a node, before it is printed, that it takes several lines however wide the page is. Whether there
is a line feed in a document often does not depend on how it is laid out (`Doc.Feeds`), and for the document of a node
that breaks it never does: there is one, except in four kinds of nodes that are said to take several lines although they
are printed on one (`Node.overstates`, `feeds_printNode`).
-/

namespace LiquidTemplate

/-! ## Line feeds in documents -/

@[simp] theorem Text.hasLineFeed_append (s t : String) : hasLineFeed (s ++ t) = (hasLineFeed s || hasLineFeed t) := by
  simp only [hasLineFeed, String.toList_append, List.contains_append]

@[simp] theorem Text.hasLineFeed_space : hasLineFeed " " = false := by
  decide

@[simp] theorem hasLineFeed_tagOpen : Text.hasLineFeed tagOpen = false := by
  decide

@[simp] theorem hasLineFeed_tagClose : Text.hasLineFeed tagClose = false := by
  decide

theorem LineBreak.hasLineFeed_text (b : LineBreak) : Text.hasLineFeed b.text = true := by
  cases b <;> decide

namespace Doc

/-- However a document is laid out, `feeds` tells whether there is a line feed in its text. -/
def Feeds (style : PageStyle) (feeds : Bool) (d : Doc) : Prop :=
  ∀ indent flat s, d.Layout style indent flat s → Text.hasLineFeed s = feeds

variable {style : PageStyle} {x y : Bool} {a b d : Doc}

theorem feeds_nil (style : PageStyle) : Doc.nil.Feeds style false := by
  intro indent flat s hs
  rw [layout_nil.1 hs]
  rfl

theorem feeds_text (style : PageStyle) (t : String) : (Doc.text t).Feeds style (Text.hasLineFeed t) := by
  intro indent flat s hs
  rw [layout_text.1 hs]

theorem feeds_hardLine (style : PageStyle) : Doc.hardLine.Feeds style true := by
  intro indent flat s hs
  rw [layout_hardLine.1 hs, PageStyle.newLine, Text.hasLineFeed_append, style.lineBreak.hasLineFeed_text, Bool.true_or]

theorem feeds_emptyLine (style : PageStyle) : Doc.emptyLine.Feeds style true := by
  intro indent flat s hs
  rw [layout_emptyLine.1 hs, style.lineBreak.hasLineFeed_text]

theorem Feeds.append (ha : a.Feeds style x) (hb : b.Feeds style y) : (a ++ b).Feeds style (x || y) := by
  intro indent flat s hs
  obtain ⟨t, u, rfl, ht, hu⟩ := layout_append.1 hs
  rw [Text.hasLineFeed_append, ha indent flat t ht, hb indent flat u hu]

theorem Feeds.left (ha : a.Feeds style true) (b : Doc) : (a ++ b).Feeds style true := by
  intro indent flat s hs
  obtain ⟨t, u, rfl, ht, -⟩ := layout_append.1 hs
  rw [Text.hasLineFeed_append, ha indent flat t ht, Bool.true_or]

theorem Feeds.right (hb : b.Feeds style true) (a : Doc) : (a ++ b).Feeds style true := by
  intro indent flat s hs
  obtain ⟨t, u, rfl, -, hu⟩ := layout_append.1 hs
  rw [Text.hasLineFeed_append, hb indent flat u hu, Bool.or_true]

theorem Feeds.group (h : d.Feeds style x) : (Doc.group d).Feeds style x := by
  intro indent flat s hs
  obtain ⟨inner, -, hs⟩ := layout_group.1 hs
  exact h indent inner s hs

theorem Feeds.nest (h : d.Feeds style x) (columns : Nat) : (Doc.nest columns d).Feeds style x :=
  fun _ flat s hs => h _ flat s (layout_nest.1 hs)

end Doc

/-! ## Texts and heads -/

section

variable {style : PageStyle} {ctx : PrintContext} {formatter : CodeFormatter}

theorem feeds_verbatim (style : PageStyle) (s : String) : (verbatim s).Feeds style (Text.hasLineFeed s) := by
  obtain ⟨first, rest, hsplit, ⟨-, hclean⟩, -⟩ := Text.exists_splitChars (· == '\n') s.toList
  have hall : ['\n'].intercalate (first :: rest) = s.toList := hsplit ▸ Text.intercalate_splitChars '\n' s.toList
  rw [verbatim, Text.rawLines, hsplit]
  cases rest with
  | nil =>
    -- a single line
    have hline : '\n' ∉ first := fun hmem => by simpa using hclean '\n' hmem
    have hs : s.toList = first := by simpa using hall.symm
    have hdropped : Text.hasLineFeed (String.ofList (Text.dropReturn first)) = Text.hasLineFeed s := by
      have hsub : '\n' ∉ Text.dropReturn first := fun hmem => hline (Text.dropReturn_subset _ hmem)
      simp [Text.hasLineFeed, hs, hline, hsub]
    rw [← hdropped]
    exact Doc.feeds_text style _
  | cons second rest =>
    have hfeed : Text.hasLineFeed s = true := by
      rw [Text.hasLineFeed, ← hall]
      simp [List.intercalate]
    rw [hfeed]
    exact ((Doc.feeds_emptyLine style).right _).left _

theorem feeds_slice {source : List Char} {span : Span} (h : (Text.sliceChars source span).contains '\n' = true) :
    (verbatim (Text.slice source span)).Feeds style true := by
  have hfeed : Text.hasLineFeed (Text.slice source span) = true := by
    rw [Text.hasLineFeed, Text.slice, String.toList_ofList]
    exact h
  exact hfeed ▸ feeds_verbatim style _

/-- A break between paragraphs is printed if a word follows it. -/
theorem feeds_fill {runs : List (List Char)} (h : runs.any Text.isParagraphBreak = true)
    (hlast : ∀ r, runs.getLast? = some r → r.all Text.isBlank = false) : (fill runs).Feeds style true := by
  induction runs with
  | nil => cases h
  | cons run runs ih =>
    cases runs with
    | nil =>
      have hblank : run.all Text.isBlank = true := by
        simp only [List.any_cons, List.any_nil, Bool.or_false, Text.isParagraphBreak, Bool.and_eq_true] at h
        exact h.1
      rw [hlast run rfl] at hblank
      cases hblank
    | cons next runs =>
      rw [List.getLast?_cons_cons] at hlast
      rw [List.any_cons, Bool.or_eq_true] at h
      simp only [fill]
      rcases h with hrun | hlater
      · have hblank : run.all Text.isBlank = true := (Bool.and_eq_true_iff.1 hrun).1
        rw [if_pos hblank, if_pos hrun]
        exact ((Doc.feeds_emptyLine style).left _).left _
      · exact (ih hlater hlast).right _

theorem feeds_trimMarker (style : PageStyle) (inSource : Bool) : (trimMarker inSource .never).Feeds style false := by
  cases inSource
  · exact Doc.feeds_nil style
  · exact Doc.feeds_text style "-"

theorem feeds_printHead (style : PageStyle) (head : String) : (printHead head).Feeds style (Text.hasLineFeed head) := by
  have h := ((Doc.feeds_text style " ").append (feeds_verbatim style head)).append (Doc.feeds_text style " ")
  simpa only [printHead, Text.hasLineFeed_space, Bool.false_or, Bool.or_false] using h

theorem feeds_printEnd (style : PageStyle) (name : String) (d : Delimiter) :
    (printEnd name d).Feeds style (Text.hasLineFeed name) := by
  have hname : Text.hasLineFeed (" end" ++ name ++ " ") = Text.hasLineFeed name := by
    simp [show Text.hasLineFeed " end" = false by decide]
  have h := ((((Doc.feeds_text style tagOpen).append (feeds_trimMarker style d.trimLeft)).append
    (Doc.feeds_text style (" end" ++ name ++ " "))).append (feeds_trimMarker style d.trimRight)).append
    (Doc.feeds_text style tagClose)
  simpa only [printEnd, hname, hasLineFeed_tagOpen, hasLineFeed_tagClose, Bool.false_or, Bool.or_false] using h

theorem hasLineFeed_tagHead (q : Quote) (name : String) (markup : Markup) :
    Text.hasLineFeed (tagHead q name markup) = (Text.hasLineFeed name || Text.hasLineFeed (markup.render q)) := by
  by_cases hempty : (markup.render q).isEmpty = true
  · rw [tagHead, if_pos hempty, String.isEmpty_iff.1 hempty, show Text.hasLineFeed "" = false by decide, Bool.or_false]
  · rw [tagHead, if_neg hempty]
    simp

theorem hasLineFeed_tagHead_plain (q : Quote) (name : String) {markup : Markup} (h : markup.hasPlainLineFeed = true) :
    Text.hasLineFeed (tagHead q name markup) = true := by
  cases markup with
  | plain text =>
    have htext : Text.hasLineFeed text = true := h
    rw [hasLineFeed_tagHead, Markup.render, htext, Bool.or_true]
  | _ => cases h

/-! ## Containers -/

theorem boundary_forced (matters hasBlank : Bool) : (boundary matters hasBlank true).1 = .hardLine := by
  cases matters <;> cases hasBlank <;> rfl

theorem feeds_bodyOf (style : PageStyle) (ctx : PrintContext) (container : Facts) {children : List (Node Facts)}
    (inner : Doc) (h : children ≠ []) : ((bodyOf ctx true container children inner).doc).Feeds style true := by
  obtain ⟨first, rest, rfl⟩ := List.exists_cons_of_ne_nil h
  rw [bodyOf, List.head?_cons, List.getLast?_cons]
  simp only [boundary_forced]
  exact ((Doc.feeds_hardLine style).left _).nest _

theorem feeds_printElement (style : PageStyle) (ctx : PrintContext) (opening : Doc × AttributeLayout) (name : String)
    (container : Facts) {children : List (Node Facts)} (inner : Doc) (h : children ≠ []) :
    (printElement ctx opening name true container children inner).Feeds style true := by
  obtain ⟨first, rest, rfl⟩ := List.exists_cons_of_ne_nil h
  rw [printElement, List.head?_cons, List.getLast?_cons]
  -- the line break before the children is on one side of the bracket or on the other
  have hbefore (sticks matters hasBlank : Bool) : (if sticks then printBracketLine true ++ .text ">"
      else (boundary matters hasBlank true).1 : Doc).Feeds style true := by
    cases sticks
    · rw [boundary_forced]
      exact Doc.feeds_hardLine style
    · exact (Doc.feeds_hardLine style).left _
  exact ((((hbefore _ _ _).left _).left _).nest _ |>.right _ |>.left _).group

theorem feeds_printParts {parts : List Part} {part : Part} (hmem : part ∈ parts)
    (h : part.body.doc.Feeds style true ∨ part.body.after.Feeds style true) (close : AddedTrim) :
    ((printParts close parts).1).Feeds style true := by
  induction parts generalizing close with
  | nil => cases hmem
  | cons first parts ih =>
    rw [printParts]
    rcases List.mem_cons.1 hmem with rfl | hmem
    · rcases h with hdoc | hafter
      · exact ((hdoc.right _).left _).left _
      · exact (hafter.right _).left _
    · exact (ih hmem _).right _

theorem feeds_printBlock {name head : String} (opener : Delimiter) (closer : Option Delimiter) {parts : List Part}
    (h : Text.hasLineFeed head = true ∨ ((printParts .never parts).1).Feeds style true) :
    (printBlock name head opener closer parts).Feeds style true := by
  have hinside (trim : Doc) :
      (printHead head ++ trim ++ .text tagClose ++ (printParts .never parts).1).Feeds style true := by
    rcases h with hhead | hparts
    · exact (((hhead ▸ feeds_printHead style head).left _).left _).left _
    · exact hparts.right _
  cases closer with
  | some d => exact (((((hinside _).left _).left _).left _).group.right _).left _ |>.left _
  | none => exact (hinside _).group.right _

/-! ## Code -/

theorem feeds_printCode (style : PageStyle) {body : RawBody} (hblank : Text.isAllWhiteSpace body.slice.text = false)
    (level : Nat) (indents : Bool) (session : Session) :
    (((printCode ctx formatter level indents body).run session).1).Feeds style
      (!body.isVerbatim || Text.hasLineFeed body.slice.text) := by
  unfold printCode
  rw [hblank, if_neg Bool.false_ne_true]
  cases hverbatim : body.isVerbatim with
  | true => exact feeds_verbatim style _
  | false => exact (Doc.feeds_hardLine style).right _

/-! ## Forced containers -/

theorem children_ne_nil_of_isForced {source : List Char} {n : Node Facts} (hundivided : n.isBranched = false)
    (h : n.isForced source = true) : n.children ≠ [] := by
  intro hnil
  rw [Node.isForced_eq, hundivided, hnil] at h
  simp [Node.anyHardGap, Node.anyBreaks, Node.keepsOwnLine] at h

theorem anyForced_iff {source : List Char} {ns : List (Node Facts)} :
    Node.anyForced source ns = true ↔ ∃ n ∈ ns, n.isForced source = true := by
  induction ns with
  | nil => simp [Node.anyForced]
  | cons n ns ih => simp [Node.anyForced, ih]

/-- A forced tag has a part with a line break: the first one of a `case` that is divided, or one with children. -/
theorem exists_part_of_isForced (style : PageStyle) {n : Node Facts} {name : String} {markup : Markup}
    {opener : Delimiter} {closer : Option Delimiter} (hkind : n.kind = .block name markup opener closer)
    (hbranches : n.isBranched = true → ∀ b ∈ n.children, ∃ name markup opener, b.kind = .branch name markup opener)
    (hforced : n.isForced ctx.source = true) (level : Nat) (session : Session) :
    ∃ part ∈ blockParts ctx formatter level name n session,
      part.body.doc.Feeds style true ∨ part.body.after.Feeds style true := by
  have hname : n.isBranched = isBranchedTag name := by rw [Node.isBranched, hkind]
  rw [blockParts, hforced]
  cases hbranched : isBranchedTag name with
  | false =>
    rw [if_neg Bool.false_ne_true]
    have hne := children_ne_nil_of_isForced (hname.trans hbranched) hforced
    exact ⟨_, List.mem_singleton_self _, .inl (feeds_bodyOf style ctx n.info _ hne)⟩
  | true =>
    rw [if_pos rfl]
    have hbranches := hbranches (hname.trans hbranched)
    rw [Node.isForced_eq, hname, hbranched, if_pos rfl, Bool.or_eq_true] at hforced
    rcases hforced with hdivided | hany
    · -- if nothing precedes the first `when`, the line break is after the first delimiter
      rw [hdivided]
      obtain ⟨b, bs, hchildren⟩ : ∃ b bs, n.children = b :: bs := by
        refine List.exists_cons_of_ne_nil fun hnil => ?_
        simp [Node.isDividedCase, hkind, hnil] at hdivided
      obtain ⟨bname, bmarkup, bopener, hb⟩ := hbranches b (by simp [hchildren])
      obtain ⟨later, hrun⟩ := run_printBranches_branch ctx formatter level hb true true bs session
      rw [hchildren, hrun]
      refine ⟨_, List.mem_cons_self, ?_⟩
      by_cases hnil : b.children = []
      · exact .inr (by simpa [branchBody, hnil] using Doc.feeds_hardLine style)
      · exact .inl (by simpa [branchBody, hnil] using feeds_bodyOf style ctx b.info _ hnil)
    · obtain ⟨b, hb, hforced⟩ := anyForced_iff.1 hany
      obtain ⟨bname, bmarkup, bopener, hbkind⟩ := hbranches b hb
      have hne := children_ne_nil_of_isForced (by rw [Node.isBranched, hbkind]) hforced
      obtain ⟨later, part, hpart, hbody⟩ :=
        exists_part_printBranches ctx formatter level hb hbkind hne true n.isDividedCase session
      exact ⟨part, hpart, .inl (hbody ▸ feeds_bodyOf style ctx b.info _ hne)⟩

end

/-! ## Nodes -/

/-- A node that is printed on one line although it is said to take several: a template without nodes, front matter on
one line, code on one line that must keep its white space, or a body on one line that is kept as it stands. -/
def Node.overstates (ctx : PrintContext) (n : Node Facts) : Bool :=
  match n.kind with
  | .document => n.children.isEmpty
  | .frontMatter body => !Text.hasLineFeed body
  | .rawTag name markup body _ _ =>
    body.kind ≠ .text && body.isVerbatim && !Text.hasLineFeed (name ++ markup ++ body.slice.text)
  | .block name markup opener closer =>
    n.info.keepsLayout && !Text.hasLineFeed (tagHead (ctx.stringQuote none) name markup ++
      Text.slice ctx.source ⟨opener.span.stop, (closer.map (·.span.start)).getD n.span.stop⟩)
  | _ => false

/-- What reading a template ensures of a node: a text ends in a word, a tag that opens no block is not kept as it
stands, and a tag with a body is no list of statements. If it is branched, it is laid out, and its children are
branches. -/
def Node.Regular (n : Node Facts) : Prop :=
  match n.kind with
  | .text value => ∃ v x, value.toList = v ++ [x] ∧ Text.isBlank x = false
  | .tag _ _ _ => n.info.keepsLayout = false
  | .block _ markup _ _ =>
    (∀ lines, markup ≠ .statements lines) ∧ (n.isBranched = true → n.info.keepsLayout = false) ∧
      (n.isBranched = true → ∀ b ∈ n.children, ∃ name markup opener, b.kind = .branch name markup opener)
  | .branch _ _ _ => False
  | _ => True

section

variable {style : PageStyle} {ctx : PrintContext} {formatter : CodeFormatter} {prev : Option (Node Facts)}
  {n : Node Facts}

theorem feeds_tag {head content stop : Doc} {x y z : Bool} (opener : Delimiter) (hhead : head.Feeds style x)
    (hcontent : content.Feeds style y) (hstop : stop.Feeds style z) :
    (.text tagOpen ++ trimMarker opener.trimLeft .never ++ head ++ trimMarker opener.trimRight .never ++
      .text tagClose ++ content ++ stop : Doc).Feeds style (x || y || z) := by
  have h := ((((((Doc.feeds_text style tagOpen).append (feeds_trimMarker style opener.trimLeft)).append hhead).append
    (feeds_trimMarker style opener.trimRight)).append (Doc.feeds_text style tagClose)).append hcontent).append hstop
  simpa only [hasLineFeed_tagOpen, hasLineFeed_tagClose, Bool.false_or, Bool.or_false] using h

def rawContent (ctx : PrintContext) (formatter : CodeFormatter) (level : Nat) (name : String) (body : RawBody) :
    StateM Session Doc :=
  if body.kind = .text then pure (verbatim body.slice.text)
  else printCode ctx formatter level (indentsTag ctx.options name) body

theorem feeds_rawContent (style : PageStyle) {body : RawBody}
    (hbreaks : (if body.kind = .text then Text.hasLineFeed body.slice.text
      else !Text.isAllWhiteSpace body.slice.text) = true) (level : Nat) (name : String) (session : Session) :
    (((rawContent ctx formatter level name body).run session).1).Feeds style
      (!(decide (body.kind ≠ .text) && body.isVerbatim) || Text.hasLineFeed body.slice.text) := by
  unfold rawContent
  by_cases htext : body.kind = .text
  · rw [if_pos htext] at hbreaks ⊢
    rw [hbreaks, Bool.or_true]
    exact hbreaks ▸ feeds_verbatim style body.slice.text
  · rw [if_neg htext, Bool.not_eq_true'] at hbreaks
    rw [if_neg htext, decide_eq_true htext, Bool.true_and]
    exact feeds_printCode style hbreaks level _ session

theorem run_printNode_rawTag {name markup : String} {body : RawBody} {opener closer : Delimiter}
    (hkind : n.kind = .rawTag name markup body opener closer) (hignored : isIgnored ctx prev = false) (level : Nat)
    (session : Session) : ((printNode ctx formatter level prev n).run session).1 =
      .text tagOpen ++ trimMarker opener.trimLeft .never ++
        .text (" " ++ tagHead .double name (.plain markup) ++ " ") ++
        trimMarker opener.trimRight .never ++ .text tagClose ++
        ((rawContent ctx formatter level name body).run session).1 ++ printEnd name closer := by
  obtain ⟨info, span, kind, nameNodes, attributes, value, children⟩ := n
  simp only at hkind
  subst hkind
  unfold printNode rawContent
  simp only [hignored, Bool.false_eq_true, if_false]
  split <;> rfl

theorem feeds_printNode_rawTag (style : PageStyle) {name markup : String} {body : RawBody} {opener closer : Delimiter}
    (hkind : n.kind = .rawTag name markup body opener closer) (hignored : isIgnored ctx prev = false)
    (hbreaks : n.breaks ctx.source = true) (level : Nat) (session : Session) :
    (((printNode ctx formatter level prev n).run session).1).Feeds style (!n.overstates ctx) := by
  have hhead : (Doc.text (" " ++ tagHead .double name (.plain markup) ++ " ")).Feeds style
      (Text.hasLineFeed name || Text.hasLineFeed markup) := by
    have h := Doc.feeds_text style (" " ++ tagHead .double name (.plain markup) ++ " ")
    simpa [hasLineFeed_tagHead, Markup.render] using h
  have hcontent := @feeds_rawContent ctx formatter style body
    (by simpa only [Node.breaks, Node.breaksIf, hkind] using hbreaks) level name session
  have hfeeds := feeds_tag opener hhead hcontent (feeds_printEnd style name closer)
  have hover : (!n.overstates ctx) = (Text.hasLineFeed name || Text.hasLineFeed markup ||
      (!(decide (body.kind ≠ .text) && body.isVerbatim) || Text.hasLineFeed body.slice.text) ||
      Text.hasLineFeed name) := by
    simp only [Node.overstates, hkind, Text.hasLineFeed_append]
    grind
  rw [hover, run_printNode_rawTag hkind hignored]
  exact hfeeds

theorem feeds_printNode_kept (style : PageStyle) {name : String} {markup : Markup} {opener : Delimiter}
    {closer : Option Delimiter} (hkind : n.kind = .block name markup opener closer)
    (hignored : isIgnored ctx prev = false) (hkeeps : n.info.keepsLayout = true) (level : Nat) (session : Session) :
    (((printNode ctx formatter level prev n).run session).1).Feeds style (!n.overstates ctx) := by
  obtain ⟨info, span, kind, nameNodes, attributes, value, children⟩ := n
  simp only at hkind hkeeps
  subst hkind
  unfold printNode
  simp only [hignored, hkeeps, Bool.false_eq_true, if_false, if_true]
  have hhead := feeds_printHead style (tagHead (ctx.stringQuote none) name markup)
  have hbody := feeds_verbatim style
    (Text.slice ctx.source ⟨opener.span.stop, (closer.map (·.span.start)).getD span.stop⟩)
  have hname := hasLineFeed_tagHead (ctx.stringQuote none) name markup
  simp only [Node.overstates, hkeeps, Bool.true_and, Bool.not_not, Text.hasLineFeed_append]
  cases closer with
  | some d =>
    have hfeeds := feeds_tag opener hhead hbody (feeds_printEnd style name d)
    -- the name in the closing delimiter is also in the head
    have hclosing : ∀ x : Bool, (Text.hasLineFeed (tagHead (ctx.stringQuote none) name markup) || x ||
        Text.hasLineFeed name) = (Text.hasLineFeed (tagHead (ctx.stringQuote none) name markup) || x) := by
      intro x
      rw [hname]
      cases Text.hasLineFeed name <;> simp
    rwa [hclosing] at hfeeds
  | none =>
    have hfeeds := feeds_tag opener hhead hbody (Doc.feeds_nil style)
    rwa [Bool.or_false] at hfeeds

theorem feeds_printNode_block (style : PageStyle) {name : String} {markup : Markup} {opener : Delimiter}
    {closer : Option Delimiter} (hkind : n.kind = .block name markup opener closer) (hregular : n.Regular)
    (hignored : isIgnored ctx prev = false) (hkeeps : n.info.keepsLayout = false)
    (hbreaks : n.breaks ctx.source = true) (level : Nat) (session : Session) :
    (((printNode ctx formatter level prev n).run session).1).Feeds style true := by
  simp only [Node.Regular, hkind] at hregular
  obtain ⟨hmarkup, -, hbranches⟩ := hregular
  have hcases : markup.hasPlainLineFeed = true ∨ n.isForced ctx.source = true := by
    cases markup with
    | statements lines => exact absurd rfl (hmarkup lines)
    | _ => simpa [Node.breaks, Node.breaksIf, hkind, hkeeps] using hbreaks
  rw [run_printNode_block hignored hkeeps hkind]
  apply feeds_printBlock
  rcases hcases with hplain | hforced
  · exact .inl (hasLineFeed_tagHead_plain _ name hplain)
  · obtain ⟨part, hpart, hfeeds⟩ := exists_part_of_isForced style hkind hbranches hforced level session
    exact .inr (feeds_printParts hpart hfeeds .never)

theorem feeds_printNode_element (style : PageStyle) {opener closer : Span} (hkind : n.kind = .element opener closer)
    (hignored : isIgnored ctx prev = false) (hbreaks : n.breaks ctx.source = true) (level : Nat) (session : Session) :
    (((printNode ctx formatter level prev n).run session).1).Feeds style true := by
  have hbranched : n.isBranched = false := by rw [Node.isBranched, hkind]
  rw [Node.breaks, Node.breaksIf, hkind] at hbreaks
  cases hkeeps : n.info.keepsLayout with
  | true =>
    have hslice : (Text.sliceChars ctx.source ⟨opener.stop, closer.start⟩).contains '\n' = true := by
      simpa [hkeeps] using hbreaks
    obtain ⟨info, span, kind, name, attributes, value, children⟩ := n
    simp only at hkind hkeeps
    subst hkind
    unfold printNode
    simp only [hignored, hkeeps, Bool.false_eq_true, if_false, if_true]
    exact (((feeds_slice hslice).right _).left _).left _
  | false =>
    have hforced : n.isForced ctx.source = true := by simpa [hkeeps] using hbreaks
    obtain ⟨opening, name, hrun⟩ :=
      @run_printNode_element ctx formatter level prev n opener closer hignored hkeeps hkind
      session
    rw [hrun, hforced]
    exact feeds_printElement style ctx opening name n.info _ (children_ne_nil_of_isForced hbranched hforced)

theorem feeds_printNode_document (style : PageStyle) (hkind : n.kind = .document)
    (hignored : isIgnored ctx prev = false)
    (level : Nat) (session : Session) :
    (((printNode ctx formatter level prev n).run session).1).Feeds style (!n.overstates ctx) := by
  by_cases hnil : n.children = []
  · have hover : n.overstates ctx = true := by simp [Node.overstates, hkind, hnil]
    obtain ⟨info, span, kind, name, attributes, value, children⟩ := n
    simp only at hkind hnil
    subst hkind hnil
    unfold printNode
    rw [hover, hignored]
    exact Doc.feeds_nil style
  · have hover : n.overstates ctx = false := by simp [Node.overstates, hkind, hnil]
    rw [hover, run_printNode_document hignored hkind hnil]
    exact (Doc.feeds_hardLine style).right _

theorem feeds_printDrop (style : PageStyle) (ctx : PrintContext) {text : String} (d : Delimiter)
    (h : Text.hasLineFeed text = true) : (printDrop ctx (.plain text) d).Feeds style true := by
  have hempty : text.isEmpty = false := by
    rw [← Bool.not_eq_true, String.isEmpty_iff]
    rintro rfl
    cases h
  simp only [printDrop, hempty, Bool.false_eq_true, if_false]
  exact (((h ▸ feeds_verbatim style text).right _).left _).right _ |>.left _

theorem feeds_printNode_leaf (style : PageStyle) (hleaf : n.kind.hasBody = false) (hregular : n.Regular)
    (hraw : ∀ name markup body opener closer, n.kind ≠ .rawTag name markup body opener closer)
    (hignored : isIgnored ctx prev = false) (hbreaks : n.breaks ctx.source = true) (level : Nat) (session : Session) :
    (((printNode ctx formatter level prev n).run session).1).Feeds style (!n.overstates ctx) := by
  obtain ⟨info, span, kind, nameNodes, attributes, value, children⟩ := n
  simp only [Node.breaks, Node.breaksIf] at hbreaks
  unfold printNode
  simp only [hignored, Bool.false_eq_true, if_false, Node.overstates]
  cases kind with
  | text text =>
    obtain ⟨v, x, htext, hx⟩ := hregular
    exact feeds_fill hbreaks (getLast?_runs htext hx)
  | frontMatter body =>
    have h := ((Doc.feeds_text style "---").append (feeds_verbatim style body)).append (Doc.feeds_text style "---")
    rw [show Text.hasLineFeed "---" = false by decide, Bool.false_or, Bool.or_false] at h
    rwa [Bool.not_not]
  | comment body =>
    have hbody : Text.hasLineFeed body = true := hbreaks
    exact ((hbody ▸ feeds_verbatim style body).right _).left _
  | rawElement name body opener closer =>
    obtain ⟨hblank, hcode⟩ := Bool.and_eq_true_iff.1 hbreaks
    rw [Bool.not_eq_true'] at hblank
    exact ((hcode ▸ feeds_printCode style hblank level _ session).right _).left _
  | tag name markup opener =>
    cases markup with
    | statements lines => exact ((((Doc.feeds_hardLine style).right _).right _).left _).left _
    | plain text =>
      have hplain : (Markup.plain text).hasPlainLineFeed = true := by
        simpa [show info.keepsLayout = false from hregular] using hbreaks
      have hhead := hasLineFeed_tagHead_plain (ctx.stringQuote none) name hplain
      exact (((hhead ▸ feeds_printHead style _).right _).left _).left _
    | _ => simp [Markup.hasPlainLineFeed, show info.keepsLayout = false from hregular] at hbreaks
  | drop written markup d =>
    cases markup with
    | plain text => exact feeds_printDrop style ctx d hbreaks
    | value v => cases hbreaks
  | rawTag name markup body opener closer => exact absurd rfl (hraw name markup body opener closer)
  | document | element | block | branch => cases hleaf
  | doctype | voidElement | selfClosing | attr => cases hbreaks

/-- **A node that breaks takes several lines** however it is laid out, unless this is overstated, and then it takes
one. -/
theorem feeds_printNode (style : PageStyle) (hregular : n.Regular) (hignored : isIgnored ctx prev = false)
    (hbreaks : n.breaks ctx.source = true) (level : Nat) (session : Session) :
    (((printNode ctx formatter level prev n).run session).1).Feeds style (!n.overstates ctx) := by
  cases hkind : n.kind with
  | document => exact feeds_printNode_document style hkind hignored level session
  | element opener closer =>
    rw [show n.overstates ctx = false by rw [Node.overstates, hkind]]
    exact feeds_printNode_element style hkind hignored hbreaks level session
  | block name markup opener closer =>
    cases hkeeps : n.info.keepsLayout with
    | true => exact feeds_printNode_kept style hkind hignored hkeeps level session
    | false =>
      rw [show n.overstates ctx = false by simp [Node.overstates, hkind, hkeeps]]
      exact feeds_printNode_block style hkind hregular hignored hkeeps hbreaks level session
  | rawTag name markup body opener closer => exact feeds_printNode_rawTag style hkind hignored hbreaks level session
  | branch name markup opener => simp [Node.Regular, hkind] at hregular
  | _ =>
    exact feeds_printNode_leaf style (by rw [hkind]; rfl) hregular (by simp [hkind]) hignored hbreaks level session

end

end LiquidTemplate
