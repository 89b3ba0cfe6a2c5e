import LiquidTemplate.Proofs.Format.AttributeLists
import LiquidTemplate.Proofs.Format.Kept
import LiquidTemplate.Proofs.Print.CleanEnds

/-!
# How the lines of a formatted template end

The breaks that the layout adds are as the options ask. What else is in the output is copied from the source: some texts
are cut into lines and put together again, with one carriage return dropped at the end of each line, and some are copied
as a whole, such as the head of a raw tag, a doctype or a string in a drop (`Node.copied`). So the lines of the output
end as asked just in case those of the copied texts do (`format_lineEnds`). That no line of its own is broken behind a
carriage return of the source is what `Node.IsTidy` is for.
-/

namespace LiquidTemplate

/-! ## The texts of a node -/

/-- The head of a branch after the first one. -/
def Node.branchHead? (ctx : PrintContext) (b : Node Facts) : Option String :=
  match b.kind with
  | .branch (some name) markup _ => some (tagHead (ctx.stringQuote none) name markup)
  | _ => none

/-- The texts that the tags of a node are printed from. -/
def Node.copiedTags (ctx : PrintContext) (n : Node Facts) : List Copied :=
  let q := ctx.stringQuote none
  match n.kind with
  | .doctype legacy => [.whole legacy]
  | .element _ _ | .selfClosing => copiedTag ctx (printName ctx n.name) n.attributes
  | .voidElement name | .rawElement name _ _ _ => copiedTag ctx (Text.lower name) n.attributes
  | .tag _ (.statements _) _ => []
  | .tag name markup _ => [.cut (tagHead q name markup)]
  | .block name markup _ _ =>
    .cut (tagHead q name markup) ::
      if n.isBranched then (n.children.filterMap (branchHead? ctx)).map .cut else []
  | .rawTag name markup _ _ _ => [.whole (tagHead q name (.plain markup))]
  | .drop _ markup _ => markup.copied q
  | .attr _ => [.cut (n.inline ctx none)]
  | _ => []

/-- The texts that a node after another one is printed from, apart from those of the nodes in it: all of it if it is
ignored, else the texts of its tags and its body if that is kept. -/
def Node.copied (ctx : PrintContext) (prev : Option (Node Facts)) (n : Node Facts) : List Copied :=
  if isIgnored ctx prev then [.cut (Text.slice ctx.source n.span)]
  else n.copiedTags ctx ++ ((n.kind.kept? ctx.source n.span n.info.keepsLayout).map .cut).toList

def Node.BreaksAs (ctx : PrintContext) (b : LineBreak) (prev : Option (Node Facts)) (n : Node Facts) : Prop :=
  Copied.AllBreakAs b (n.copied ctx prev)

/-- What reading a template ensures of a node that is laid out after another one: no carriage return stands at the end
of a text after which a line may be broken, and tags with a body are closed. -/
structure Node.IsTidy (ctx : PrintContext) (prev : Option (Node Facts)) (n : Node Facts) : Prop where
  regular : n.Regular
  document : n.kind = .document → n.info.keepsLayout = false
  ignored : isIgnored ctx prev = true → Text.EndsClean (Text.slice ctx.source n.span).toList
  tag : ∀ name ∈ n.printedName? ctx, Copied.AllEndClean (copiedTag ctx name n.attributes)
  drop : ∀ written v d, n.kind = .drop written (.value v) d →
    Copied.AllEndClean ((DropMarkup.value v).copied (ctx.stringQuote none))
  statements : ∀ name lines opener, n.kind = .tag name (.statements lines) opener → ∀ line ∈ lines, IsStatement line
  block : ∀ name markup opener closer, n.kind = .block name markup opener closer →
    '\n' ∉ name.toList ∧ closer.isSome = true
  attr : n.isAttribute = true → Text.EndsClean (n.inline ctx none).toList

section

variable {style : PageStyle} {ctx : PrintContext} {formatter : CodeFormatter} {prev : Option (Node Facts)}
  {n : Node Facts}

/-! ## Nodes without a body -/

theorem breaks_printNode_ignored (hignored : isIgnored ctx prev = true) (htidy : n.IsTidy ctx prev) (level : Nat)
    (session : Session) :
    ((printNode ctx formatter level prev n).run session).1.Breaks style (n.BreaksAs ctx style.lineBreak prev) := by
  have hdoc := breaks_verbatim style (htidy.ignored hignored)
  rw [Node.BreaksAs, Node.copied, if_pos hignored]
  cases n
  unfold printNode
  rw [if_pos hignored]
  exact hdoc.congr (by simp)

theorem breaksAs_of_copiedTag {b : LineBreak} {name : String} {attributes : List (Node Facts)}
    (h : Copied.AllBreakAs b (copiedTag ctx name attributes)) : Text.BreaksAs b name.toList :=
  h _ List.mem_cons_self

theorem endsClean_of_copiedTag {name : String} {attributes : List (Node Facts)}
    (h : Copied.AllEndClean (copiedTag ctx name attributes)) : Text.EndsClean name.toList :=
  h _ List.mem_cons_self

theorem allBreakAs_kept (b : LineBreak) (kept : Bool) (text : String) :
    Copied.AllBreakAs b (((if kept then some text else none).map .cut).toList) ↔
      (kept = true → (Copied.cut text).BreaksAs b) := by
  cases kept <;> simp

theorem breaksIf_rawContent (name : String) (body : RawBody) (level : Nat) (session : Session) :
    ((rawContent ctx formatter level name body).run session).1.BreaksIf style
      ((body.kind = .text || body.isCopied) = true → (Copied.cut body.slice.text).BreaksAs style.lineBreak) := by
  unfold rawContent
  split
  next htext =>
    exact fun indent flat s hs => (breaksIf_verbatim style _ indent flat s hs).trans (by simp [htext])
  next htext =>
    simpa [htext, RawBody.isCopied] using breaksIf_printCode body level (indentsTag ctx.options name) session

theorem breaksAs_of_tagHead {b : LineBreak} {q : Quote} {name : String} {markup : Markup}
    (h : Text.BreaksAs b (tagHead q name markup).toList) : Text.BreaksAs b name.toList := by
  unfold tagHead at h
  dsimp only at h
  split at h
  · exact h
  · rw [String.append_assoc, String.toList_append] at h
    exact h.of_append_left

theorem breaks_printNode_rawTag {name markup : String} {body : RawBody} {opener closer : Delimiter}
    (hkind : n.kind = .rawTag name markup body opener closer) (hignored : isIgnored ctx prev = false) (level : Nat)
    (session : Session) :
    ((printNode ctx formatter level prev n).run session).1.Breaks style (n.BreaksAs ctx style.lineBreak prev) := by
  have hmarkup := breaks_between style " " (tagHead .double name (.plain markup)) " "
    (by decide) (by decide) (by decide)
  have hhead := breaks_opener hmarkup opener .never
  have hdoc := hhead.around (@breaksIf_rawContent style ctx formatter name body level session)
    (breaks_printEnd style name closer) (startsInLine_printEnd name closer)
  rw [run_printNode_rawTag hkind hignored]
  refine hdoc.congr ?_
  have hname := @breaksAs_of_tagHead style.lineBreak .double name (.plain markup)
  simp only [Node.BreaksAs, Node.copied, hignored, Bool.false_eq_true, if_false, Node.copiedTags, hkind, Kind.kept?,
    Copied.allBreakAs_append, Copied.allBreakAs_cons, Copied.allBreakAs_nil, and_true, allBreakAs_kept]
  exact ⟨fun h => ⟨h.1, h.2.1⟩, fun h => ⟨h.1, h.2, hname h.1⟩⟩

theorem breaks_printNode_leaf (hleaf : n.kind.hasBody = false)
    (hraw : ∀ name markup body opener closer, n.kind ≠ .rawTag name markup body opener closer)
    (hignored : isIgnored ctx prev = false) (htidy : n.IsTidy ctx prev) (level : Nat) (session : Session) :
    ((printNode ctx formatter level prev n).run session).1.Breaks style (n.BreaksAs ctx style.lineBreak prev) := by
  obtain ⟨info, span, kind, nameNodes, attributes, value, children⟩ := n
  rw [Node.BreaksAs, Node.copied, hignored, if_neg Bool.false_ne_true]
  unfold printNode
  simp only [hignored, Bool.false_eq_true, if_false]
  cases kind with
  | text text => exact (breaks_printText style text).congr (by simp [Node.copiedTags, Kind.kept?])
  | frontMatter body =>
    have hmark : (Doc.text "---").Breaks style True := breaks_inLine style (by decide)
    exact (hmark.around (breaksIf_verbatim style body) hmark (startsInLine_word (by decide))).congr
      (by simp [Node.copiedTags, Kind.kept?])
  | comment body =>
    have hopen : (Doc.text "<!--").Breaks style True := breaks_inLine style (by decide)
    have hclose : (Doc.text "-->").Breaks style True := breaks_inLine style (by decide)
    exact (hopen.around (breaksIf_verbatim style body) hclose (startsInLine_word (by decide))).congr
      (by simp [Node.copiedTags, Kind.kept?])
  | doctype legacy =>
    exact (breaks_printDoctype style legacy).congr (by simp [Node.copiedTags, Kind.kept?, Copied.BreaksAs])
  | voidElement name =>
    have hopening := breaks_printOpening style (htidy.tag _ rfl)
    exact (breaks_printChildless hopening false).congr (by simp [Node.copiedTags, Kind.kept?])
  | selfClosing =>
    have hopening := breaks_printOpening style (htidy.tag _ rfl)
    exact (breaks_printChildless hopening true).congr (by simp [Node.copiedTags, Kind.kept?])
  | rawElement name body opener closer =>
    have hopening := breaks_printOpening style (htidy.tag _ rfl)
    have hclose := breaks_between style "</" (Text.lower name) ">" (by decide) (by decide) (by decide)
    have hstart : (Doc.text ("</" ++ Text.lower name ++ ">")).StartsInLine :=
      ⟨_, .refl, '<', '/' :: (Text.lower name ++ ">").toList, by simp, by decide⟩
    have hcode := @breaksIf_printCode style ctx formatter body level
      (indentsElement ctx.options (Text.lower name)) session
    refine ((breaks_printChildless hopening false).around hcode hclose hstart).congr ?_
    simp only [Node.copiedTags, Kind.kept?, Copied.allBreakAs_append, allBreakAs_kept]
    exact ⟨fun h => ⟨h.1, h.2.1⟩, fun h => ⟨h.1, h.2, breaksAs_of_copiedTag h.1⟩⟩
  | tag name markup opener =>
    cases markup with
    | statements lines =>
      have hlines := breaks_printStatements style ctx.options.indentWidth 0 (htidy.statements _ _ _ rfl)
      have hname : (Doc.text " liquid").Breaks style True := breaks_inLine style (by decide)
      exact (breaks_opener ((hlines.right hname).left (Doc.breaks_hardLine style)) opener .never).congr
        (by simp [Node.copiedTags, Kind.kept?])
    | _ => exact (breaks_opener (breaks_printHead style _) opener .never).congr (by simp [Node.copiedTags, Kind.kept?])
  | drop written markup d =>
    refine (breaks_printDrop d ?_).congr (by simp [Node.copiedTags, Kind.kept?])
    rintro v rfl
    exact htidy.drop written v d rfl
  | attr mark =>
    exact (breaks_verbatim style (htidy.attr rfl)).congr (by simp [Node.copiedTags, Kind.kept?])
  | rawTag name markup body opener closer => exact absurd rfl (hraw name markup body opener closer)
  | document | element | block | branch => cases hleaf

/-! ## Nodes with a body -/

theorem Node.Regular.of_isBranched (h : n.Regular) (hdivided : n.isBranched = true) : n.info.keepsLayout = false ∧
    ∀ b ∈ n.children, ∃ name markup opener, b.kind = .branch name markup opener := by
  have hbranched := hdivided
  unfold Node.isBranched at hbranched
  split at hbranched
  next name markup opener closer hkind =>
    simp only [Node.Regular, hkind] at h
    exact ⟨h.2.1 hdivided, h.2.2 hdivided⟩
  next => cases hbranched

theorem breaks_printNode_kept (hbody : n.kind.hasBody = true) (hkeeps : n.info.keepsLayout = true)
    (hignored : isIgnored ctx prev = false) (htidy : n.IsTidy ctx prev) (level : Nat) (session : Session) :
    ((printNode ctx formatter level prev n).run session).1.Breaks style (n.BreaksAs ctx style.lineBreak prev) := by
  have hbranched : n.isBranched = false := by
    refine Bool.eq_false_iff.2 fun hdivided => ?_
    rw [(htidy.regular.of_isBranched hdivided).1] at hkeeps
    cases hkeeps
  rw [Node.BreaksAs, Node.copied, hignored, if_neg Bool.false_ne_true, hkeeps]
  obtain ⟨info, span, kind, nameNodes, attributes, value, children⟩ := n
  simp only at hkeeps
  unfold printNode
  simp only [hignored, hkeeps, Bool.false_eq_true, if_false, if_true]
  cases kind with
  | element opener closer =>
    have htag := htidy.tag _ rfl
    refine (breaks_printKept (breaks_printOpening style htag) (endsClean_of_copiedTag htag)
      breaksAs_of_copiedTag _).congr ?_
    simp [Node.copiedTags, Kind.kept?]
  | block name markup opener closer =>
    obtain ⟨hname, hcloser⟩ := htidy.block _ _ _ _ rfl
    obtain ⟨d, rfl⟩ := Option.isSome_iff_exists.1 hcloser
    have hhead := breaks_opener (breaks_printHead style (tagHead (ctx.stringQuote none) name markup)) opener .never
    refine (hhead.around (breaksIf_verbatim style _) (breaks_printEnd style name d)
      (startsInLine_printEnd name d)).congr ?_
    simp [Node.copiedTags, Kind.kept?, hbranched, Text.breaksAs_of_notMem hname]
  | document =>
    have hlaid : info.keepsLayout = false := htidy.document rfl
    rw [hlaid] at hkeeps
    cases hkeeps
  | branch name markup opener => exact htidy.regular.elim
  | _ => cases hbody

/-- A node whose body is laid out, where `C` tells whether the lines of its children end as asked. -/
theorem breaks_printNode_body {C : Prop} (hbody : n.kind.hasBody = true) (hkeeps : n.info.keepsLayout = false)
    (hignored : isIgnored ctx prev = false) (htidy : n.IsTidy ctx prev) (hempty : n.children = [] → C)
    (hchildren : n.isBranched = false → ∀ level separates session,
      ((printSiblings ctx formatter level separates none n.children).run session).1.Breaks style C)
    (hbranches : n.isBranched = true → ∀ level forced skipsFirst session close,
      (printParts close ((printBranches ctx formatter level forced skipsFirst n.children).run session).1).1.Breaks style
        (Copied.AllBreakAs style.lineBreak ((n.children.filterMap (Node.branchHead? ctx)).map .cut) ∧ C))
    (level : Nat) (session : Session) :
    ((printNode ctx formatter level prev n).run session).1.Breaks style (n.BreaksAs ctx style.lineBreak prev ∧ C) := by
  rw [Node.BreaksAs, Node.copied, hignored, if_neg Bool.false_ne_true]
  cases hkind : n.kind with
  | document =>
    have hundivided : n.isBranched = false := by rw [Node.isBranched, hkind]
    have hown : n.copiedTags ctx = [] := by rw [Node.copiedTags, hkind]
    by_cases hnil : n.children = []
    · have hC := hempty hnil
      obtain ⟨info, span, kind, nameNodes, attributes, value, children⟩ := n
      simp only at hkind hnil
      subst hkind hnil
      unfold printNode
      rw [hignored]
      exact (Doc.breaks_nil style).congr (by simp [hown, Kind.kept?, hC])
    · rw [run_printNode_document hignored hkind hnil]
      exact ((hchildren hundivided _ _ _).group.left (Doc.breaks_hardLine style)).congr (by simp [hown, Kind.kept?])
  | element opener closer =>
    have hundivided : n.isBranched = false := by rw [Node.isBranched, hkind]
    have hinner := hchildren hundivided (level + ctx.options.indentWidth) n.separatesChildren session
    have htag := htidy.tag (printName ctx n.name) (by rw [Node.printedName?, hkind]; rfl)
    have hdoc := breaks_printElement ctx (breaks_printOpening style htag) (endsClean_of_copiedTag htag)
      breaksAs_of_copiedTag (n.isForced ctx.source) n.info hinner hempty
    obtain ⟨info, span, kind, nameNodes, attributes, value, children⟩ := n
    simp only at hkind hkeeps
    subst hkind
    unfold printNode
    simp only [hignored, hkeeps, Bool.false_eq_true, if_false]
    exact hdoc.congr (by simp [Node.copiedTags, Kind.kept?])
  | block name markup opener closer =>
    obtain ⟨hname, -⟩ := htidy.block name markup opener closer hkind
    have hdivided : n.isBranched = isBranchedTag name := by rw [Node.isBranched, hkind]
    rw [run_printNode_block hignored hkeeps hkind, blockParts]
    cases hbranched : isBranchedTag name with
    | true =>
      have hparts := hbranches (hdivided.trans hbranched) level (n.isForced ctx.source) n.isDividedCase session .never
      refine (breaks_printBlock opener closer hname hparts).congr ?_
      simp [Node.copiedTags, Kind.kept?, hkind, hdivided, hbranched, hkeeps, and_assoc]
    | false =>
      have hinner := hchildren (hdivided.trans hbranched) (level + ctx.options.indentWidth) n.separatesChildren session
      have hparts := breaks_printParts_single .never (breaks_bodyOf ctx (n.isForced ctx.source) n.info hinner hempty)
      refine (breaks_printBlock opener closer hname hparts).congr ?_
      simp [Node.copiedTags, Kind.kept?, hkind, hdivided, hbranched, hkeeps]
  | branch name markup opener =>
    have hregular := htidy.regular
    rw [Node.Regular, hkind] at hregular
    exact hregular.elim
  | _ =>
    rw [hkind] at hbody
    cases hbody

theorem Node.IsTidy.laysOutChildren (htidy : n.IsTidy ctx prev) (hbody : n.kind.hasBody = true)
    (hkeeps : n.info.keepsLayout = false) (hignored : isIgnored ctx prev = false) :
    n.laysOutChildren ctx prev = true := by
  have hregular := htidy.regular
  unfold Node.Regular at hregular
  unfold Node.laysOutChildren
  cases hkind : n.kind with
  | branch name markup opener =>
    rw [hkind] at hregular
    exact hregular.elim
  | document | element | block => simp [hkeeps, hignored]
  | _ =>
    rw [hkind] at hbody
    cases hbody

/-- **A node's lines end as asked exactly if those of its own texts and of its children do.** -/
theorem breaks_printNode_step (htidy : n.IsTidy ctx prev)
    (hchildren : n.laysOutChildren ctx prev = true → n.isBranched = false → ∀ level separates session,
      ((printSiblings ctx formatter level separates none n.children).run session).1.Breaks style
        (SiblingsLaid ctx (Node.BreaksAs ctx style.lineBreak) none n.children))
    (hbranches : n.laysOutChildren ctx prev = true → n.isBranched = true → ∀ level forced skipsFirst session close,
      (printParts close ((printBranches ctx formatter level forced skipsFirst n.children).run session).1).1.Breaks style
        (Copied.AllBreakAs style.lineBreak ((n.children.filterMap (Node.branchHead? ctx)).map .cut) ∧
          BranchesLaid ctx (Node.BreaksAs ctx style.lineBreak) n.children))
    (level : Nat) (session : Session) : ((printNode ctx formatter level prev n).run session).1.Breaks style
      (n.EveryLaid ctx (Node.BreaksAs ctx style.lineBreak) prev) := by
  -- nothing below the node is laid out, unless its body is
  have hclosed (hshown : n.laysOutChildren ctx prev = false) : n.BreaksAs ctx style.lineBreak prev ↔
      n.EveryLaid ctx (Node.BreaksAs ctx style.lineBreak) prev := by
    simp [Node.everyLaid_iff, hshown]
  cases hignored : isIgnored ctx prev with
  | true =>
    exact (breaks_printNode_ignored hignored htidy level session).congr
      (hclosed (by simp [Node.laysOutChildren, hignored]))
  | false =>
    cases hbody : n.kind.hasBody with
    | false =>
      have hshown : n.laysOutChildren ctx prev = false := by
        cases hkind : n.kind <;> simp [hkind, Kind.hasBody, Node.laysOutChildren] at hbody ⊢
      by_cases hraw : ∃ name markup body opener closer, n.kind = .rawTag name markup body opener closer
      · obtain ⟨name, markup, body, opener, closer, hkind⟩ := hraw
        exact (breaks_printNode_rawTag hkind hignored level session).congr (hclosed hshown)
      · have hraw : ∀ name markup body opener closer, n.kind ≠ .rawTag name markup body opener closer :=
          fun name markup body opener closer hkind => hraw ⟨name, markup, body, opener, closer, hkind⟩
        exact (breaks_printNode_leaf hbody hraw hignored htidy level session).congr (hclosed hshown)
    | true =>
      cases hkeeps : n.info.keepsLayout with
      | true =>
        exact (breaks_printNode_kept hbody hkeeps hignored htidy level session).congr
          (hclosed (by simp [Node.laysOutChildren, hkeeps]))
      | false =>
        have hshown : n.laysOutChildren ctx prev = true := htidy.laysOutChildren hbody hkeeps hignored
        have hiff : n.EveryLaid ctx (Node.BreaksAs ctx style.lineBreak) prev ↔ n.BreaksAs ctx style.lineBreak prev ∧
            if n.isBranched then BranchesLaid ctx (Node.BreaksAs ctx style.lineBreak) n.children
            else SiblingsLaid ctx (Node.BreaksAs ctx style.lineBreak) none n.children := by
          simp only [Node.everyLaid_iff, hshown, true_implies]
        rw [hiff]
        refine breaks_printNode_body hbody hkeeps hignored htidy (fun hnil => ?_) (fun hundivided => ?_)
          (fun hdivided => ?_) level session
        · rw [hnil]
          split <;> trivial
        · rw [hundivided]
          exact hchildren hshown hundivided
        · rw [hdivided]
          exact hbranches hshown hdivided

end

section

variable {style : PageStyle} {ctx : PrintContext} {formatter : CodeFormatter}

theorem breaks_gapBefore (source : List Char) (separates : Bool) (prev : Option (Node Facts)) (n : Node Facts) :
    (match prev with
      | some p => (Gap.between source separates p n).doc
      | none => .nil : Doc).Breaks style True := by
  cases prev with
  | none => exact Doc.breaks_nil style
  | some p => exact breaks_gap style _

theorem allBreakAs_branchHeads {b : LineBreak} {c : Node Facts} {name : Option String} {markup : Markup}
    {opener : Delimiter} (hkind : c.kind = .branch name markup opener) (cs : List (Node Facts)) (body : Body) :
    Copied.AllBreakAs b (((c :: cs).filterMap (Node.branchHead? ctx)).map .cut) ↔
      Copied.AllBreakAs b (Part.copied
        ⟨name.map fun name => (tagHead (ctx.stringQuote none) name markup, opener), body⟩) ∧
        Copied.AllBreakAs b ((cs.filterMap (Node.branchHead? ctx)).map .cut) := by
  cases name with
  | none =>
    have hnone : c.branchHead? ctx = none := by rw [Node.branchHead?, hkind]
    simp [hnone, Part.copied]
  | some name =>
    have hsome : c.branchHead? ctx = some (tagHead (ctx.stringQuote none) name markup) := by
      rw [Node.branchHead?, hkind]
    simp [hsome, Part.copied]

mutual

theorem breaks_printNode (n : Node Facts) {prev : Option (Node Facts)} (htidy : n.EveryLaid ctx (Node.IsTidy ctx) prev)
    (level : Nat) (session : Session) : ((printNode ctx formatter level prev n).run session).1.Breaks style
      (n.EveryLaid ctx (Node.BreaksAs ctx style.lineBreak) prev) := by
  obtain ⟨hown, hbelow⟩ := Node.everyLaid_iff.1 htidy
  obtain ⟨info, span, kind, name, attributes, value, children⟩ := n
  refine breaks_printNode_step hown (fun hshown hundivided => ?_) (fun hshown hdivided => ?_) level session
  · have hchildren := hbelow hshown
    rw [hundivided, if_neg Bool.false_ne_true] at hchildren
    exact breaks_printSiblings children hchildren
  · have hbranches := hbelow hshown
    rw [hdivided, if_pos rfl] at hbranches
    exact breaks_printBranches children hbranches (hown.regular.of_isBranched hdivided).2

theorem breaks_printSiblings (ns : List (Node Facts)) {prev : Option (Node Facts)}
    (htidy : SiblingsLaid ctx (Node.IsTidy ctx) prev ns) (level : Nat) (separates : Bool) (session : Session) :
    ((printSiblings ctx formatter level separates prev ns).run session).1.Breaks style
      (SiblingsLaid ctx (Node.BreaksAs ctx style.lineBreak) prev ns) := by
  cases ns with
  | nil => exact Doc.breaks_nil style
  | cons n ns =>
    rw [run_printSiblings_cons]
    exact ((breaks_printNode n htidy.1 level session).right (breaks_gapBefore ctx.source separates prev n)).append
      (breaks_printSiblings ns htidy.2 level separates _)

theorem breaks_printBranches (bs : List (Node Facts)) (htidy : BranchesLaid ctx (Node.IsTidy ctx) bs)
    (hbs : ∀ b ∈ bs, ∃ name markup opener, b.kind = .branch name markup opener) (level : Nat) (forced skipsFirst : Bool)
    (session : Session) (close : AddedTrim) :
    (printParts close ((printBranches ctx formatter level forced skipsFirst bs).run session).1).1.Breaks style
      (Copied.AllBreakAs style.lineBreak ((bs.filterMap (Node.branchHead? ctx)).map .cut) ∧
        BranchesLaid ctx (Node.BreaksAs ctx style.lineBreak) bs) := by
  cases bs with
  | nil => exact (Doc.breaks_nil style).congr (by simp [BranchesLaid])
  | cons b bs =>
    obtain ⟨⟨name, markup, opener, hkind⟩, hrest⟩ := List.forall_mem_cons.1 hbs
    obtain ⟨later, hrun⟩ := run_printBranches_branch ctx formatter level hkind forced skipsFirst bs session
    obtain ⟨hchildren, hbranches⟩ := (branchesLaid_cons_iff hkind bs).1 htidy
    rw [hrun, branchesLaid_cons_iff hkind]
    obtain ⟨info, span, kind, nameNodes, attributes, value, children⟩ := b
    have hinner := breaks_printSiblings children hchildren (level + ctx.options.indentWidth) false session
    have hbody := breaks_branchBody ctx forced skipsFirst
      (b := ⟨info, span, kind, nameNodes, attributes, value, children⟩) hinner (by rintro rfl; trivial)
    have hlater := breaks_printBranches bs hbranches hrest level forced false later
    refine (breaks_printParts_cons close hbody (hlater _)).congr ?_
    rw [allBreakAs_branchHeads hkind]
    tauto

end

end

/-! ## Nodes of a template -/

theorem Token.literalName?_of_leafKind? {t : Token} {name : String}
    (h : t.leafKind? = some (.voidElement name) ∨
      ∃ body opener closer, t.leafKind? = some (.rawElement name body opener closer)) : t.literalName? = some name := by
  rcases h with h | ⟨body, opener, closer, h⟩
  · cases isLeaf_of_leafKind? h
    rfl
  · cases isLeaf_of_leafKind? h
    rfl

namespace Node

variable {ctx : PrintContext} {s : Sensitivity} {k : Node Unit} {n : Node Facts}

theorem Annotates.keepsLayout_document (hn : k.Annotates s ctx.source n) (hkind : n.kind = .document) :
    n.info.keepsLayout = false := by
  rw [hn.keepsLayout, whiteSpace, ← hn.kind, hkind]
  rfl

theorem DerivedFrom.exists_leaf {Q : Token → Prop} (h : k.DerivedFrom Q) (hn : k.Annotates s ctx.source n)
    (hbody : n.kind.hasBody = false) : ∃ t, Q t ∧ t.leafKind? = some n.kind := by
  rw [hn.kind] at hbody ⊢
  exact h.standsFor.leaf hbody

theorem DerivedFrom.allEndClean_tag (h : k.DerivedFrom (Token.Tidy ctx.source)) (hn : k.Annotates s ctx.source n)
    {name : String} (hname : name ∈ n.printedName? ctx) : Copied.AllEndClean (copiedTag ctx name n.attributes) := by
  have hprinted : Text.EndsClean (printName ctx n.name).toList := by
    refine endsClean_printName ?_
    rw [hn.inlineList_name]
    exact h.endsClean_name ctx none
  have hliteral {literal : String} (hkind : n.kind = .voidElement literal ∨
      ∃ body opener closer, n.kind = .rawElement literal body opener closer) :
      Text.EndsClean (Text.lower literal).toList := by
    have hbody : n.kind.hasBody = false := by
      rcases hkind with hkind | ⟨body, opener, closer, hkind⟩ <;> rw [hkind] <;> rfl
    obtain ⟨t, ht, hleaf⟩ := h.exists_leaf hn hbody
    have hname : t.literalName? = some literal := by
      refine Token.literalName?_of_leafKind? ?_
      rcases hkind with hkind | ⟨body, opener, closer, hkind⟩
      · exact .inl (hkind ▸ hleaf)
      · exact .inr ⟨body, opener, closer, hkind ▸ hleaf⟩
    exact Text.endsClean_of_notMem (Text.notMem_return_lower (ht.everywhere.here.literal _ hname))
  refine List.forall_mem_cons.2 ⟨?_, allEndClean_copiedItems hn.attributes h.attributes none⟩
  unfold printedName? at hname
  split at hname <;> cases hname
  · exact hprinted
  · exact hprinted
  next hkind => exact hliteral (.inl hkind)
  next hkind => exact hliteral (.inr ⟨_, _, _, hkind⟩)

theorem DerivedFrom.endsClean_attr (h : k.DerivedFrom (Token.Tidy ctx.source)) (hn : k.Annotates s ctx.source n)
    (hattr : n.isAttribute = true) : Text.EndsClean (n.inline ctx none).toList := by
  rw [hn.inline_eq]
  rw [isAttribute, hn.kind] at hattr
  obtain ⟨ts, hts, h⟩ := h
  cases h with
  | @leaf t kind name attributes value isLeaf names =>
    have ht := hts t (List.mem_singleton_self _)
    cases t with
    | attr span style nameTokens valueTokens =>
      cases isLeaf
      exact endsClean_inline_attr names ht.everywhere.here.name none
    | tag => obtain ⟨-, hkind⟩ := Option.ite_none_left_eq_some.1 isLeaf; cases hkind; cases hattr
    | _ => cases isLeaf <;> cases hattr
  | element | block | branched => cases hattr

theorem DerivedFrom.isTidy (h : k.DerivedFrom (Token.Tidy ctx.source)) (hn : k.Annotates s ctx.source n)
    (hregular : n.Regular) (prev : Option (Node Facts)) : n.IsTidy ctx prev where
  regular := hregular
  document hkind := hn.keepsLayout_document hkind
  ignored _ := by
    rw [hn.span]
    exact h.endsClean_slice fun t ht => ht.stops
  tag name hname := h.allEndClean_tag hn hname
  drop written v d hkind := by
    obtain ⟨t, ht, hleaf⟩ := h.exists_leaf hn (by rw [hkind]; rfl)
    rw [hkind] at hleaf
    obtain rfl : t = .drop d written (.value v) := by
      cases Token.isLeaf_of_leafKind? hleaf
      rfl
    exact Filtered.Spelled.allEndClean ht.spelled _
  statements name lines opener hkind := by
    obtain ⟨t, ht, hleaf⟩ := h.exists_leaf hn (by rw [hkind]; rfl)
    rw [hkind] at hleaf
    obtain rfl := Token.tag_of_leafKind? hleaf
    rcases ht.spelled with ⟨text, htext⟩ | hspelled
    · cases htext
    · exact hspelled.2
  block name markup opener closer hkind := by
    rw [hn.kind] at hkind
    obtain ⟨d, rfl⟩ := h.isDerived.closed hkind
    exact ⟨(h.standsFor.block _ _ _ _ hkind).everywhere.here.block _ _ _ rfl, rfl⟩
  attr hattr := h.endsClean_attr hn hattr

theorem isTidy_root (hkind : n.kind = .document) (hn : k.Annotates s ctx.source n) (hregular : n.Regular) :
    n.IsTidy ctx none where
  regular := hregular
  document := hn.keepsLayout_document
  ignored := nofun
  tag name hname := by
    rw [printedName?, hkind] at hname
    cases hname
  drop written v d hdrop := by
    rw [hkind] at hdrop
    cases hdrop
  statements name lines opener htag := by
    rw [hkind] at htag
    cases htag
  block name markup opener closer hblock := by
    rw [hkind] at hblock
    cases hblock
  attr hattr := by
    rw [isAttribute, hkind] at hattr
    cases hattr

end Node

/-- **What is laid out in a template is tidy.** -/
theorem LaidOut.isTidy {source : String} {d : Document Unit} {o : Options} {prev : Option (Node Facts)} {n : Node Facts}
    (hparse : Document.parse source = .ok d)
    (h : LaidOut ⟨source.toList, o⟩ (d.annotate o.sensitivity).root prev n) : n.IsTidy ⟨source.toList, o⟩ prev := by
  have hregular := h.regular hparse
  have hroot := Document.annotates_root o.sensitivity d
  rw [source_of_parse hparse] at hroot
  have harranged := through_arranged_of_parse hparse
  have hkind := kind_root_of_parse hparse
  obtain ⟨tokens, htokens⟩ := ofSource_of_parse hparse
  obtain ⟨nodes, hderives, rfl⟩ := derives_of_parse htokens hparse
  have hnodes := hderives.through_derivedFrom (Token.tidy_of_ofSource htokens)
  have hbelow : ∀ c ∈ nodes, c.Through fun k => k.Arranged ∧
      (k.isBranch = false → k.DerivedFrom (Token.Tidy source.toList)) :=
    fun c hc => (harranged.inside c hc).and (hnodes c hc)
  rcases h.root_or_below harranged.own hbelow (fun _ hk => hk.1) hroot with ⟨rfl, rfl⟩ | ⟨k, hk, hbranch, hkn⟩
  · exact Node.isTidy_root (hroot.kind.trans hkind) hroot hregular
  · exact (hk.own.2 hbranch).isTidy hkn hregular prev

/-! ## Formatted templates -/

/-- **The lines of a formatted template end as asked exactly if those of the texts that it is printed from do.** All
line breaks that formatting adds are those of the option. A text that is cut into lines gets them as well, unless it has
two carriage returns at the end of a line, and a text that is written as a whole keeps the line ends of the source. -/
theorem format_lineEnds {o : Options} {formatter : CodeFormatter} {source t : String} {d : Document Unit}
    (hparse : Document.parse source = .ok d) (hfile : d.isIgnored o = false)
    (hformat : (format o formatter source).1 = .ok t) :
    Text.BreaksAs o.lineBreak t.toList ↔
      ∀ prev n, LaidOut ⟨source.toList, o⟩ (d.annotate o.sensitivity).root prev n →
        n.BreaksAs ⟨source.toList, o⟩ o.lineBreak prev := by
  have hpage : t = (((printNode ⟨source.toList, o⟩ formatter 0 none (d.annotate o.sensitivity).root).run {}).1).render
      o.pageStyle := by
    rw [format_eq_ok hparse hfile hformat, Document.print, Document.annotate, source_of_parse hparse]
  have htidy : (d.annotate o.sensitivity).root.EveryLaid ⟨source.toList, o⟩ (Node.IsTidy ⟨source.toList, o⟩) none :=
    everyLaid_root_iff.2 fun prev n hn => hn.isTidy hparse
  have hbreaks := @breaks_printNode o.pageStyle ⟨source.toList, o⟩ formatter _ none htidy 0 {}
  rw [← everyLaid_root_iff, hpage]
  exact hbreaks.render

/-- The head of a tag and a comment are cut into lines. -/
theorem lineEnds_of_cut_texts :
    ∃ (d : Document Unit) (t : String),
      Document.parse "\x7b% if a\nb %\x7d<!--x\ny-->\x7b% endif %\x7d" = .ok d ∧
      (format { lineBreak := .crlf } .identity "\x7b% if a\nb %\x7d<!--x\ny-->\x7b% endif %\x7d").1 = .ok t ∧
      t = "\x7b% if a\r\nb -%\x7d\r\n  <!--x\r\ny-->\r\n\x7b%- endif %\x7d\r\n" ∧
      ∀ prev n, LaidOut ⟨"\x7b% if a\nb %\x7d<!--x\ny-->\x7b% endif %\x7d".toList, { lineBreak := .crlf }⟩
        (d.annotate .css).root prev n → n.BreaksAs
          ⟨"\x7b% if a\nb %\x7d<!--x\ny-->\x7b% endif %\x7d".toList, { lineBreak := .crlf }⟩ .crlf prev := by
  obtain ⟨t, hformat, ht⟩ :=
    @exists_eq_ok _ _ (format { lineBreak := .crlf } .identity "\x7b% if a\nb %\x7d<!--x\ny-->\x7b% endif %\x7d").1
      (fun t => t = "\x7b% if a\r\nb -%\x7d\r\n  <!--x\r\ny-->\r\n\x7b%- endif %\x7d\r\n") (by decide +kernel)
  obtain ⟨d, hparse, hd⟩ :=
    @exists_eq_ok _ _ (Document.parse "\x7b% if a\nb %\x7d<!--x\ny-->\x7b% endif %\x7d")
      (fun d => !d.isIgnored { lineBreak := .crlf }) (by decide +kernel)
  have ht := of_decide_eq_true ht
  refine ⟨d, t, hparse, hformat, ht, (format_lineEnds hparse (by simpa using hd) hformat).1 ?_⟩
  rw [ht]
  decide +kernel

/-- The head of a raw tag is written as a whole: its line feed stays as it is. -/
theorem line_feed_in_raw_tag :
    ∃ t, (format { lineBreak := .crlf } .identity "\x7b% raw a\nb %\x7dx\x7b% endraw %\x7d").1 = .ok t ∧
      t = "\x7b% raw a\nb %\x7dx\x7b% endraw %\x7d\r\n" ∧ ¬ Text.BreaksAs .crlf t.toList := by
  obtain ⟨t, hformat, ht⟩ :=
    @exists_eq_ok _ _ (format { lineBreak := .crlf } .identity "\x7b% raw a\nb %\x7dx\x7b% endraw %\x7d").1
      (fun t => t = "\x7b% raw a\nb %\x7dx\x7b% endraw %\x7d\r\n") (by decide +kernel)
  have ht := of_decide_eq_true ht
  refine ⟨t, hformat, ht, ?_⟩
  rw [ht]
  decide +kernel

end LiquidTemplate
