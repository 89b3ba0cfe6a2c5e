import LiquidTemplate.Format
import LiquidTemplate.Proofs.Grammar.Bodies
import LiquidTemplate.Proofs.Layout.Shown
import LiquidTemplate.Proofs.Print.Lineage
import LiquidTemplate.Proofs.Print.Placed
import LiquidTemplate.Proofs.Print.TrimMarkers
import LiquidTemplate.Proofs.Text.Lines
import LiquidTemplate.Proofs.Text.Slices

/-!
# Parts of a template that are kept

Some parts of a template are copied as they stand: nodes that are ignored, comments, front matter, bodies in which
white space counts, and code that must keep its own. `Document.kept` lists them. They stand in the formatted template
unchanged and in the same order, wherever they are and whatever is around them (`format_kept`).
-/

namespace LiquidTemplate

/-! ## The parts -/

/-- Code that is copied although it is not blank. -/
def RawBody.isCopied (body : RawBody) : Bool :=
  !Text.isAllWhiteSpace body.slice.text && body.isVerbatim

/-- The text that a node of a kind copies from the template. -/
def Kind.kept? (source : List Char) (span : Span) (keepsLayout : Bool) : Kind → Option String
  | .comment body | .frontMatter body => some body
  | .element opener closer => if keepsLayout then some (Text.slice source ⟨opener.stop, closer.start⟩) else none
  | .block _ _ opener closer =>
    if keepsLayout then some (Text.slice source ⟨opener.span.stop, (closer.map (·.span.start)).getD span.stop⟩)
    else none
  | .rawElement _ body _ _ => if body.isCopied then some body.slice.text else none
  | .rawTag _ _ body _ _ => if body.kind = .text || body.isCopied then some body.slice.text else none
  | _ => none

/-- The text that a node copies: all of it if it is ignored. -/
def Spot.kept? (o : Options) (source : List Char) (s : Spot) : Option String :=
  if s.isIgnored o then some (Text.slice source s.node.span)
  else s.node.kind.kept? source s.node.span s.node.whiteSpace.isPreLike

/-- A node copies nothing itself, so that its children are looked at. -/
def Spot.isOpen (o : Options) (source : List Char) (s : Spot) : Bool :=
  (s.kept? o source).isNone

/-- The texts that nodes copy, outermost first and no more inside of them. -/
def keptOf (o : Options) (source : List Char) (lineages : List Lineage) : List String :=
  lineages.filterMap (Lineage.pick (Spot.isOpen o source) fun _ s => s.kept? o source)

/-- The parts of a template that are copied, in the order of the template. -/
def Document.kept (o : Options) (d : Document Unit) : List String :=
  keptOf o d.source.toList (d.root.lineages [] none)

/-! ## Copying a text -/

section

variable {style : PageStyle} {vs : List String}

theorem shows_verbatim (hbreak : style.lineBreak = .lf) {s : String} (h : '\r' ∉ s.toList) :
    (verbatim s).Shows style [s] := by
  intro indent flat t ht
  rw [layout_lines ht, hbreak, LineBreak.text, Text.intercalate_rawLines h]
  simpa using @Text.StandIn.cons "" s "" [] .nil

theorem shows_slice (hbreak : style.lineBreak = .lf) {source : List Char} (h : '\r' ∉ source) (span : Span) :
    (verbatim (Text.slice source span)).Shows style [Text.slice source span] := by
  refine shows_verbatim hbreak fun hmem => h ?_
  rw [Text.slice, String.toList_ofList] at hmem
  exact Text.sliceChars_subset source span hmem

/-! ## Bodies and parts -/

theorem shows_bodyOf {ctx : PrintContext} {inner : Doc} (forced : Bool) (container : Facts)
    {children : List (Node Facts)} (h : inner.Shows style vs) (hempty : children = [] → vs = []) :
    ((bodyOf ctx forced container children inner).doc).Shows style vs := by
  cases children with
  | nil =>
    rw [hempty rfl]
    exact Doc.shows_nil style _
  | cons first rest =>
    rw [bodyOf, List.head?_cons, List.getLast?_cons]
    exact (h.right _).nest _

theorem shows_printElement {ctx : PrintContext} {inner : Doc} (opening : Doc × AttributeLayout) (name : String)
    (forced : Bool) (container : Facts) {children : List (Node Facts)} (h : inner.Shows style vs)
    (hempty : children = [] → vs = []) :
    (printElement ctx opening name forced container children inner).Shows style vs := by
  cases children with
  | nil =>
    rw [hempty rfl]
    exact Doc.shows_nil style _
  | cons first rest =>
    rw [printElement, List.head?_cons, List.getLast?_cons]
    exact ((((h.right _).left _).nest _).right _).left _ |>.group

theorem shows_printParts_cons {close : AddedTrim} {part : Part} {parts : List Part} {us : List String}
    (h : part.body.doc.Shows style vs) (hparts : (printParts part.body.closeTrim parts).1.Shows style us) :
    (printParts close (part :: parts)).1.Shows style (vs ++ us) :=
  Doc.Shows.append ((h.right _).left _) hparts

theorem shows_printBlock {name head : String} {opener : Delimiter} {closer : Option Delimiter} {parts : List Part}
    (h : (printParts .never parts).1.Shows style vs) : (printBlock name head opener closer parts).Shows style vs := by
  cases closer with
  | some d => exact (((((h.right _).left _).left _).left _).group.right _).left _ |>.left _
  | none => exact ((h.right _).group).right _

end

/-! ## What trees copy -/

/-- The texts in a node that are not read any further. -/
def Kind.bodies : Kind → List String
  | .comment body | .frontMatter body => [body]
  | .rawElement _ body _ _ | .rawTag _ _ body _ _ => [body.slice.text]
  | _ => []

def Node.IsClean (n : Node Unit) : Prop :=
  ∀ body ∈ n.kind.bodies, '\r' ∉ body.toList

theorem bodies_of_leafKind? {t : Token} {kind : Kind} (h : t.leafKind? = some kind) : kind.bodies = t.bodies := by
  cases Token.isLeaf_of_leafKind? h <;> rfl

theorem isClean_of_leafOf {n : Node Unit} (h : n.LeafOf fun t => ∀ body ∈ t.bodies, '\r' ∉ body.toList) :
    n.IsClean := by
  by_cases hbody : n.kind.hasBody = false
  · obtain ⟨t, ht, hleaf⟩ := h hbody
    rw [Node.IsClean, bodies_of_leafKind? hleaf]
    exact ht
  · intro body hmem
    cases hkind : n.kind <;> simp [hkind, Kind.hasBody, Kind.bodies] at hbody hmem

section

variable {o : Options} {source : List Char} {outer : Lineage} {prev : Option (Node Unit)} {n : Node Unit}

theorem keptOf_copied (h : outer.all (Spot.isOpen o source) = true) {v : String}
    (hv : Spot.kept? o source ⟨prev, n⟩ = some v) : keptOf o source (n.lineages outer prev) = [v] := by
  rw [keptOf, filterMap_lineages prev n h, Spot.isOpen, hv]
  rfl

theorem keptOf_open (h : outer.all (Spot.isOpen o source) = true) (hnone : Spot.kept? o source ⟨prev, n⟩ = none) :
    keptOf o source (n.lineages outer prev) =
      keptOf o source (Node.lineagesOf (⟨prev, n⟩ :: outer) none n.children) := by
  rw [keptOf, filterMap_lineages prev n h, Spot.isOpen, hnone]
  rfl

theorem keptOf_cons (n : Node Unit) (ns : List (Node Unit)) :
    keptOf o source (Node.lineagesOf outer prev (n :: ns)) =
      keptOf o source (n.lineages outer prev) ++ keptOf o source (Node.lineagesOf outer (some n) ns) :=
  filterMap_lineagesOf_cons prev n ns

end

/-! ## Printing copies these texts -/

section

open Node

variable {style : PageStyle} {s : Sensitivity} {source : List Char} {ctx : PrintContext} {formatter : CodeFormatter}

/-- Printing nodes one after the other shows what they copy. -/
def CopiesAll (style : PageStyle) (ctx : PrintContext) (formatter : CodeFormatter) (outer : Lineage)
    (ms : List (Node Unit)) (ns : List (Node Facts)) : Prop :=
  ∀ (level : Nat) (separates : Bool) (session : Session),
    ((printSiblings ctx formatter level separates none ns).run session).1.Shows style
      (keptOf ctx.options ctx.source (lineagesOf outer none ms))

def BranchesCopyAll (style : PageStyle) (ctx : PrintContext) (formatter : CodeFormatter) (outer : Lineage)
    (ms : List (Node Unit)) (ns : List (Node Facts)) : Prop :=
  ∀ (level : Nat) (forced skipsFirst : Bool) (session : Session) (close : AddedTrim),
    (printParts close ((printBranches ctx formatter level forced skipsFirst ns).run session).1).1.Shows style
      (keptOf ctx.options ctx.source (lineagesOf outer none ms))

section

variable {m : Node Unit} {n : Node Facts} {prev : Option (Node Unit)} {before : Option (Node Facts)} {outer : Lineage}

theorem shows_printCode (hbreak : style.lineBreak = .lf) {body : RawBody} (hclean : '\r' ∉ body.slice.text.toList)
    (level : Nat) (indents : Bool) (session : Session) :
    ((printCode ctx formatter level indents body).run session).1.Shows style
      (if body.isCopied then [body.slice.text] else []) := by
  unfold printCode RawBody.isCopied
  by_cases hblank : Text.isAllWhiteSpace body.slice.text = true
  · simp only [hblank, Bool.not_true, Bool.false_and, Bool.false_eq_true, if_false]
    exact Doc.shows_nil style _
  by_cases hverbatim : body.isVerbatim = true
  · simp only [hblank, hverbatim, Bool.not_false, Bool.and_self, Bool.false_eq_true, if_false, if_true]
    exact shows_verbatim hbreak hclean
  · simp only [hverbatim, Bool.and_false, Bool.false_eq_true, if_false]
    exact Doc.shows_nil style _

theorem shows_printNode_leaf (hbreak : style.lineBreak = .lf) (hignored : isIgnored ctx before = false)
    (hclean : ∀ body ∈ n.kind.bodies, '\r' ∉ body.toList) (hleaf : n.kind.hasBody = false) (level : Nat)
    (session : Session) :
    ((printNode ctx formatter level before n).run session).1.Shows style
      (n.kind.kept? ctx.source n.span n.info.keepsLayout).toList := by
  obtain ⟨info, span, kind, name, attributes, value, children⟩ := n
  unfold printNode
  simp only [hignored, Bool.false_eq_true, if_false]
  cases kind with
  | document | element | block | branch => cases hleaf
  | comment body | frontMatter body =>
    have hbody := hclean body (List.mem_singleton_self _)
    exact ((shows_verbatim hbreak hbody).right _).left _
  | rawElement elementName body opener closer =>
    have hbody := hclean body.slice.text (List.mem_singleton_self _)
    have hcode := @shows_printCode style ctx formatter hbreak body hbody level
      (indentsElement ctx.options (Text.lower elementName)) session
    by_cases hcopied : body.isCopied = true
    · simp only [Kind.kept?, hcopied, if_true] at hcode ⊢
      exact (hcode.right _).left _
    · simp only [Kind.kept?, hcopied]
      exact Doc.shows_nil style _
  | rawTag tagName markup body opener closer =>
    have hbody := hclean body.slice.text (List.mem_singleton_self _)
    by_cases htext : body.kind = .text
    · simp only [Kind.kept?, htext, if_true, decide_true, Bool.true_or]
      exact ((shows_verbatim hbreak hbody).right _).left _
    have hcode := @shows_printCode style ctx formatter hbreak body hbody level (indentsTag ctx.options tagName) session
    by_cases hcopied : body.isCopied = true
    · simp only [Kind.kept?, htext, hcopied, if_true, if_false, Bool.or_true] at hcode ⊢
      exact (hcode.right _).left _
    · simp only [Kind.kept?, htext, hcopied]
      exact Doc.shows_nil style _
  | _ => exact Doc.shows_nil style _

theorem shows_printNode_kept (hbreak : style.lineBreak = .lf) (hsource : '\r' ∉ ctx.source)
    (hignored : isIgnored ctx before = false) (hbody : n.kind.hasBody = true) {v : String}
    (hv : n.kind.kept? ctx.source n.span n.info.keepsLayout = some v) (level : Nat) (session : Session) :
    ((printNode ctx formatter level before n).run session).1.Shows style [v] := by
  obtain ⟨info, span, kind, name, attributes, value, children⟩ := n
  unfold printNode
  simp only at hv
  simp only [hignored, Bool.false_eq_true, if_false]
  cases kind with
  | element opener closer =>
    obtain ⟨hkeeps, hv⟩ := Option.ite_none_right_eq_some.1 hv
    cases hv
    simp only [hkeeps, if_true]
    exact (((shows_slice hbreak hsource _).right _).left _).left _
  | block tagName markup opener closer =>
    obtain ⟨hkeeps, hv⟩ := Option.ite_none_right_eq_some.1 hv
    cases hv
    simp only [hkeeps, if_true]
    exact ((shows_slice hbreak hsource _).right _).left _
  | document | branch => cases hv
  | _ => cases hbody

theorem shows_printNode_body {vs : List String} (hignored : isIgnored ctx before = false)
    (hbody : n.kind.hasBody = true) (hbranch : ∀ name markup opener, n.kind ≠ .branch name markup opener)
    (hv : n.kind.kept? ctx.source n.span n.info.keepsLayout = none) (hempty : n.children = [] → vs = [])
    (hchildren : n.kind.isDivided = false → ∀ level separates session,
      ((printSiblings ctx formatter level separates none n.children).run session).1.Shows style vs)
    (hbranches : n.kind.isDivided = true → ∀ level forced skipsFirst session close,
      (printParts close ((printBranches ctx formatter level forced skipsFirst n.children).run session).1).1.Shows
        style vs)
    (level : Nat) (session : Session) : ((printNode ctx formatter level before n).run session).1.Shows style vs := by
  cases hkind : n.kind with
  | document =>
    by_cases hnil : n.children = []
    · rw [hempty hnil]
      exact Doc.shows_nil style _
    · rw [run_printNode_document hignored hkind hnil]
      exact (hchildren (by rw [hkind]; rfl) _ _ _).group.left _
  | element opener closer =>
    have hkeeps : n.info.keepsLayout = false := by simpa [hkind, Kind.kept?] using hv
    obtain ⟨opening, name, hrun⟩ := run_printNode_element hignored hkeeps hkind session
    rw [hrun]
    exact shows_printElement _ _ _ _ (hchildren (by rw [hkind]; rfl) _ _ _) hempty
  | block name markup opener closer =>
    have hkeeps : n.info.keepsLayout = false := by simpa [hkind, Kind.kept?] using hv
    rw [run_printNode_block hignored hkeeps hkind, blockParts]
    refine shows_printBlock ?_
    by_cases hdivided : isBranchedTag name = true
    · rw [if_pos hdivided]
      exact hbranches (by rw [hkind]; exact hdivided) _ _ _ _ _
    · rw [if_neg hdivided]
      have hinner := hchildren (by rw [hkind]; exact Bool.eq_false_iff.2 hdivided)
      simpa using shows_printParts_cons (shows_bodyOf _ _ (hinner _ _ _) hempty) (Doc.shows_nil style _)
  | branch name markup opener => exact absurd hkind (hbranch name markup opener)
  | _ =>
    rw [hkind] at hbody
    cases hbody

theorem keptOf_eq_nil (hn : m.Annotates s source n) (o : Options) (chars : List Char) (outer : Lineage)
    (hnil : n.children = []) : keptOf o chars (lineagesOf outer none m.children) = [] := by
  have hbelow := hn.children
  rw [hnil, List.forall₂_nil_right_iff] at hbelow
  rw [hbelow]
  rfl

/-- **A node shows what is copied in it** if its children do. -/
theorem shows_printNode_step (hbreak : style.lineBreak = .lf) (hsource : '\r' ∉ ctx.source)
    (hn : m.Annotates s source n) (hprev : Option.Rel (Annotates s source) prev before) (harranged : m.Arranged)
    (hclean : m.IsClean) (hbranch : m.isBranch = false)
    (hopen : outer.all (Spot.isOpen ctx.options ctx.source) = true)
    (hchildren : m.kind.isDivided = false → Spot.isOpen ctx.options ctx.source ⟨prev, m⟩ = true →
      CopiesAll style ctx formatter (⟨prev, m⟩ :: outer) m.children n.children)
    (hbranches : m.kind.isDivided = true → Spot.isOpen ctx.options ctx.source ⟨prev, m⟩ = true →
      BranchesCopyAll style ctx formatter (⟨prev, m⟩ :: outer) m.children n.children)
    (level : Nat) (session : Session) :
    ((printNode ctx formatter level before n).run session).1.Shows style
      (keptOf ctx.options ctx.source (m.lineages outer prev)) := by
  have hignored := isIgnored_eq ctx hprev m
  by_cases hleft : isIgnored ctx before = true
  · have hspot := hignored.symm.trans hleft
    rw [keptOf_copied hopen (v := Text.slice ctx.source m.span) (by rw [Spot.kept?, if_pos hspot]), ← hn.span]
    cases n
    unfold printNode
    rw [if_pos hleft]
    exact shows_slice hbreak hsource _
  have hleft : isIgnored ctx before = false := Bool.eq_false_iff.2 hleft
  have hkept : Spot.kept? ctx.options ctx.source ⟨prev, m⟩ = n.kind.kept? ctx.source n.span n.info.keepsLayout := by
    rw [Spot.kept?, ← hignored, hleft, hn.kind, hn.span, hn.keepsLayout]
    rfl
  by_cases hbody : m.kind.hasBody = false
  · have hshows : ((printNode ctx formatter level before n).run session).1.Shows style _ :=
      shows_printNode_leaf hbreak hleft (hn.kind ▸ hclean) (hn.kind ▸ hbody) level session
    rw [← hkept] at hshows
    cases hv : Spot.kept? ctx.options ctx.source ⟨prev, m⟩ with
    | some v =>
      rw [hv] at hshows
      rw [keptOf_copied hopen hv]
      exact hshows
    | none =>
      rw [keptOf_open hopen hv, harranged.childless hbody]
      exact Doc.shows_nil style _
  have hbody : m.kind.hasBody = true := by simpa using hbody
  cases hv : Spot.kept? ctx.options ctx.source ⟨prev, m⟩ with
  | some v =>
    rw [keptOf_copied hopen hv]
    exact shows_printNode_kept hbreak hsource hleft (hn.kind ▸ hbody) (hkept ▸ hv) level session
  | none =>
    have hspot : Spot.isOpen ctx.options ctx.source ⟨prev, m⟩ = true := by rw [Spot.isOpen, hv]; rfl
    rw [keptOf_open hopen hv]
    refine shows_printNode_body hleft (hn.kind ▸ hbody) ?_ (hkept ▸ hv) ?_
      (fun h => hchildren (hn.kind ▸ h) hspot) (fun h => hbranches (hn.kind ▸ h) hspot) level session
    · intro name markup opener hkind
      rw [isBranch, ← hn.kind, hkind] at hbranch
      cases hbranch
    · exact keptOf_eq_nil hn _ _ _

theorem shows_branchBody {vs : List String} {inner : Doc} (forced skipped : Bool) (h : inner.Shows style vs)
    (hempty : n.children = [] → vs = []) : (branchBody ctx forced skipped n inner).doc.Shows style vs := by
  unfold branchBody
  split
  next hskipped =>
    rw [hempty (List.isEmpty_iff.1 (Bool.and_eq_true_iff.1 hskipped).2)]
    exact Doc.shows_nil style _
  next => exact shows_bodyOf forced n.info h hempty

theorem isOpen_branch (o : Options) (source : List Char) (hprev : ∀ p ∈ prev, p.isBranch = true)
    (hm : m.isBranch = true) :
    Spot.kept? o source ⟨prev, m⟩ = none := by
  obtain ⟨name, markup, opener, hkind⟩ := exists_of_isBranch hm
  rw [Spot.kept?, isIgnored_branch hprev, hkind]
  rfl

end

mutual

theorem shows_printNode (hbreak : style.lineBreak = .lf) (hsource : '\r' ∉ ctx.source) (m : Node Unit) {n : Node Facts}
    {prev : Option (Node Unit)} {before : Option (Node Facts)} {outer : Lineage} (hn : m.Annotates s ctx.source n)
    (hprev : Option.Rel (Annotates s ctx.source) prev before) (harranged : ∀ k ∈ m.preorder, k.Arranged)
    (hclean : m.Through IsClean) (hbranch : m.isBranch = false)
    (hopen : outer.all (Spot.isOpen ctx.options ctx.source) = true) (level : Nat) (session : Session) :
    ((printNode ctx formatter level before n).run session).1.Shows style
      (keptOf ctx.options ctx.source (m.lineages outer prev)) := by
  have hhere := harranged m (mem_preorder.2 (.inl rfl))
  have hbelow := hn.children
  have hinside := hclean.inside
  obtain ⟨_, mspan, mkind, mname, mattributes, mvalue, mchildren⟩ := m
  rw [preorder] at harranged
  have hrest := (List.forall_mem_append.1 (List.forall_mem_cons.1 harranged).2).2
  have hinner (h : Spot.isOpen ctx.options ctx.source
      ⟨prev, ⟨(), mspan, mkind, mname, mattributes, mvalue, mchildren⟩⟩ = true) := Bool.and_eq_true_iff.2 ⟨h, hopen⟩
  exact shows_printNode_step hbreak hsource hn hprev hhere hclean.own hbranch hopen
    (fun h hspot => shows_printSiblings hbreak hsource mchildren hbelow .none hrest hinside (hhere.undivided h)
      (hinner hspot))
    (fun h hspot => shows_printBranches hbreak hsource mchildren hbelow nofun hrest hinside (hhere.divided h)
      (hinner hspot)) level session

theorem shows_printSiblings (hbreak : style.lineBreak = .lf) (hsource : '\r' ∉ ctx.source) (ms : List (Node Unit))
    {ns : List (Node Facts)} {prev : Option (Node Unit)} {before : Option (Node Facts)} {outer : Lineage}
    (hns : List.Forall₂ (Annotates s ctx.source) ms ns) (hprev : Option.Rel (Annotates s ctx.source) prev before)
    (harranged : ∀ k ∈ preorderOf ms, k.Arranged) (hclean : ∀ m ∈ ms, m.Through IsClean)
    (hbranch : ∀ m ∈ ms, m.isBranch = false) (hopen : outer.all (Spot.isOpen ctx.options ctx.source) = true)
    (level : Nat) (separates : Bool) (session : Session) :
    ((printSiblings ctx formatter level separates before ns).run session).1.Shows style
      (keptOf ctx.options ctx.source (lineagesOf outer prev ms)) := by
  cases hns with
  | nil => exact Doc.shows_nil style _
  | @cons m n ms ns hn hns =>
    obtain ⟨hm, hms⟩ := List.forall_mem_cons.1 hbranch
    obtain ⟨hfirst, hrest⟩ := List.forall_mem_append.1 harranged
    obtain ⟨hclean, hcleans⟩ := List.forall_mem_cons.1 hclean
    rw [keptOf_cons, run_printSiblings_cons]
    exact Doc.Shows.append ((shows_printNode hbreak hsource m hn hprev hfirst hclean hm hopen level session).right _)
      (shows_printSiblings hbreak hsource ms hns (.some hn) hrest hcleans hms hopen level separates _)

theorem shows_printBranches (hbreak : style.lineBreak = .lf) (hsource : '\r' ∉ ctx.source) (ms : List (Node Unit))
    {ns : List (Node Facts)} {prev : Option (Node Unit)} {outer : Lineage}
    (hns : List.Forall₂ (Annotates s ctx.source) ms ns) (hprev : ∀ p ∈ prev, p.isBranch = true)
    (harranged : ∀ k ∈ preorderOf ms, k.Arranged) (hclean : ∀ m ∈ ms, m.Through IsClean)
    (hbranch : ∀ m ∈ ms, m.isBranch = true) (hopen : outer.all (Spot.isOpen ctx.options ctx.source) = true)
    (level : Nat) (forced skipsFirst : Bool) (session : Session) (close : AddedTrim) :
    (printParts close ((printBranches ctx formatter level forced skipsFirst ns).run session).1).1.Shows style
      (keptOf ctx.options ctx.source (lineagesOf outer prev ms)) := by
  cases hns with
  | nil => exact Doc.shows_nil style _
  | @cons m n ms ns hn hns =>
    obtain ⟨hm, hms⟩ := List.forall_mem_cons.1 hbranch
    obtain ⟨hfirst, hrest⟩ := List.forall_mem_append.1 harranged
    obtain ⟨hclean, hcleans⟩ := List.forall_mem_cons.1 hclean
    obtain ⟨name, markup, opener, hkind⟩ := exists_of_isBranch hm
    have hspot := isOpen_branch ctx.options ctx.source hprev hm
    have hinner : (⟨prev, m⟩ :: outer : Lineage).all (Spot.isOpen ctx.options ctx.source) = true := by
      rw [List.all_cons, Spot.isOpen, hspot, hopen]
      rfl
    obtain ⟨later, hrun⟩ := run_printBranches_branch ctx formatter level (hn.kind.trans hkind)
      forced skipsFirst ns session
    rw [keptOf_cons, keptOf_open hopen hspot, hrun]
    have hhere := hfirst m (mem_preorder.2 (.inl rfl))
    have hbelow := hn.children
    have hempty := keptOf_eq_nil hn ctx.options ctx.source (⟨prev, m⟩ :: outer)
    have hinside := hclean.inside
    obtain ⟨_, mspan, mkind, mname, mattributes, mvalue, mchildren⟩ := m
    rw [preorder] at hfirst
    have hlists := (List.forall_mem_append.1 (List.forall_mem_cons.1 hfirst).2).2
    have hchildren := shows_printSiblings hbreak hsource mchildren hbelow .none hlists hinside
      (hhere.undivided (by rw [hkind]; rfl)) hinner (level + ctx.options.indentWidth) false session
    exact shows_printParts_cons (shows_branchBody forced skipsFirst hchildren hempty)
      (shows_printBranches hbreak hsource ms hns (by simpa using hm) hrest hcleans hms hopen level forced false later _)

end

end

/-! ## Templates -/

theorem render_of_format {o : Options} {formatter : CodeFormatter} {source text : String} {d : Document Unit}
    (hparse : Document.parse source = .ok d) (hignored : d.isIgnored o = false)
    (hformat : (format o formatter source).1 = .ok text) :
    text = (((d.annotate o.sensitivity).print o formatter).run {}).1.render o.pageStyle := by
  unfold format at hformat
  rw [hparse] at hformat
  dsimp only at hformat
  unfold Document.format at hformat
  rw [if_neg (by rw [hignored]; exact Bool.false_ne_true)] at hformat
  generalize StateT.run _ _ = printed at hformat ⊢
  obtain ⟨doc, session⟩ := printed
  dsimp only at hformat ⊢
  split at hformat
  · cases hformat
  · split at hformat
    · cases hformat
    · exact (Except.ok.inj hformat).symm

theorem through_isClean_of_parse {source : String} {d : Document Unit} (hparse : Document.parse source = .ok d)
    (hsource : '\r' ∉ source.toList) : d.root.Through Node.IsClean := by
  obtain ⟨tokens, htokens⟩ := ofSource_of_parse hparse
  obtain ⟨nodes, hderives, rfl⟩ := derives_of_parse htokens hparse
  have hclean : ∀ t ∈ tokens, ∀ body ∈ t.bodies, '\r' ∉ body.toList :=
    fun t ht body hbody hmem => hsource (subset_of_mem_bodies htokens t ht body hbody hmem)
  exact .mk (by simp [Node.IsClean, Document.ofNodes, Kind.bodies])
    fun n hn => (hderives.through hclean n hn).imp fun _ => isClean_of_leafOf

/-- **What a template keeps is found in the formatted template**, unchanged, once each and in the same order. -/
theorem format_kept {o : Options} {formatter : CodeFormatter} {source text : String} {d : Document Unit}
    (hparse : Document.parse source = .ok d) (hignored : d.isIgnored o = false) (hbreak : o.lineBreak = .lf)
    (hsource : '\r' ∉ source.toList) (hformat : (format o formatter source).1 = .ok text) :
    Text.StandIn (d.kept o) text := by
  have hroot := d.annotates_root o.sensitivity
  have hclean := through_isClean_of_parse hparse hsource
  rw [render_of_format hparse hignored hformat]
  have hd : d.source = source := source_of_parse hparse
  have hbranch : d.root.isBranch = false := by rw [Node.isBranch, kind_root_of_parse hparse]
  refine Doc.Shows.render ?_
  exact @shows_printNode o.pageStyle o.sensitivity ⟨d.source.toList, o⟩ formatter hbreak
    (by rw [hd]; exact hsource) d.root _ none none
    [] hroot .none (arranged_of_parse hparse) hclean hbranch rfl 0 {}

/-- An ignored element and the body of another one stay as they are inside of a third. -/
theorem kept_ignored_and_pre : ∃ d text,
    Document.parse "<p><!-- liquid-fmt-ignore --><i   a>b</i><pre> c\n  d</pre></p>" = .ok d ∧
    d.kept {} = [" liquid-fmt-ignore ", "<i   a>b</i>", " c\n  d"] ∧
    (format {} .identity "<p><!-- liquid-fmt-ignore --><i   a>b</i><pre> c\n  d</pre></p>").1 = .ok text ∧
    Text.StandIn (d.kept {}) text := by
  obtain ⟨d, hd, hfacts⟩ := exists_eq_ok
    (P := fun d : Document Unit =>
      !d.isIgnored {} && d.kept {} = [" liquid-fmt-ignore ", "<i   a>b</i>", " c\n  d"])
    (x := Document.parse "<p><!-- liquid-fmt-ignore --><i   a>b</i><pre> c\n  d</pre></p>") (by decide +kernel)
  obtain ⟨text, htext, -⟩ := exists_eq_ok (P := fun _ => true)
    (x := (format {} .identity "<p><!-- liquid-fmt-ignore --><i   a>b</i><pre> c\n  d</pre></p>").1) (by decide +kernel)
  simp only [Bool.and_eq_true, Bool.not_eq_true', decide_eq_true_eq] at hfacts
  exact ⟨d, text, hd, hfacts.2, htext, format_kept hd hfacts.1 rfl (by decide) htext⟩

/-- The body of an element is kept, but what closes the element is not: its names are written in lower case, so a
closing tag in the body ends the element when the formatted template is read. -/
theorem kept_body_ends_early : ∃ d : Document Unit,
    Document.parse "<SCRIPT>a</script>b</SCRIPT>" = .ok d ∧ d.isIgnored {} = false ∧
    (format {} .identity "<SCRIPT>a</script>b</SCRIPT>").1 = .ok "<script>\n  a</script>b\n</script>\n" ∧
    ∀ d' : Document Unit, Document.parse "<script>\n  a</script>b\n</script>\n" ≠ .ok d' := by
  have heval : (Document.parse "<SCRIPT>a</script>b</SCRIPT>").toOption.any (fun d => !d.isIgnored {}) = true ∧
      (format {} .identity "<SCRIPT>a</script>b</SCRIPT>").1.toOption.any
        (· == "<script>\n  a</script>b\n</script>\n") = true ∧
      (Document.parse "<script>\n  a</script>b\n</script>\n").toOption.isNone = true := by decide +kernel
  obtain ⟨d, hparse, hd⟩ := exists_eq_ok heval.1
  obtain ⟨t, hformat, ht⟩ := exists_eq_ok heval.2.1
  refine ⟨d, hparse, by simpa using hd, by rw [hformat, eq_of_beq ht], fun d' hd' => ?_⟩
  have hnone := heval.2.2
  rw [hd'] at hnone
  cases hnone

end LiquidTemplate
