import LiquidTemplate.Print.Node
import LiquidTemplate.Proofs.Print.Respacing

/-!
# Printing after a respacing

Under a `Respacing`, a node and its twin in the other source are printed to the same document, with the same requests
for embedded code (`printNode_twins`). The proof follows the tree: the step from the children of a node to the node is
`printSiblings_twins` for a list of siblings and `printBranches_twins` for the branches of a tag.
-/

namespace LiquidTemplate

/-! ## What is seen of children and delimiters -/

/-- Of the children of a tag, only the facts of the first and the last one are seen. -/
theorem bodyOf_eq (ctx : PrintContext) (forced : Bool) (container : Facts) (children : List (Node Facts))
    (inner : Doc) : bodyOf ctx forced container children inner =
      match (children.map (·.info)).head?, (children.map (·.info)).getLast? with
      | some first, some last =>
        let before := boundary first.leadingMatters first.hasLeading forced
        let after := boundary last.trailingMatters last.hasTrailing forced
        ⟨.nest ctx.options.indentWidth (before.1 ++ inner), after.1, before.2, after.2⟩
      | _, _ => ⟨printDangling container, .nil, .never, .never⟩ := by
  rw [bodyOf, List.head?_map, List.getLast?_map]
  cases children.head? <;> cases children.getLast? <;> rfl

theorem printElement_eq (ctx : PrintContext) (opening : Doc × AttributeLayout) (name : String) (forced : Bool)
    (container : Facts) (children : List (Node Facts)) (inner : Doc) :
    printElement ctx opening name forced container children inner =
      let opened := opening.1 ++ opening.2.beforeClose false ++ .text ">"
      match (children.map (·.info)).head?, (children.map (·.info)).getLast? with
      | some first, some last =>
        let sticksOpen := first.leadingMatters && !first.hasLeading
        let sticksClose := last.trailingMatters && !last.hasTrailing
        let before :=
          if sticksOpen then printBracketLine forced ++ .text ">"
          else (boundary first.leadingMatters first.hasLeading forced).1
        let body := before ++ inner ++ (if sticksClose then .text ("</" ++ name) else .nil)
        let after :=
          if sticksClose then printBracketLine forced ++ .text ">"
          else (boundary last.trailingMatters last.hasTrailing forced).1 ++ .text ("</" ++ name) ++ .text ">"
        .group (.group (if sticksOpen then opening.1 else opened) ++ .nest ctx.options.indentWidth body ++ after)
      | _, _ => .group (.group opened ++ printDangling container ++ .text ("</" ++ name) ++ .text ">") := by
  rw [printElement, List.head?_map, List.getLast?_map]
  cases children.head? <;> cases children.getLast? <;> rfl

def Part.moved (f : Nat → Nat) (part : Part) : Part :=
  ⟨part.delimiter.map fun d => (d.1, d.2.moved f), part.body⟩

theorem printParts_moved (f : Nat → Nat) (close : AddedTrim) (parts : List Part) :
    printParts close (parts.map (Part.moved f)) = printParts close parts := by
  induction parts generalizing close with
  | nil => rfl
  | cons part parts ih =>
    obtain ⟨delimiter, body⟩ := part
    rw [List.map_cons, printParts, printParts, Part.moved, ih]
    cases delimiter <;> rfl

theorem printBlock_moved (f : Nat → Nat) (name head : String) (opener : Delimiter) (closer : Option Delimiter)
    (parts : List Part) :
    printBlock name head (opener.moved f) (closer.map (Delimiter.moved f)) (parts.map (Part.moved f)) =
      printBlock name head opener closer parts := by
  have hopen : ((parts.map (Part.moved f)).head?.map (·.body.openTrim)) = parts.head?.map (·.body.openTrim) := by
    cases parts <;> rfl
  cases closer <;> simp only [printBlock, printParts_moved, hopen, Option.map_none, Option.map_some, Delimiter.moved]

namespace Node

variable {a b : List Char} {r : Respacing a b} {s : Sensitivity} {o : Options}

/-- No directive asks to leave alone what follows a node. -/
def Unremarkable {α : Type} (o : Options) (n : Node α) : Prop :=
  ∀ text ∈ n.remark?, Text.trim text ≠ o.ignoreDirective

/-- The name and the attributes of a node are moved as a whole. -/
def OnOneLine (r : Respacing a b) (m : Node Unit) : Prop :=
  ∃ B, Rigid a b r.move B ∧ AllFormed (fun t => t.span.EndsIn B) B m.name ∧
    AllFormed (fun t => t.span.EndsIn B) B m.attributes

/-- A node that is printed the same after a respacing, if the nodes below it are. -/
structure Settled (r : Respacing a b) (o : Options) (m : Node Unit) : Prop where
  calm : m.Calm r
  arranged : m.Arranged
  item : m.isAttribute = false
  line : m.OnOneLine r
  remark : m.Unremarkable o
  remarks : ∀ c ∈ m.attributes, c.Unremarkable o

theorem isIgnored_some {α : Type} {m : Node α} {n : Node Facts} {source : List Char} (hkind : n.kind = m.kind)
    (h : m.Unremarkable o) : isIgnored ⟨source, o⟩ (some n) = false := by
  rw [isIgnored, Option.bind_some, remark?_of_kind hkind]
  cases hremark : m.remark? with
  | none => rfl
  | some text => simpa using h text hremark

/-! ## Opening tags -/

section

variable {f : Nat → Nat} {P : Token → Prop} {B : Nat → Prop}

theorem printAttributeItems_twins (hrigid : Rigid a b f B) {ms : List (Node Unit)} {ns ns' : List (Node Facts)}
    (hns : List.Forall₂ (Annotates s a) ms ns) (hns' : List.Forall₂ (Annotates s b) (ms.map (moved f)) ns')
    (hms : AllFormed P B ms) (hremarks : ∀ m ∈ ms, m.Unremarkable o) (layout : AttributeLayout)
    {prev prev' : Option (Node Facts)} (hprev : isIgnored ⟨a, o⟩ prev = false)
    (hprev' : isIgnored ⟨b, o⟩ prev' = false) :
    printAttributeItems ⟨b, o⟩ layout prev' ns' = printAttributeItems ⟨a, o⟩ layout prev ns := by
  induction hns generalizing ns' prev prev' with
  | nil =>
    cases hns'
    rfl
  | @cons m n ms ns hn _ ih =>
    rw [List.map_cons] at hns'
    cases hns' with
    | @cons _ n' _ ns' hn' hns' =>
      obtain ⟨hm, hms⟩ := List.forall_mem_cons.1 hms
      obtain ⟨hremark, hremarks⟩ := List.forall_mem_cons.1 hremarks
      have hattribute : n'.isAttribute = n.isAttribute := by
        rw [isAttribute, isAttribute, hn.kind, hn'.kind, kind_moved]
        cases m.kind <;> rfl
      have hinline : n'.inline ⟨b, o⟩ none = n.inline ⟨a, o⟩ none := by
        rw [hn'.inline_eq, hn.inline_eq, inline_moved hrigid m hm]
      have hremark' : (m.moved f).Unremarkable o := by
        rw [Unremarkable, remark?_moved]
        exact hremark
      rw [printAttributeItems, printAttributeItems, hprev, hprev', hattribute, hinline,
        ih hns' hms hremarks (isIgnored_some hn.kind hremark) (isIgnored_some hn'.kind hremark')]
      rfl

end

section

variable {m : Node Unit} {n n' : Node Facts}

theorem printName_twins (h : Twins s r.move a b m n n') (hm : m.Settled r o) :
    printName ⟨b, o⟩ n'.name = printName ⟨a, o⟩ n.name := by
  obtain ⟨B, hrigid, hname, -⟩ := hm.line
  have hline : inlineList ⟨b, o⟩ none n'.name = inlineList ⟨a, o⟩ none n.name := by
    rw [h.annotates_moved.inlineList_name, h.annotates.inlineList_name, name_moved, inlineList_moved hrigid hname]
  rw [printName, printName, hline]

theorem printOpening_twins (h : Twins s r.move a b m n n') (hm : m.Settled r o) (name : String) :
    printOpening ⟨b, o⟩ name n'.attributes = printOpening ⟨a, o⟩ name n.attributes := by
  obtain ⟨B, hrigid, -, hattributes⟩ := hm.line
  have hns := h.annotates.attributes
  have hns' := h.annotates_moved.attributes
  rw [attributes_moved] at hns'
  have hlength : n'.attributes.length = n.attributes.length := by
    rw [← hns.length_eq, ← hns'.length_eq, List.length_map]
  have hitems (layout : AttributeLayout) : printAttributeItems ⟨b, o⟩ layout none n'.attributes =
      printAttributeItems ⟨a, o⟩ layout none n.attributes :=
    printAttributeItems_twins hrigid hns hns' hattributes hm.remarks layout rfl rfl
  simp only [printOpening, hlength, hitems]

end

/-! ## Bodies -/

section

variable {m : Node Unit} {n n' : Node Facts} {ms : List (Node Unit)} {ns ns' : List (Node Facts)}

theorem map_info_twins (h : AllTwins s r.move a b ms ns ns') (hms : ∀ c ∈ ms, c.Steady r ∧ c.span.EndsIn r.inner) :
    ns'.map (·.info) = ns.map (·.info) := by
  induction h with
  | nil => rfl
  | cons first _ ih =>
    obtain ⟨⟨hsteady, hspan⟩, hms⟩ := List.forall_mem_cons.1 hms
    rw [List.map_cons, List.map_cons, first.info_inner hsteady hspan, ih hms]

theorem printDangling_twins (h : Twins s r.move a b m n n') (hm : m.Steady r) :
    printDangling n'.info = printDangling n.info := by
  rw [printDangling, printDangling, h.hasDangling_eq hm, h.danglingMatters_eq]

theorem children_steady (hm : m.Through (Settled r o)) : ∀ c ∈ m.children, c.Steady r ∧ c.span.EndsIn r.inner :=
  fun c hc => ⟨(hm.inside c hc).own.calm.steady, hm.own.calm.steady.inside c hc⟩

theorem bodyOf_twins (h : Twins s r.move a b m n n') (hm : m.Through (Settled r o)) (forced : Bool) (inner : Doc) :
    bodyOf ⟨b, o⟩ forced n'.info n'.children inner = bodyOf ⟨a, o⟩ forced n.info n.children inner := by
  rw [bodyOf_eq, bodyOf_eq, map_info_twins h.children (children_steady hm), printDangling_twins h hm.own.calm.steady]

theorem printElement_twins (h : Twins s r.move a b m n n') (hm : m.Through (Settled r o))
    (opening : Doc × AttributeLayout) (name : String) (forced : Bool) (inner : Doc) :
    printElement ⟨b, o⟩ opening name forced n'.info n'.children inner =
      printElement ⟨a, o⟩ opening name forced n.info n.children inner := by
  rw [printElement_eq, printElement_eq, map_info_twins h.children (children_steady hm),
    printDangling_twins h hm.own.calm.steady]

end

/-! ## Nodes -/

variable (formatter : CodeFormatter)

/-- The nodes before two twins: none, or twins again. -/
inductive PrevTwins (s : Sensitivity) (r : Respacing a b) (o : Options) :
    Option (Node Facts) → Option (Node Facts) → Prop where
  | none : PrevTwins s r o none none
  | some {p : Node Unit} {q q' : Node Facts} (twins : Twins s r.move a b p q q') (ends : p.span.EndsIn r.anchor)
      (remark : p.Unremarkable o) : PrevTwins s r o (some q) (some q')

theorem PrevTwins.isIgnored_eq {prev prev' : Option (Node Facts)} (h : PrevTwins s r o prev prev') :
    isIgnored ⟨a, o⟩ prev = false ∧ isIgnored ⟨b, o⟩ prev' = false := by
  cases h with
  | none => exact ⟨rfl, rfl⟩
  | some twins _ remark =>
    refine ⟨isIgnored_some twins.kind remark, isIgnored_some twins.annotates_moved.kind ?_⟩
    rw [Unremarkable, remark?_moved]
    exact remark

def PrintsAlike (r : Respacing a b) (s : Sensitivity) (o : Options) (formatter : CodeFormatter) (m : Node Unit) :
    Prop :=
  ∀ {n n' : Node Facts}, Twins s r.move a b m n n' → ∀ level {prev prev'}, PrevTwins s r o prev prev' →
    printNode ⟨b, o⟩ formatter level prev' n' = printNode ⟨a, o⟩ formatter level prev n

theorem printSiblings_twins {ms : List (Node Unit)} {ns ns' : List (Node Facts)} (h : AllTwins s r.move a b ms ns ns')
    (hms : ∀ m ∈ ms, m.Settled r o ∧ m.PrintsAlike r s o formatter) (level : Nat) (separates : Bool)
    {prev prev' : Option (Node Facts)} (hprev : PrevTwins s r o prev prev') :
    printSiblings ⟨b, o⟩ formatter level separates prev' ns' =
      printSiblings ⟨a, o⟩ formatter level separates prev ns := by
  induction h generalizing prev prev' with
  | nil => rfl
  | @cons m n n' ms ns ns' first _ ih =>
    obtain ⟨⟨hsettled, halike⟩, hms⟩ := List.forall_mem_cons.1 hms
    have hends := hsettled.calm.steady.ends
    have hrest := ih hms (.some first hends hsettled.remark)
    have hitem := halike first level hprev
    cases hprev with
    | none => simp only [printSiblings, hitem, hrest]
    | some twins ends => simp only [printSiblings, hitem, hrest, gap_twins twins first ends hends]

/-- The branches of a tag are printed alike if their children are. The delimiters keep their trim markers. -/
theorem printBranches_twins {ms : List (Node Unit)} {ns ns' : List (Node Facts)} (h : AllTwins s r.move a b ms ns ns')
    (hms : ∀ m ∈ ms, m.Through (Settled r o))
    (hchildren : ∀ m ∈ ms, ∀ {n n' : Node Facts}, Twins s r.move a b m n n' → ∀ level,
      printSiblings ⟨b, o⟩ formatter level false none n'.children =
        printSiblings ⟨a, o⟩ formatter level false none n.children)
    (level : Nat) (forced skipsFirst : Bool) :
    printBranches ⟨b, o⟩ formatter level forced skipsFirst ns' =
      (do return (← printBranches ⟨a, o⟩ formatter level forced skipsFirst ns).map (Part.moved r.move)) := by
  induction h generalizing skipsFirst with
  | nil => rfl
  | @cons m n n' ms ns ns' first _ ih =>
    obtain ⟨hm, hms⟩ := List.forall_mem_cons.1 hms
    obtain ⟨hown, hchildren⟩ := List.forall_mem_cons.1 hchildren
    have hkind := first.kind
    have hkind' := first.kind_moved
    have hbody := bodyOf_twins first hm forced
    have hinner := hown first
    have hempty := first.children.isEmpty_eq
    obtain ⟨info, span, kind, name, attributes, value, children⟩ := n
    obtain ⟨info', span', kind', name', attributes', value', children'⟩ := n'
    simp only at hkind hkind' hbody hinner hempty
    rw [hkind, hkind']
    cases m.kind with
    | branch branchName markup opener =>
      simp only [Kind.moved, printBranches, hinner, hbody, hempty, ih hms hchildren, bind_assoc, pure_bind,
        List.map_cons, Part.moved, Option.map_map]
      cases branchName
      · rfl
      · rfl
    | _ => simp only [Kind.moved, printBranches, ih hms hchildren]

/-- **A node is printed as its twin if what is below it is**, children as siblings or as branches. -/
theorem printNode_step {m : Node Unit} (hm : m.Through (Settled r o)) (hbranch : m.isBranch = false)
    {n n' : Node Facts} (h : Twins s r.move a b m n n')
    (hsiblings : m.kind.isDivided = false → ∀ level separates,
      printSiblings ⟨b, o⟩ formatter level separates none n'.children =
        printSiblings ⟨a, o⟩ formatter level separates none n.children)
    (hbranches : m.kind.isDivided = true → ∀ level forced skipsFirst,
      printBranches ⟨b, o⟩ formatter level forced skipsFirst n'.children =
        (do return (← printBranches ⟨a, o⟩ formatter level forced skipsFirst n.children).map (Part.moved r.move)))
    (level : Nat) {prev prev' : Option (Node Facts)} (hprev : PrevTwins s r o prev prev') :
    printNode ⟨b, o⟩ formatter level prev' n' = printNode ⟨a, o⟩ formatter level prev n := by
  obtain ⟨hignored, hignored'⟩ := hprev.isIgnored_eq
  have hkind := h.kind
  have hkind' := h.kind_moved
  have hname := printName_twins h hm.own
  have hopening := printOpening_twins h hm.own
  have hforced := isForced_twins (hm.imp fun _ hk => hk.calm) h
  have hseparates := h.separatesChildren_eq
  have hcase := h.isDividedCase_eq
  have hempty := h.children.isEmpty_eq
  have hkeeps : n.info.keepsLayout = m.whiteSpace.isPreLike := h.annotates.keepsLayout
  have hkeeps' : n'.info.keepsLayout = m.whiteSpace.isPreLike := h.keepsLayout_eq.trans hkeeps
  have hlayout := hm.own.calm.layout
  have hbody := bodyOf_twins h hm
  have helement := printElement_twins h hm
  obtain ⟨info, span, kind, name, attributes, value, children⟩ := n
  obtain ⟨info', span', kind', name', attributes', value', children'⟩ := n'
  simp only at hkind hkind' hname hopening hempty hkeeps hkeeps' hbody helement hsiblings hbranches
  subst hkind hkind'
  unfold printNode
  simp only [hignored, hignored', Bool.false_eq_true, if_false]
  cases hmkind : m.kind with
  | document =>
    simp only [hmkind, Kind.moved] at hseparates hsiblings ⊢
    simp only [hempty, hseparates, hsiblings rfl]
  | element opener closer =>
    have hspace : m.whiteSpace.isPreLike = false := by simpa only [keepsLayout_eq, hmkind] using hlayout
    simp only [hmkind, Kind.moved] at hseparates hforced hsiblings ⊢
    simp only [hkeeps, hkeeps', hspace, hname, hopening, hseparates, hforced, hsiblings rfl, helement,
      Bool.false_eq_true, if_false]
  | voidElement elementName => simp only [hopening, Kind.moved]
  | selfClosing => simp only [hopening, hname, Kind.moved]
  | rawElement elementName body opener closer =>
    simp only [hopening, Kind.moved]
    rfl
  | block tagName markup opener closer =>
    have hspace : m.whiteSpace.isPreLike = false := by simpa only [keepsLayout_eq, hmkind] using hlayout
    simp only [hmkind, Kind.moved] at hseparates hforced hcase hsiblings hbranches ⊢
    simp only [hkeeps, hkeeps', hspace, hseparates, hforced, hcase, Bool.false_eq_true, if_false]
    by_cases hdivided : isBranchedTag tagName = true
    · simp only [if_pos hdivided, hbranches hdivided, bind_assoc, pure_bind, printBlock_moved]
      rfl
    · have hundivided : isBranchedTag tagName = false := Bool.eq_false_iff.2 hdivided
      have hpart (head : String) (body : Body) :
          printBlock tagName head (opener.moved r.move) (closer.map (Delimiter.moved r.move)) [⟨none, body⟩] =
            printBlock tagName head opener closer [⟨none, body⟩] :=
        printBlock_moved r.move tagName head opener closer [⟨none, body⟩]
      simp only [if_neg hdivided, hsiblings hundivided, hbody, hpart]
      rfl
  | branch branchName markup opener =>
    rw [isBranch, hmkind] at hbranch
    cases hbranch
  | attr style =>
    have hitem := hm.own.item
    rw [isAttribute, hmkind] at hitem
    cases hitem
  | text | frontMatter | comment | doctype | tag | rawTag | drop => rfl

/-- **Printing after a respacing.** -/
theorem printNode_twins {m : Node Unit} (hm : m.Through (Settled r o)) :
    (m.kind.isDivided = false → ∀ {n n' : Node Facts}, Twins s r.move a b m n n' → ∀ level separates,
      printSiblings ⟨b, o⟩ formatter level separates none n'.children =
        printSiblings ⟨a, o⟩ formatter level separates none n.children) ∧
    (m.isBranch = false → m.PrintsAlike r s o formatter) := by
  induction hm with
  | @mk m own below ih =>
    have hsiblings : m.kind.isDivided = false → ∀ {n n' : Node Facts}, Twins s r.move a b m n n' →
        ∀ level separates, printSiblings ⟨b, o⟩ formatter level separates none n'.children =
          printSiblings ⟨a, o⟩ formatter level separates none n.children := by
      intro hundivided n n' h level separates
      refine printSiblings_twins formatter h.children (fun c hc => ⟨(below c hc).own, ?_⟩) level separates .none
      exact (ih c hc).2 (own.arranged.undivided hundivided c hc)
    refine ⟨hsiblings, fun hbranch n n' h level prev prev' hprev => ?_⟩
    refine printNode_step formatter (.mk own below) hbranch h (fun hundivided => hsiblings hundivided h) ?_ level hprev
    intro hdivided level forced skipsFirst
    refine printBranches_twins formatter h.children below (fun c hc n n' htwins level => ?_) level forced skipsFirst
    -- a branch is no tag, so its children are siblings
    obtain ⟨name, markup, opener, hkind⟩ := exists_of_isBranch (own.arranged.divided hdivided c hc)
    exact (ih c hc).1 (by rw [hkind]; rfl) htwins level false

end Node

end LiquidTemplate
