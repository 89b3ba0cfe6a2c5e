import LiquidTemplate.Print.Node
import LiquidTemplate.Proofs.Layout.Modes

/-!
# Nodes and their places on the page

`LaidOut` says which nodes of a tree are printed by rules of their own, and after which sibling: the root, and
the children of an element or tag that is neither ignored nor kept as it stands. The document of such a node is
a part of the document of the root (`LaidOut.contains`), so its text stands on the page where rendering comes
to it. What holds of all nodes that are laid out can be said by recursion along the printing (`everyLaid_root_iff`).
-/

namespace LiquidTemplate

/-- The children of a node after another one are printed by rules of their own. -/
def Node.laysOutChildren (ctx : PrintContext) (prev : Option (Node Facts)) (n : Node Facts) : Bool :=
  !isIgnored ctx prev && !n.info.keepsLayout &&
    match n.kind with
    | .document | .element _ _ | .block _ _ _ _ => true
    | _ => false

/-- The nodes that are printed by rules of their own, each with the sibling before it. The branches of a tag are
printed with it, and their children are not. -/
inductive LaidOut (ctx : PrintContext) (root : Node Facts) : Option (Node Facts) → Node Facts → Prop where
  | root : LaidOut ctx root none root
  | child {prev : Option (Node Facts)} {n m : Node Facts} {before after : List (Node Facts)}
      (parent : LaidOut ctx root prev n) (shown : n.laysOutChildren ctx prev = true) (undivided : n.isBranched = false)
      (split : n.children = before ++ m :: after) : LaidOut ctx root before.getLast? m
  | branchChild {prev : Option (Node Facts)} {n b m : Node Facts} {before after : List (Node Facts)}
      {name : Option String} {markup : Markup} {opener : Delimiter} (parent : LaidOut ctx root prev n)
      (shown : n.laysOutChildren ctx prev = true) (divided : n.isBranched = true) (mem : b ∈ n.children)
      (branch : b.kind = .branch name markup opener) (split : b.children = before ++ m :: after) :
      LaidOut ctx root before.getLast? m

section

variable {ctx : PrintContext} {formatter : CodeFormatter} {level : Nat} {prev : Option (Node Facts)} {n : Node Facts}

/-! ## Siblings -/

theorem run_printSiblings_cons (separates : Bool) (ns : List (Node Facts)) (session : Session) :
    ((printSiblings ctx formatter level separates prev (n :: ns)).run session).1 =
      (match prev with
        | some p => (Gap.between ctx.source separates p n).doc
        | none => .nil) ++
      ((printNode ctx formatter level prev n).run session).1 ++
      ((printSiblings ctx formatter level separates (some n) ns).run
        ((printNode ctx formatter level prev n).run session).2).1 := by
  cases prev <;> rfl

theorem contains_printSiblings_or (separates : Bool) (before after : List (Node Facts)) (prev : Option (Node Facts))
    (session : Session) :
    ∃ later, (((printSiblings ctx formatter level separates prev (before ++ n :: after)).run session).1).Contains
      ((printNode ctx formatter level (before.getLast?.or prev) n).run later).1 := by
  induction before generalizing prev session with
  | nil =>
    rw [List.nil_append, run_printSiblings_cons]
    exact ⟨session, .left (.right .refl)⟩
  | cons m ms ih =>
    rw [List.cons_append, run_printSiblings_cons]
    obtain ⟨later, hlater⟩ := ih (some m) ((printNode ctx formatter level prev m).run session).2
    refine ⟨later, .right ?_⟩
    cases ms with
    | nil => exact hlater
    | cons k ks => simpa [List.getLast?_cons] using hlater

theorem contains_printSiblings (ctx : PrintContext) (formatter : CodeFormatter) (level : Nat) (separates : Bool)
    {ns before after : List (Node Facts)} (hsplit : ns = before ++ n :: after) (session : Session) :
    ∃ later, (((printSiblings ctx formatter level separates none ns).run session).1).Contains
      ((printNode ctx formatter level before.getLast? n).run later).1 := by
  obtain ⟨later, hlater⟩ := contains_printSiblings_or separates before after none session
  rw [Option.or_none] at hlater
  exact ⟨later, hsplit ▸ hlater⟩

/-! ## Bodies and parts -/

theorem contains_bodyOf (forced : Bool) (container : Facts) {nodes : List (Node Facts)} (inner : Doc)
    (h : nodes ≠ []) : ((bodyOf ctx forced container nodes inner).doc).Contains inner := by
  obtain ⟨first, rest, rfl⟩ := List.exists_cons_of_ne_nil h
  rw [bodyOf, List.head?_cons, List.getLast?_cons]
  exact .nest (.right .refl)

theorem contains_printParts {parts : List Part} {part : Part} (h : part ∈ parts) (close : AddedTrim) :
    ((printParts close parts).1).Contains part.body.doc := by
  induction parts generalizing close with
  | nil => cases h
  | cons first parts ih =>
    rw [printParts]
    rcases List.mem_cons.1 h with rfl | h
    · exact .left (.left (.right .refl))
    · exact .right (ih h _)

theorem contains_printBlock {name head : String} {opener : Delimiter} {closer : Option Delimiter} {parts : List Part}
    {part : Part} (h : part ∈ parts) : (printBlock name head opener closer parts).Contains part.body.doc := by
  have hpart := contains_printParts h .never
  cases closer with
  | some d => exact .left (.left (.right (.group (.left (.left (.left (.right hpart)))))))
  | none => exact .right (.group (.right hpart))

theorem contains_printElement (opening : Doc × AttributeLayout) (name : String) (forced : Bool) (container : Facts)
    {nodes : List (Node Facts)} (inner : Doc) (h : nodes ≠ []) :
    (printElement ctx opening name forced container nodes inner).Contains inner := by
  obtain ⟨first, rest, rfl⟩ := List.exists_cons_of_ne_nil h
  rw [printElement, List.head?_cons, List.getLast?_cons]
  exact .group (.left (.right (.nest (.left (.right .refl)))))

def blockParts (ctx : PrintContext) (formatter : CodeFormatter) (level : Nat) (name : String) (n : Node Facts)
    (session : Session) : List Part :=
  if isBranchedTag name then
    ((printBranches ctx formatter level (n.isForced ctx.source) n.isDividedCase n.children).run session).1
  else
    [⟨none, bodyOf ctx (n.isForced ctx.source) n.info n.children
      ((printSiblings ctx formatter (level + ctx.options.indentWidth) n.separatesChildren none n.children).run
        session).1⟩]

theorem run_printNode_block {name : String} {markup : Markup} {opener : Delimiter} {closer : Option Delimiter}
    (hignored : isIgnored ctx prev = false) (hkeeps : n.info.keepsLayout = false)
    (hkind : n.kind = .block name markup opener closer) (session : Session) :
    ((printNode ctx formatter level prev n).run session).1 =
      printBlock name (tagHead (ctx.stringQuote none) name markup) opener closer
        (blockParts ctx formatter level name n session) := by
  cases n with
  | mk info span kind nameNodes attributes value children =>
    simp only at hkind hkeeps
    subst hkind
    unfold printNode blockParts
    simp only [hignored, hkeeps, Bool.false_eq_true, if_false]
    split <;> rfl

theorem run_printNode_element {opener closer : Span} (hignored : isIgnored ctx prev = false)
    (hkeeps : n.info.keepsLayout = false) (hkind : n.kind = .element opener closer) (session : Session) :
    ∃ opening name, ((printNode ctx formatter level prev n).run session).1 =
      printElement ctx opening name (n.isForced ctx.source) n.info n.children
        ((printSiblings ctx formatter (level + ctx.options.indentWidth) n.separatesChildren none n.children).run
          session).1 := by
  cases n with
  | mk info span kind nameNodes attributes value children =>
    simp only at hkind hkeeps
    subst hkind
    rw [printNode]
    simp only [hignored, hkeeps, Bool.false_eq_true, if_false]
    exact ⟨_, _, rfl⟩

theorem run_printNode_document (hignored : isIgnored ctx prev = false) (hkind : n.kind = .document)
    (hchildren : n.children ≠ []) (session : Session) :
    ((printNode ctx formatter level prev n).run session).1 =
      .group ((printSiblings ctx formatter level n.separatesChildren none n.children).run session).1 ++ .hardLine := by
  cases n with
  | mk info span kind nameNodes attributes value children =>
    simp only at hkind hchildren
    subst hkind
    rw [printNode]
    simp only [hignored, Bool.false_eq_true, if_false, List.isEmpty_iff, hchildren]
    rfl

/-! ## Branches -/

def branchBody (ctx : PrintContext) (forced skipped : Bool) (b : Node Facts) (inner : Doc) : Body :=
  if skipped && b.children.isEmpty then ⟨.nil, .hardLine, .never, .never⟩
  else bodyOf ctx forced b.info b.children inner

theorem run_printBranches_branch (ctx : PrintContext) (formatter : CodeFormatter) (level : Nat) {b : Node Facts}
    {name : Option String} {markup : Markup} {opener : Delimiter} (hkind : b.kind = .branch name markup opener)
    (forced skipped : Bool) (bs : List (Node Facts)) (session : Session) :
    ∃ later, ((printBranches ctx formatter level forced skipped (b :: bs)).run session).1 =
      ⟨name.map fun name => (tagHead (ctx.stringQuote none) name markup, opener),
        branchBody ctx forced skipped b
          ((printSiblings ctx formatter (level + ctx.options.indentWidth) false none b.children).run session).1⟩ ::
      ((printBranches ctx formatter level forced false bs).run later).1 := by
  cases b with
  | mk info span kind nameNodes attributes value children =>
    simp only at hkind
    subst hkind
    exact ⟨_, rfl⟩

theorem run_printBranches_other {b : Node Facts} (forced skipped : Bool) (bs : List (Node Facts))
    (hkind : ∀ name markup opener, b.kind ≠ .branch name markup opener) :
    printBranches ctx formatter level forced skipped (b :: bs) =
      printBranches ctx formatter level forced false bs := by
  cases b with
  | mk info span kind nameNodes attributes value children =>
    cases kind with
    | branch name markup opener => exact (hkind name markup opener rfl).elim
    | _ => rfl

theorem exists_part_printBranches (ctx : PrintContext) (formatter : CodeFormatter) (level : Nat) {b : Node Facts}
    {bs : List (Node Facts)} {name : Option String} {markup : Markup} {opener : Delimiter} (hmem : b ∈ bs)
    (hkind : b.kind = .branch name markup opener) (hne : b.children ≠ []) (forced skipped : Bool) (session : Session) :
    ∃ later, ∃ part ∈ ((printBranches ctx formatter level forced skipped bs).run session).1,
      part.body = bodyOf ctx forced b.info b.children
        ((printSiblings ctx formatter (level + ctx.options.indentWidth) false none b.children).run later).1 := by
  induction bs generalizing skipped session with
  | nil => cases hmem
  | cons c bs ih =>
    by_cases hc : ∃ name markup opener, c.kind = .branch name markup opener
    · obtain ⟨cname, cmarkup, copener, hckind⟩ := hc
      obtain ⟨later, hrun⟩ := run_printBranches_branch ctx formatter level hckind forced skipped bs session
      rw [hrun]
      rcases List.mem_cons.1 hmem with rfl | hmem
      · refine ⟨session, _, List.mem_cons_self, ?_⟩
        have hkept : (skipped && b.children.isEmpty) = false := by simp [hne]
        rw [branchBody, hkept]
        rfl
      · obtain ⟨last, part, hpart, hbody⟩ := ih hmem false later
        exact ⟨last, part, List.mem_cons_of_mem _ hpart, hbody⟩
    · rw [run_printBranches_other _ _ _ fun name markup opener h => hc ⟨name, markup, opener, h⟩]
      rcases List.mem_cons.1 hmem with rfl | hmem
      · exact (hc ⟨name, markup, opener, hkind⟩).elim
      · exact ih hmem false session

/-! ## Places -/

theorem contains_of_undivided (formatter : CodeFormatter) (level : Nat) {m : Node Facts}
    {before after : List (Node Facts)} (hshown : n.laysOutChildren ctx prev = true) (hundivided : n.isBranched = false)
    (hsplit : n.children = before ++ m :: after) (session : Session) :
    ∃ inner later, (((printNode ctx formatter level prev n).run session).1).Contains
      ((printNode ctx formatter inner before.getLast? m).run later).1 := by
  have hne : n.children ≠ [] := by simp [hsplit]
  have hsiblings (inner : Nat) := contains_printSiblings ctx formatter inner n.separatesChildren hsplit session
  simp only [Node.laysOutChildren, Bool.and_eq_true, Bool.not_eq_true'] at hshown
  obtain ⟨⟨hignored, hkeeps⟩, hcontainer⟩ := hshown
  split at hcontainer
  next hkind =>
    obtain ⟨later, hlater⟩ := hsiblings level
    rw [run_printNode_document hignored hkind hne]
    exact ⟨level, later, .left (.group hlater)⟩
  next opener closer hkind =>
    obtain ⟨later, hlater⟩ := hsiblings (level + ctx.options.indentWidth)
    obtain ⟨opening, name, hrun⟩ := run_printNode_element hignored hkeeps hkind session
    rw [hrun]
    exact ⟨_, later, (contains_printElement opening name _ _ _ hne).trans hlater⟩
  next name markup opener closer hkind =>
    have hname : isBranchedTag name = false := by simpa [Node.isBranched, hkind] using hundivided
    obtain ⟨later, hlater⟩ := hsiblings (level + ctx.options.indentWidth)
    rw [run_printNode_block hignored hkeeps hkind, blockParts, hname]
    exact ⟨_, later, (contains_printBlock List.mem_cons_self).trans ((contains_bodyOf _ _ _ hne).trans hlater)⟩
  next => cases hcontainer

theorem contains_of_divided (formatter : CodeFormatter) (level : Nat) {b m : Node Facts}
    {before after : List (Node Facts)} {name : Option String} {markup : Markup} {opener : Delimiter}
    (hshown : n.laysOutChildren ctx prev = true) (hdivided : n.isBranched = true) (hmem : b ∈ n.children)
    (hbranch : b.kind = .branch name markup opener) (hsplit : b.children = before ++ m :: after) (session : Session) :
    ∃ inner later, (((printNode ctx formatter level prev n).run session).1).Contains
      ((printNode ctx formatter inner before.getLast? m).run later).1 := by
  have hne : b.children ≠ [] := by simp [hsplit]
  simp only [Node.laysOutChildren, Bool.and_eq_true, Bool.not_eq_true'] at hshown
  obtain ⟨⟨hignored, hkeeps⟩, -⟩ := hshown
  unfold Node.isBranched at hdivided
  split at hdivided
  next tagName tagMarkup tagOpener tagCloser hkind =>
    rw [run_printNode_block hignored hkeeps hkind, blockParts, hdivided]
    obtain ⟨later, part, hpart, hbody⟩ := exists_part_printBranches ctx formatter level hmem hbranch hne
      (n.isForced ctx.source) n.isDividedCase session
    have hinner := hbody ▸ contains_bodyOf (n.isForced ctx.source) b.info _ hne
    obtain ⟨last, hlast⟩ := contains_printSiblings ctx formatter (level + ctx.options.indentWidth) false hsplit later
    exact ⟨_, last, ((contains_printBlock hpart).trans hinner).trans hlast⟩
  next => cases hdivided

/-- **The document of a node that is laid out is a part of the document of the root.** -/
theorem LaidOut.contains {root : Node Facts} (h : LaidOut ctx root prev n) (formatter : CodeFormatter)
    (session : Session) :
    ∃ level later, (((printNode ctx formatter 0 none root).run session).1).Contains
      ((printNode ctx formatter level prev n).run later).1 := by
  induction h with
  | root => exact ⟨0, session, .refl⟩
  | child parent shown undivided split ih =>
    obtain ⟨level, later, hparent⟩ := ih
    obtain ⟨inner, last, hchild⟩ := contains_of_undivided formatter level shown undivided split later
    exact ⟨inner, last, hparent.trans hchild⟩
  | branchChild parent shown divided mem branch split ih =>
    obtain ⟨level, later, hparent⟩ := ih
    obtain ⟨inner, last, hchild⟩ := contains_of_divided formatter level shown divided mem branch split later
    exact ⟨inner, last, hparent.trans hchild⟩

end

/-! ## All nodes that are laid out -/

section

variable (ctx : PrintContext) (P : Option (Node Facts) → Node Facts → Prop)

mutual

/-- A property of a node after another one, and of all nodes in it that are laid out. -/
def Node.EveryLaid (prev : Option (Node Facts)) : Node Facts → Prop
  | ⟨info, span, kind, name, attributes, value, children⟩ =>
    let n : Node Facts := ⟨info, span, kind, name, attributes, value, children⟩
    P prev n ∧ (n.laysOutChildren ctx prev = true →
      if n.isBranched then BranchesLaid children else SiblingsLaid none children)

def SiblingsLaid (prev : Option (Node Facts)) : List (Node Facts) → Prop
  | [] => True
  | n :: ns => n.EveryLaid prev ∧ SiblingsLaid (some n) ns

def BranchesLaid : List (Node Facts) → Prop
  | [] => True
  | ⟨_, _, kind, _, _, _, children⟩ :: ns =>
    (match kind with
      | .branch _ _ _ => SiblingsLaid none children
      | _ => True) ∧ BranchesLaid ns

end

variable {ctx P} {prev : Option (Node Facts)} {n : Node Facts}

theorem Node.everyLaid_iff : n.EveryLaid ctx P prev ↔ P prev n ∧ (n.laysOutChildren ctx prev = true →
    if n.isBranched then BranchesLaid ctx P n.children else SiblingsLaid ctx P none n.children) := by
  cases n
  rw [EveryLaid]

theorem branchesLaid_cons_iff {b : Node Facts} {name : Option String} {markup : Markup} {opener : Delimiter}
    (h : b.kind = .branch name markup opener) (bs : List (Node Facts)) :
    BranchesLaid ctx P (b :: bs) ↔ SiblingsLaid ctx P none b.children ∧ BranchesLaid ctx P bs := by
  cases b
  simp only at h
  subst h
  rw [BranchesLaid]

theorem SiblingsLaid.of_mem {before after : List (Node Facts)} (h : SiblingsLaid ctx P prev (before ++ n :: after)) :
    n.EveryLaid ctx P (before.getLast?.or prev) := by
  induction before generalizing prev with
  | nil => exact h.1
  | cons m ms ih =>
    have hrest := ih h.2
    cases ms with
    | nil => exact hrest
    | cons k ks => simpa [List.getLast?_cons] using hrest

theorem BranchesLaid.of_mem {b : Node Facts} {bs : List (Node Facts)} (h : BranchesLaid ctx P bs) (hb : b ∈ bs)
    {name : Option String} {markup : Markup} {opener : Delimiter} (hkind : b.kind = .branch name markup opener) :
    SiblingsLaid ctx P none b.children := by
  induction bs with
  | nil => cases hb
  | cons c bs ih =>
    rcases List.mem_cons.1 hb with rfl | hlater
    · exact ((branchesLaid_cons_iff hkind bs).1 h).1
    · obtain ⟨info, span, kind, name, attributes, value, children⟩ := c
      exact ih h.2 hlater

theorem LaidOut.everyLaid {root : Node Facts} (h : LaidOut ctx root prev n) (hroot : root.EveryLaid ctx P none) :
    n.EveryLaid ctx P prev := by
  induction h with
  | root => exact hroot
  | child _ shown undivided split ih =>
    have hchildren := (Node.everyLaid_iff.1 ih).2 shown
    rw [undivided, if_neg Bool.false_ne_true, split] at hchildren
    simpa using hchildren.of_mem
  | branchChild _ shown divided mem branch split ih =>
    have hbranches := (Node.everyLaid_iff.1 ih).2 shown
    rw [divided, if_pos rfl] at hbranches
    have hchildren := hbranches.of_mem mem branch
    rw [split] at hchildren
    simpa using hchildren.of_mem

end

section

variable {ctx : PrintContext} {P : Option (Node Facts) → Node Facts → Prop} {root : Node Facts}

mutual

theorem everyLaid_of_laidOut (h : ∀ prev n, LaidOut ctx root prev n → P prev n) (n : Node Facts)
    {prev : Option (Node Facts)} (hn : LaidOut ctx root prev n) : n.EveryLaid ctx P prev := by
  refine Node.everyLaid_iff.2 ⟨h prev n hn, fun hshown => ?_⟩
  obtain ⟨info, span, kind, name, attributes, value, children⟩ := n
  split
  next hdivided =>
    exact branchesLaid_of_laidOut h children fun b hb name markup opener hkind before m after hsplit =>
      .branchChild hn hshown hdivided hb hkind hsplit
  next hundivided =>
    exact siblingsLaid_of_laidOut h children [] fun before m after hsplit =>
      .child hn hshown (Bool.eq_false_iff.2 hundivided) hsplit

theorem siblingsLaid_of_laidOut (h : ∀ prev n, LaidOut ctx root prev n → P prev n) (ns earlier : List (Node Facts))
    (hns : ∀ before m after, earlier ++ ns = before ++ m :: after → LaidOut ctx root before.getLast? m) :
    SiblingsLaid ctx P earlier.getLast? ns := by
  cases ns with
  | nil => trivial
  | cons n ns =>
    have hrest := siblingsLaid_of_laidOut h ns (earlier ++ [n]) (by simpa using hns)
    rw [List.getLast?_concat] at hrest
    exact ⟨everyLaid_of_laidOut h n (hns earlier n ns rfl), hrest⟩

theorem branchesLaid_of_laidOut (h : ∀ prev n, LaidOut ctx root prev n → P prev n) (bs : List (Node Facts))
    (hbs : ∀ b ∈ bs, ∀ name markup opener, b.kind = .branch name markup opener → ∀ before m after,
      b.children = before ++ m :: after → LaidOut ctx root before.getLast? m) : BranchesLaid ctx P bs := by
  cases bs with
  | nil => trivial
  | cons b bs =>
    obtain ⟨hb, hrest⟩ := List.forall_mem_cons.1 hbs
    obtain ⟨info, span, kind, name, attributes, value, children⟩ := b
    refine ⟨?_, branchesLaid_of_laidOut h bs hrest⟩
    split
    next hkind => exact siblingsLaid_of_laidOut h children [] (by simpa using hb _ _ _ rfl)
    · trivial

end

/-- **A property of everything that is laid out** can be followed down the tree. -/
theorem everyLaid_root_iff : root.EveryLaid ctx P none ↔ ∀ prev n, LaidOut ctx root prev n → P prev n :=
  ⟨fun h _ _ hn => (Node.everyLaid_iff.1 (hn.everyLaid h)).1, fun h => everyLaid_of_laidOut h root .root⟩

end

end LiquidTemplate
