import LiquidTemplate.Print.Node
import LiquidTemplate.Proofs.Grammar.TagNames
import LiquidTemplate.Proofs.Nesting.Branches
import LiquidTemplate.Proofs.Nesting.Formed
import LiquidTemplate.Proofs.Whitespace.Annotated

/-!
# Nodes with what they stand in

The nodes that are reached from a root through children, in the order of the template, each with the nodes around
it (`Node.lineages`). What printing does for a node depends on these: a node that is ignored or kept as it stands
hides what is below it. `filterMap_lineages` says what is picked from a tree if only some nodes let through to
their children.
-/

namespace LiquidTemplate

/-- A node and the sibling before it. -/
structure Spot where
  prev : Option (Node Unit)
  node : Node Unit

/-- A node and the nodes that it stands in, from the inside out. -/
abbrev Lineage : Type :=
  List Spot

/-- A remark right before the node asks to leave it alone. -/
def Spot.isIgnored (o : Options) (s : Spot) : Bool :=
  (s.prev.bind Node.remark?).any fun text => Text.trim text = o.ignoreDirective

namespace Node

mutual

/-- A node and all nodes that are reached from it through children. -/
def lineages (outer : Lineage) (prev : Option (Node Unit)) : Node Unit → List Lineage
  | ⟨info, span, kind, name, attributes, value, children⟩ =>
    let here : Spot := ⟨prev, ⟨info, span, kind, name, attributes, value, children⟩⟩
    (here :: outer) :: lineagesOf (here :: outer) none children

def lineagesOf (outer : Lineage) (prev : Option (Node Unit)) : List (Node Unit) → List Lineage
  | [] => []
  | n :: ns => n.lineages outer prev ++ lineagesOf outer (some n) ns

end

theorem lineages_eq (outer : Lineage) (prev : Option (Node Unit)) (n : Node Unit) :
    n.lineages outer prev = (⟨prev, n⟩ :: outer) :: lineagesOf (⟨prev, n⟩ :: outer) none n.children := by
  cases n
  rw [lineages]

mutual

theorem exists_of_mem_lineages (n : Node Unit) {outer l : Lineage} {prev : Option (Node Unit)}
    (h : l ∈ n.lineages outer prev) : ∃ here around, l = here :: around ∧ outer <:+ around := by
  obtain ⟨info, span, kind, name, attributes, value, children⟩ := n
  rw [lineages] at h
  rcases List.mem_cons.1 h with rfl | h
  · exact ⟨_, outer, rfl, List.suffix_refl _⟩
  · obtain ⟨here, around, rfl, hsuffix⟩ := exists_of_mem_lineagesOf children h
    exact ⟨here, around, rfl, (List.suffix_cons _ _).trans hsuffix⟩

theorem exists_of_mem_lineagesOf (ns : List (Node Unit)) {outer l : Lineage} {prev : Option (Node Unit)}
    (h : l ∈ lineagesOf outer prev ns) : ∃ here around, l = here :: around ∧ outer <:+ around := by
  cases ns with
  | nil => cases h
  | cons n ns =>
    rw [lineagesOf] at h
    rcases List.mem_append.1 h with h | h
    · exact exists_of_mem_lineages n h
    · exact exists_of_mem_lineagesOf ns h

end

end Node

/-! ## Picking -/

/-- What a node gives, if all nodes around it let through. -/
def Lineage.pick {β : Type} (through : Spot → Bool) (give : Lineage → Spot → Option β) : Lineage → Option β
  | [] => none
  | here :: around => if around.all through then give around here else none

section

variable {β : Type} {through : Spot → Bool} {give : Lineage → Spot → Option β} {outer : Lineage}

theorem filterMap_lineagesOf_eq_nil (prev : Option (Node Unit)) (ns : List (Node Unit))
    (h : outer.all through = false) : (Node.lineagesOf outer prev ns).filterMap (Lineage.pick through give) = [] := by
  rw [List.filterMap_eq_nil_iff]
  intro l hl
  obtain ⟨here, around, rfl, hsuffix⟩ := Node.exists_of_mem_lineagesOf ns hl
  have haround : around.all through = false := by
    obtain ⟨inner, rfl⟩ := hsuffix
    rw [List.all_append, h, Bool.and_false]
  simp [Lineage.pick, haround]

/-- **What is picked from a tree**: what the node gives, and what its children give if it lets through. -/
theorem filterMap_lineages (prev : Option (Node Unit)) (n : Node Unit) (h : outer.all through = true) :
    (n.lineages outer prev).filterMap (Lineage.pick through give) =
      (give outer ⟨prev, n⟩).toList ++
        if through ⟨prev, n⟩ then
          (Node.lineagesOf (⟨prev, n⟩ :: outer) none n.children).filterMap (Lineage.pick through give)
        else [] := by
  have hhere : (Lineage.pick through give (⟨prev, n⟩ :: outer)) = give outer ⟨prev, n⟩ := if_pos h
  have hbelow : through ⟨prev, n⟩ = false →
      (Node.lineagesOf (⟨prev, n⟩ :: outer) none n.children).filterMap (Lineage.pick through give) = [] := by
    intro hclosed
    exact filterMap_lineagesOf_eq_nil none _ (by rw [List.all_cons, hclosed, Bool.false_and])
  rw [Node.lineages_eq, List.filterMap_cons, hhere]
  by_cases hopen : through ⟨prev, n⟩ = true
  · rw [if_pos hopen]
    cases give outer ⟨prev, n⟩ <;> rfl
  · rw [if_neg hopen, hbelow (Bool.eq_false_iff.2 hopen)]
    cases give outer ⟨prev, n⟩ <;> rfl

theorem filterMap_lineagesOf_cons (prev : Option (Node Unit)) (n : Node Unit) (ns : List (Node Unit)) :
    (Node.lineagesOf outer prev (n :: ns)).filterMap (Lineage.pick through give) =
      (n.lineages outer prev).filterMap (Lineage.pick through give) ++
        (Node.lineagesOf outer (some n) ns).filterMap (Lineage.pick through give) := by
  rw [Node.lineagesOf, List.filterMap_append]

end

/-! ## Where children are -/

def Kind.hasBody : Kind → Bool
  | .document | .element _ _ | .block _ _ _ _ | .branch _ _ _ => true
  | _ => false

def Kind.isDivided : Kind → Bool
  | .block name _ _ _ => isBranchedTag name
  | _ => false

namespace Node

/-- The children of a divided tag are branches, those of other nodes are not, and most kinds of nodes have none. -/
structure Arranged (n : Node Unit) : Prop where
  childless : n.kind.hasBody = false → n.children = []
  divided : n.kind.isDivided = true → ∀ c ∈ n.children, c.isBranch = true
  undivided : n.kind.isDivided = false → ∀ c ∈ n.children, c.isBranch = false

theorem exists_of_isBranch {n : Node Unit} (h : n.isBranch = true) :
    ∃ name markup opener, n.kind = .branch name markup opener := by
  unfold isBranch at h
  split at h
  next name markup opener hkind => exact ⟨name, markup, opener, hkind⟩
  next => cases h

theorem Divided.isBranch {ns : List (Node Unit)} (h : Divided ns) : ∀ c ∈ ns, c.isBranch = true := by
  obtain ⟨first, rest, rfl, ⟨markup, opener, hfirst⟩, hrest⟩ := h
  refine List.forall_mem_cons.2 ⟨by rw [Node.isBranch, hfirst], fun c hc => ?_⟩
  obtain ⟨name, markup, opener, hkind, -⟩ := hrest c hc
  rw [Node.isBranch, hkind]

theorem Formed.arranged {P : Token → Prop} {B : Nat → Prop} {n : Node Unit} (h : n.Formed P B) : n.Arranged := by
  cases h with
  | document _ undivided => exact ⟨nofun, nofun, fun _ => undivided⟩
  | leaf => exact ⟨fun _ => rfl, by simp, by simp⟩
  | element _ _ _ undivided => exact ⟨nofun, nofun, fun _ => (List.forall_mem_append.1 undivided).2⟩
  | block _ _ _ plain undivided =>
    refine ⟨nofun, fun hdivided => ?_, fun _ => undivided⟩
    simp only [Kind.isDivided, plain, Bool.false_eq_true] at hdivided
  | branched _ _ _ branched divided =>
    refine ⟨nofun, fun _ => divided.isBranch, fun hundivided => ?_⟩
    simp only [Kind.isDivided, branched, Bool.true_eq_false] at hundivided
  | branch _ _ undivided => exact ⟨nofun, nofun, fun _ => undivided⟩

end Node

theorem arranged_of_parse {source : String} {strictness : Strictness} {d : Document Unit}
    (h : Document.parse source strictness = .ok d) : ∀ n ∈ d.root.preorder, n.Arranged := by
  obtain ⟨tokens, htokens⟩ := ofSource_of_parse h
  intro n hn
  exact (formed_of_parse (B := fun _ => True) (fun _ _ => ⟨trivial, trivial⟩) ⟨trivial, trivial⟩ htokens
    (unbranched_of_ofSource htokens) h n hn).arranged

/-- A property of a node and of all nodes that are reached from it through children. -/
inductive Node.Through (P : Node Unit → Prop) : Node Unit → Prop where
  | mk {n : Node Unit} (own : P n) (below : ∀ c ∈ n.children, c.Through P) : n.Through P

namespace Node.Through

variable {P : Node Unit → Prop} {n : Node Unit}

theorem own (h : n.Through P) : P n := by
  cases h
  assumption

theorem inside (h : n.Through P) : ∀ c ∈ n.children, c.Through P := by
  cases h
  assumption

theorem imp {Q : Node Unit → Prop} (h : n.Through P) (himp : ∀ m, P m → Q m) : n.Through Q := by
  induction h with
  | mk own _ ih => exact .mk (himp _ own) ih

end Node.Through

/-- A node without a body stands for a token with the property `Q`. -/
def Node.LeafOf (Q : Token → Prop) (n : Node Unit) : Prop :=
  n.kind.hasBody = false → ∃ t, Q t ∧ t.leafKind? = some n.kind

/-- A node without a body stands for a token with the property `Q`, and a token with it opens a tag with a body. -/
structure Node.StandsFor (Q : Token → Prop) (n : Node Unit) : Prop where
  leaf : n.LeafOf Q
  block : ∀ name markup opener closer, n.kind = .block name markup opener closer → Q (.blockOpen opener name markup)

/-- The nodes that are derived from tokens, as far as children lead, are branches or derived themselves. -/
theorem Derives.through_derivedFrom {Q : Token → Prop} {phrase : Phrase} {ts : List Token} {ns : List (Node Unit)}
    (h : Derives phrase ts ns) (hts : ∀ t ∈ ts, Q t) :
    ∀ n ∈ ns, n.Through fun k => k.isBranch = false → k.DerivedFrom Q := by
  induction h with
  | nil => simp
  | cons _ _ ih ih' =>
    obtain ⟨hts, hus⟩ := List.forall_mem_append.1 hts
    exact List.forall_mem_cons.2 ⟨ih hts _ (List.mem_singleton_self _), ih' hus⟩
  | leaf isLeaf names items values =>
    rw [List.forall_mem_singleton]
    exact .mk (fun _ => ⟨_, hts, .leaf isLeaf names items values⟩) (by simp)
  | element names items inside closerNames same _ _ ih =>
    rw [List.forall_mem_singleton]
    exact .mk (fun _ => ⟨_, hts, .element names items inside closerNames same⟩) (ih fun t ht => hts t (by simp [ht]))
  | block undivided inside ih =>
    rw [List.forall_mem_singleton]
    exact .mk (fun _ => ⟨_, hts, .block undivided inside⟩) (ih fun t ht => hts t (by simp [ht]))
  | branched divided inside ih =>
    rw [List.forall_mem_singleton]
    exact .mk (fun _ => ⟨_, hts, .branched divided inside⟩) (ih fun t ht => hts t (by simp [ht]))
  | lastBranch _ ih =>
    rw [List.forall_mem_singleton]
    exact .mk nofun (ih hts)
  | nextBranch _ _ _ ih ih' =>
    refine List.forall_mem_cons.2 ⟨.mk nofun (ih fun t ht => hts t (by simp [ht])), ?_⟩
    exact ih' fun t ht => hts t (by simp [ht])

theorem Node.DerivedFrom.standsFor {Q : Token → Prop} {n : Node Unit} (h : n.DerivedFrom Q) : n.StandsFor Q := by
  obtain ⟨ts, hts, h⟩ := h
  cases h with
  | leaf isLeaf =>
    rw [List.forall_mem_singleton] at hts
    exact ⟨fun _ => ⟨_, hts, isLeaf⟩, fun _ _ _ _ hkind => (Token.leafKind?_ne_block isLeaf hkind).elim⟩
  | element => exact ⟨nofun, nofun⟩
  | block | branched =>
    refine ⟨nofun, fun name markup opener closer hkind => ?_⟩
    cases hkind
    exact hts _ List.mem_cons_self

theorem Derives.through_standsFor {Q : Token → Prop} {phrase : Phrase} {ts : List Token} {ns : List (Node Unit)}
    (h : Derives phrase ts ns) (hts : ∀ t ∈ ts, Q t) : ∀ n ∈ ns, n.Through (Node.StandsFor Q) := by
  refine fun n hn => (h.through_derivedFrom hts n hn).imp fun k hk => ?_
  cases hbranch : k.isBranch with
  | false => exact (hk hbranch).standsFor
  | true =>
    obtain ⟨name, markup, opener, hkind⟩ := Node.exists_of_isBranch hbranch
    refine ⟨fun hbody => ?_, fun _ _ _ _ hblock => ?_⟩
    · rw [hkind] at hbody
      cases hbody
    · rw [hkind] at hblock
      cases hblock

theorem Derives.through {Q : Token → Prop} {phrase : Phrase} {ts : List Token} {ns : List (Node Unit)}
    (h : Derives phrase ts ns) (hts : ∀ t ∈ ts, Q t) : ∀ n ∈ ns, n.Through (Node.LeafOf Q) :=
  fun n hn => (h.through_standsFor hts n hn).imp fun _ hm => hm.leaf

/-! ## Annotated nodes -/

namespace Node

variable {s : Sensitivity} {source : List Char} {m : Node Unit} {n : Node Facts}

theorem remark?_of_kind {α β : Type} {n : Node α} {m : Node β} (h : n.kind = m.kind) : n.remark? = m.remark? := by
  rw [remark?, remark?, h]

theorem map_written_withDisplays {α : Type} (before : Option (Node α)) (ns : List (Node α)) :
    (withDisplays s before ns).map written = ns.map written := by
  induction ns generalizing before with
  | nil => rfl
  | cons n ns ih =>
    cases n
    rw [withDisplays, List.map_cons, List.map_cons, ih]
    rfl

theorem whiteSpace_withDisplay {α : Type} (before : Option (Node α)) (n : Node α) :
    (n.withDisplay s before).whiteSpace = n.whiteSpace := by
  have hname : (n.withDisplay s before).spelledName = n.spelledName := by
    cases n
    rw [spelledName, spelledName, withDisplay, map_written_withDisplays]
  rw [whiteSpace, whiteSpace, hname, kind_withDisplay]

theorem Annotates.keepsLayout (h : m.Annotates s source n) : n.info.keepsLayout = m.whiteSpace.isPreLike := by
  obtain ⟨before, around, prev, next, rfl⟩ := h
  rw [← whiteSpace_withDisplay before m]
  cases m
  rfl

end Node

theorem isIgnored_branch {o : Options} {prev : Option (Node Unit)} {b : Node Unit} (h : ∀ p ∈ prev, p.isBranch = true) :
    Spot.isIgnored o ⟨prev, b⟩ = false := by
  cases prev with
  | none => rfl
  | some p =>
    obtain ⟨name, markup, opener, hkind⟩ := Node.exists_of_isBranch (h p rfl)
    rw [Spot.isIgnored, Option.bind_some, Node.remark?, hkind]
    rfl

theorem isIgnored_eq (ctx : PrintContext) {s : Sensitivity} {source : List Char} {prev : Option (Node Unit)}
    {before : Option (Node Facts)} (h : Option.Rel (Node.Annotates s source) prev before) (m : Node Unit) :
    isIgnored ctx before = Spot.isIgnored ctx.options ⟨prev, m⟩ := by
  cases h with
  | some h =>
    rw [isIgnored, Spot.isIgnored, Option.bind_some, Option.bind_some, Node.remark?_of_kind h.kind]
  | none => rfl

end LiquidTemplate
