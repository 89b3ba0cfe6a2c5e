import LiquidTemplate.Proofs.Nesting.Derivation

/-!
# The shape of derived nodes

What the grammar of nesting says about a single node: its children are derived themselves, and a branched tag
has a branch without a name first and branches with a name after it.
-/

namespace LiquidTemplate

def Node.IsDerived (n : Node Unit) : Prop :=
  ∃ ts, Derives .item ts [n]

/-- A node that tokens with the property `Q` stand for. -/
def Node.DerivedFrom (Q : Token → Prop) (n : Node Unit) : Prop :=
  ∃ ts, (∀ t ∈ ts, Q t) ∧ Derives .item ts [n]

theorem Node.DerivedFrom.isDerived {Q : Token → Prop} {n : Node Unit} (h : n.DerivedFrom Q) : n.IsDerived := by
  obtain ⟨ts, -, h⟩ := h
  exact ⟨ts, h⟩

/-- Branches of a tag: the first one has no name, the others have one, and what is in them is derived. -/
def Node.AreBranches (ns : List (Node Unit)) : Prop :=
  ∃ first rest, ns = first :: rest ∧ (∃ markup opener, first.kind = .branch none markup opener) ∧
    (∀ b ∈ rest, ∃ name markup opener, b.kind = .branch (some name) markup opener) ∧
    ∀ b ∈ ns, ∀ c ∈ b.children, c.IsDerived

theorem Derives.derivedFrom_of_mem {Q : Token → Prop} {ts : List Token} {ns : List (Node Unit)}
    (h : Derives .sequence ts ns) (hts : ∀ t ∈ ts, Q t) : ∀ n ∈ ns, n.DerivedFrom Q := by
  generalize hp : Phrase.sequence = p at h
  induction h with
  | nil => simp
  | cons first rest _ ih =>
    obtain ⟨hts, hus⟩ := List.forall_mem_append.1 hts
    exact List.forall_mem_cons.2 ⟨⟨_, hts, first⟩, ih hus hp⟩
  | leaf | element | block | branched | lastBranch | nextBranch => cases hp

theorem Derives.isDerived_of_mem {ts : List Token} {ns : List (Node Unit)} (h : Derives .sequence ts ns) :
    ∀ n ∈ ns, n.IsDerived :=
  fun n hn => (h.derivedFrom_of_mem (Q := fun _ => True) (fun _ _ => trivial) n hn).isDerived

theorem Derives.branches_shape {name : Option String} {markup : Markup} {opener : Delimiter} {stop : Nat}
    {ts : List Token} {ns : List (Node Unit)} (h : Derives (.branches name markup opener stop) ts ns) :
    ∃ first rest, ns = first :: rest ∧ first.kind = .branch name markup opener ∧
      (∀ b ∈ rest, ∃ name markup opener, b.kind = .branch (some name) markup opener) ∧
      ∀ b ∈ ns, ∀ c ∈ b.children, c.IsDerived := by
  generalize hp : Phrase.branches name markup opener stop = p at h
  induction h generalizing name markup opener stop with
  | lastBranch inside =>
    cases hp
    refine ⟨_, [], rfl, rfl, by simp, ?_⟩
    simpa [Node.branchOf] using inside.isDerived_of_mem
  | nextBranch starts inside others _ ih =>
    cases hp
    obtain ⟨second, rest, rfl, hsecond, hrest, hderived⟩ := ih rfl
    refine ⟨_, second :: rest, rfl, rfl, ?_, ?_⟩
    · intro b hb
      rcases List.mem_cons.1 hb with rfl | hb
      · exact ⟨_, _, _, hsecond⟩
      · exact hrest b hb
    · intro b hb
      rcases List.mem_cons.1 hb with rfl | hb
      · simpa [Node.branchOf] using inside.isDerived_of_mem
      · exact hderived b hb
  | nil | cons | leaf | element | block | branched => cases hp

theorem Token.leafKind?_ne_block {t : Token} {kind : Kind} (h : t.leafKind? = some kind) {name : String}
    {markup : Markup} {opener : Delimiter} {closer : Option Delimiter} : kind ≠ .block name markup opener closer := by
  rintro rfl
  cases isLeaf_of_leafKind? h

namespace Node.IsDerived

variable {n : Node Unit} {name : String} {markup : Markup} {opener : Delimiter} {closer : Option Delimiter}

theorem closed (h : n.IsDerived) (hkind : n.kind = .block name markup opener closer) : ∃ d, closer = some d := by
  obtain ⟨ts, h⟩ := h
  cases h with
  | leaf isLeaf => exact (Token.leafKind?_ne_block isLeaf hkind).elim
  | element => cases hkind
  | block => exact ⟨_, (by cases hkind; rfl)⟩
  | branched => exact ⟨_, (by cases hkind; rfl)⟩

theorem areBranches (h : n.IsDerived) (hkind : n.kind = .block name markup opener closer)
    (hname : isBranchedTag name = true) : AreBranches n.children := by
  obtain ⟨ts, h⟩ := h
  cases h with
  | leaf isLeaf => exact (Token.leafKind?_ne_block isLeaf hkind).elim
  | element => cases hkind
  | block undivided =>
    cases hkind
    rw [hname] at undivided
    cases undivided
  | branched _ inside =>
    obtain ⟨first, rest, hns, hfirst, hrest, hderived⟩ := inside.branches_shape
    exact ⟨first, rest, hns, ⟨_, _, hfirst⟩, hrest, hderived⟩

theorem children (h : n.IsDerived)
    (hkind : ∀ name markup opener closer, n.kind = .block name markup opener closer → isBranchedTag name = false) :
    ∀ c ∈ n.children, c.IsDerived := by
  obtain ⟨ts, h⟩ := h
  cases h with
  | leaf => simp
  | element _ _ inside => exact inside.isDerived_of_mem
  | block _ inside => exact inside.isDerived_of_mem
  | branched divided =>
    rw [hkind _ _ _ _ rfl] at divided
    cases divided

end Node.IsDerived

end LiquidTemplate
