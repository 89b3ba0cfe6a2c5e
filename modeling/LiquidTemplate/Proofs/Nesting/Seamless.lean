import LiquidTemplate.Proofs.Nesting.Rooms

/-!
# Nesting without gaps

Tokens that follow each other without a gap are nested without gaps: what they stand for covers the same range, and in
every tag with a body the opening tag, what is in the body and the closing tag follow each other too. `Node.tagRanges`
lists these parts of a tag over all of its branches, and `Derives.joins` says that they cover the range of the tag.
-/

namespace LiquidTemplate

/-- Ranges that cover all that is between two offsets, each one from where the one before it ends. -/
abbrev Gapless (start : Nat) (spans : List Span) (stop : Nat) : Prop :=
  Strung (· = ·) start spans stop

namespace Gapless

variable {a b : Nat} {ss ss' : List Span}

theorem append_iff : Gapless a (ss ++ ss') b ↔ ∃ m, Gapless a ss m ∧ Gapless m ss' b := by
  induction ss generalizing a with
  | nil =>
    constructor
    · exact fun h => ⟨a, rfl, h⟩
    · rintro ⟨m, rfl, h⟩
      exact h
  | cons s ss ih =>
    simp only [List.cons_append, Strung, ih]
    constructor
    · rintro ⟨hstart, hle, m, hss, hss'⟩
      exact ⟨m, ⟨hstart, hle, hss⟩, hss'⟩
    · rintro ⟨m, ⟨hstart, hle, hss⟩, hss'⟩
      exact ⟨hstart, hle, m, hss, hss'⟩

theorem le (h : Gapless a ss b) : a ≤ b :=
  Strung.le (fun _ _ => Nat.le_of_eq) h

end Gapless

/-! ## The parts of a tag -/

namespace Node

variable {α : Type}

/-- The parts of a branch: the tag that starts it, if there is one, and its children. -/
def branchRanges (n : Node α) : List Span :=
  match n.kind with
  | .branch none _ _ => n.children.map span
  | .branch (some _) _ opener => opener.span :: n.children.map span
  | _ => [n.span]

/-- The parts of a tag with a body: its opening tag, those of its branches, and its closing tag. -/
def tagRanges (n : Node α) : List Span :=
  match n.kind with
  | .block _ _ opener closer => opener.span :: (n.children.flatMap branchRanges ++ (closer.map (·.span)).toList)
  | _ => [n.span]

/-- A tag with a body is closed, and there is no gap between its parts. -/
def IsJoined (n : Node α) : Prop :=
  ∀ name markup opener closer, n.kind = .block name markup opener closer →
    closer.isSome = true ∧ Gapless n.span.start n.tagRanges n.span.stop

/-- No tag has a gap between its parts, from a node on down to all that is in it. -/
inductive Seamless : Node Unit → Prop where
  | mk {n : Node Unit} (joined : n.IsJoined) (inside : ∀ c ∈ n.children, c.Seamless) : n.Seamless

theorem Seamless.own {n : Node Unit} (h : n.Seamless) : n.IsJoined := by
  cases h
  assumption

theorem Seamless.children {n : Node Unit} (h : n.Seamless) : ∀ c ∈ n.children, c.Seamless := by
  cases h
  assumption

theorem Seamless.of_reaches {n m : Node Unit} (h : n.Seamless) (hm : n.Reaches m) : m.Seamless := by
  induction hm with
  | self => exact h
  | child _ mem ih => exact ih.children _ mem

theorem flatMap_branchRanges {ns : List (Node α)} (h : ∀ n ∈ ns, n.kind.isBranch = false) :
    ns.flatMap branchRanges = ns.map span := by
  induction ns with
  | nil => rfl
  | cons n ns ih =>
    obtain ⟨hn, hns⟩ := List.forall_mem_cons.1 h
    have hrange : n.branchRanges = [n.span] := by
      unfold branchRanges
      split
      next hkind =>
        rw [hkind] at hn
        cases hn
      next hkind =>
        rw [hkind] at hn
        cases hn
      next => rfl
    rw [List.flatMap_cons, hrange, ih hns]
    rfl

end Node

/-! ## Derived nodes -/

/-- What is known of the nodes that a phrase stands for, if its tokens cover a range. -/
def Phrase.Joins (spans : List Span) (ns : List (Node Unit)) : Phrase → Prop
  | sequence | item => ∀ a b, Gapless a spans b → ∀ n ∈ ns, n.Seamless
  | branches name _ opener _ => ∀ b, opener.span.start ≤ opener.span.stop → Gapless opener.span.stop spans b →
    Gapless (if name.isSome then opener.span.start else opener.span.stop) (ns.flatMap Node.branchRanges) b ∧
      ∀ n ∈ ns, n.Seamless

namespace Derives

open Node

theorem gapless {ts : List Token} {ns : List (Node Unit)} {a b : Nat} (h : Derives .sequence ts ns)
    (hts : Gapless a (ts.map Token.span) b) : Gapless a (ns.map Node.span) b := by
  have hfills := h.fills (R := (· = ·)) (fun _ _ => Nat.le_of_eq) a b []
  rw [List.append_nil, List.append_nil] at hfills
  exact (hfills hts).1

/-- A branch covers what its children cover, with the tag that starts it. -/
theorem gapless_branchOf {name : Option String} {markup : Markup} {opener : Delimiter} {children : List (Node Unit)}
    {next b : Nat} (hopener : opener.span.start ≤ opener.span.stop)
    (h : Gapless opener.span.stop (children.map Node.span) b) :
    Gapless (if name.isSome then opener.span.start else opener.span.stop)
      (branchOf name markup opener children next).branchRanges b := by
  cases name with
  | none => exact h
  | some name => exact ⟨rfl, hopener, h⟩

theorem seamless_branchOf {name : Option String} {markup : Markup} {opener : Delimiter} {children : List (Node Unit)}
    {next : Nat} (h : ∀ c ∈ children, c.Seamless) : (branchOf name markup opener children next).Seamless :=
  ⟨nofun, h⟩

/-- **Tokens without gaps are nested without gaps.** -/
theorem joins {phrase : Phrase} {ts : List Token} {ns : List (Node Unit)} (h : Derives phrase ts ns) :
    phrase.Joins (ts.map Token.span) ns := by
  induction h with
  | nil => exact fun a b _ => by simp
  | cons _ _ ih ih' =>
    intro a b hgapless
    rw [List.map_append] at hgapless
    obtain ⟨m, hfirst, hrest⟩ := Gapless.append_iff.1 hgapless
    exact List.forall_mem_cons.2 ⟨ih a m hfirst _ (List.mem_singleton_self _), ih' m b hrest⟩
  | leaf isLeaf =>
    intro a b _
    refine List.forall_mem_singleton.2 ⟨fun name markup opener closer hkind => ?_, by simp⟩
    exact absurd hkind (Token.leafKind?_ne_block isLeaf)
  | element _ _ _ _ _ _ _ ih =>
    intro a b hgapless
    rw [List.map_cons, List.map_append] at hgapless
    obtain ⟨-, -, hbody⟩ := hgapless
    obtain ⟨m, hbody, -⟩ := Gapless.append_iff.1 hbody
    exact List.forall_mem_singleton.2 ⟨nofun, ih _ m hbody⟩
  | @block opener closer name markup body children undivided inside ih =>
    intro a b hgapless
    rw [List.map_cons, List.map_append] at hgapless
    obtain ⟨-, hopener, hbody⟩ := hgapless
    obtain ⟨m, hbody, hcloser, hle, -⟩ := Gapless.append_iff.1 hbody
    refine List.forall_mem_singleton.2 ⟨?_, ih _ m hbody⟩
    rintro _ _ _ _ ⟨⟩
    refine ⟨rfl, rfl, hopener, Gapless.append_iff.2 ⟨m, ?_, hcloser, hle, rfl⟩⟩
    rw [flatMap_branchRanges inside.undivided]
    exact inside.gapless hbody
  | @branched opener closer name markup body branches divided inside ih =>
    intro a b hgapless
    rw [List.map_cons, List.map_append] at hgapless
    obtain ⟨-, hopener, hbody⟩ := hgapless
    obtain ⟨m, hbody, hcloser, hle, -⟩ := Gapless.append_iff.1 hbody
    obtain ⟨hbranches, hinside⟩ := ih m (Nat.le_refl _) hbody
    refine List.forall_mem_singleton.2 ⟨?_, hinside⟩
    rintro _ _ _ _ ⟨⟩
    exact ⟨rfl, rfl, hopener, Gapless.append_iff.2 ⟨m, hbranches, hcloser, hle, rfl⟩⟩
  | lastBranch inside ih =>
    intro b hopener hgapless
    rw [List.flatMap_singleton]
    exact ⟨gapless_branchOf hopener (inside.gapless hgapless),
      List.forall_mem_singleton.2 (seamless_branchOf (ih _ b hgapless))⟩
  | nextBranch _ inside _ ih ih' =>
    intro b hopener hgapless
    rw [List.map_append, List.map_cons] at hgapless
    obtain ⟨m, hbody, rfl, hnext, hothers⟩ := Gapless.append_iff.1 hgapless
    obtain ⟨hbranches, hinside⟩ := ih' b hnext hothers
    rw [List.flatMap_cons]
    exact ⟨Gapless.append_iff.2 ⟨_, gapless_branchOf hopener (inside.gapless hbody), hbranches⟩,
      List.forall_mem_cons.2 ⟨seamless_branchOf (ih _ _ hbody), hinside⟩⟩

end Derives

end LiquidTemplate
