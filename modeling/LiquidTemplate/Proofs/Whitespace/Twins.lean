import LiquidTemplate.Proofs.Nesting.Moved
import LiquidTemplate.Proofs.Whitespace.Annotated

/-!
# Facts about moved trees

Whether white space at a node matters depends on what the nodes are, not on where they stand. So a tree and the same
tree moved are annotated alike, except for the facts that tell where the source has white space. `Node.Twins` relates
two annotated nodes that come from one node of a tree, annotated where it stands and where it is moved.
-/

namespace LiquidTemplate

namespace Node

variable {α : Type} {f : Nat → Nat}

/-! ## Displays -/

theorem displayAfter_moved (s : Sensitivity) (prev : Option (Node α)) (n : Node α) :
    displayAfter s (prev.map (moved f)) (n.moved f) = displayAfter s prev n := by
  have hremark : (prev.map (moved f)).bind remark? = prev.bind remark? := by
    cases prev <;> simp
  simp only [displayAfter, hremark, spelledName_moved, kind_moved]
  cases n.kind <;> rfl

mutual

theorem withDisplay_moved (s : Sensitivity) (prev : Option (Node α)) (n : Node α) :
    (n.moved f).withDisplay s (prev.map (moved f)) = (n.withDisplay s prev).moved f := by
  have hdisplay := @displayAfter_moved α f s prev n
  obtain ⟨info, span, kind, name, attributes, value, children⟩ := n
  rw [moved] at hdisplay
  have hname := withDisplays_allMoved s none name
  have hattributes := withDisplays_allMoved s none attributes
  have hvalue := withDisplays_allMoved s none value
  have hchildren := withDisplays_allMoved s none children
  rw [Option.map_none] at hname hattributes hvalue hchildren
  simp only [moved, withDisplay, hdisplay, hname, hattributes, hvalue, hchildren]

theorem withDisplays_allMoved (s : Sensitivity) (prev : Option (Node α)) (ns : List (Node α)) :
    withDisplays s (prev.map (moved f)) (allMoved f ns) = allMoved f (withDisplays s prev ns) := by
  cases ns with
  | nil => rfl
  | cons n ns =>
    simp only [allMoved, withDisplays, withDisplay_moved s prev n]
    rw [← withDisplays_allMoved s (some n) ns, Option.map_some]

end

/-! ## Trim markers -/

@[simp] theorem whiteSpace_moved (n : Node α) : (n.moved f).whiteSpace = n.whiteSpace := by
  simp only [whiteSpace, spelledName_moved, kind_moved]
  cases n.kind <;> rfl

@[simp] theorem trimsBefore_moved (n : Node α) : (n.moved f).trimsBefore = n.trimsBefore := by
  simp only [trimsBefore, kind_moved]
  cases n.kind <;> rfl

@[simp] theorem trimsAfter_moved (n : Node α) : (n.moved f).trimsAfter = n.trimsAfter := by
  simp only [trimsAfter, kind_moved]
  cases n.kind with
  | block name markup opener closer => cases closer <;> rfl
  | _ => rfl

@[simp] theorem trimsFirst_moved (around : Option Enclosure) (n : Node α) :
    (n.moved f).trimsFirst around = n.trimsFirst around := by
  simp only [trimsFirst, kind_moved]
  cases n.kind with
  | branch name markup opener => cases name <;> rfl
  | _ => rfl

@[simp] theorem trimsLast_moved (around : Option Enclosure) (next : Option (Node α)) (n : Node α) :
    (n.moved f).trimsLast around (next.map (moved f)) = n.trimsLast around next := by
  simp only [trimsLast, kind_moved]
  cases n.kind with
  | block name markup opener closer => cases closer <;> rfl
  | branch name markup opener => cases next <;> simp [Kind.moved]
  | _ => rfl

@[simp] theorem isScriptLike_moved (n : Node α) : (n.moved f).isScriptLike = n.isScriptLike := by
  simp only [isScriptLike, kind_moved]
  cases n.kind <;> rfl

@[simp] theorem isLineBreak_moved (n : Node α) : (n.moved f).isLineBreak = n.isLineBreak := by
  simp only [isLineBreak, kind_moved]
  cases n.kind <;> rfl

/-! ## Where white space matters -/

theorem sideMatters_moved (around : Option Enclosure) (neighbour : Option (Node Display)) (trimmed inside : Bool)
    (n : Node Display) :
    sideMatters around (neighbour.map (moved f)) trimmed inside (n.moved f) =
      sideMatters around neighbour trimmed inside n := by
  cases neighbour <;> simp [sideMatters, isOpenTo]

theorem leadingMatters_moved (around : Option Enclosure) (prev : Option (Node Display)) (n : Node Display) :
    (n.moved f).leadingMatters around (prev.map (moved f)) = n.leadingMatters around prev := by
  simp only [leadingMatters, sideMatters_moved, trimsBefore_moved]
  cases prev <;> simp

theorem trailingMatters_moved (around : Option Enclosure) (next : Option (Node Display)) (n : Node Display) :
    (n.moved f).trailingMatters around (next.map (moved f)) = n.trailingMatters around next := by
  simp only [trailingMatters, sideMatters_moved, trimsAfter_moved, isLineBreak_moved]
  cases next <;> simp

theorem danglingMatters_moved (around : Option Enclosure) (next : Option (Node Display)) (n : Node Display) :
    (n.moved f).danglingMatters around (next.map (moved f)) = n.danglingMatters around next := by
  simp only [danglingMatters, info_moved, isScriptLike_moved, trimsFirst_moved, trimsLast_moved]

theorem enclosure_moved (around : Option Enclosure) (next : Option (Node Display)) (n : Node Display) :
    (n.moved f).enclosure around (next.map (moved f)) = n.enclosure around next := by
  simp only [enclosure, info_moved, whiteSpace_moved, trimsFirst_moved, trimsLast_moved]

/-! ## Twins -/

/-- Two annotated nodes that come from one node, annotated in one source where it stands, and in another source where it
is moved. -/
def Twins (s : Sensitivity) (f : Nat → Nat) (a b : List Char) (m : Node Unit) (n n' : Node Facts) : Prop :=
  ∃ (before : Option (Node Unit)) (around : Option Enclosure) (prev next : Option (Node Display)),
    n = (m.withDisplay s before).withFacts a around prev next ∧
      n' = ((m.withDisplay s before).moved f).withFacts b around (prev.map (moved f)) (next.map (moved f))

inductive AllTwins (s : Sensitivity) (f : Nat → Nat) (a b : List Char) :
    List (Node Unit) → List (Node Facts) → List (Node Facts) → Prop where
  | nil : AllTwins s f a b [] [] []
  | cons {m : Node Unit} {n n' : Node Facts} {ms : List (Node Unit)} {ns ns' : List (Node Facts)}
      (first : Twins s f a b m n n') (rest : AllTwins s f a b ms ns ns') :
      AllTwins s f a b (m :: ms) (n :: ns) (n' :: ns')

variable {s : Sensitivity} {a b : List Char}

theorem allTwins_withAllFacts (ms : List (Node Unit)) (before : Option (Node Unit)) (around : Enclosure)
    (prev : Option (Node Display)) :
    AllTwins s f a b ms (withAllFacts a around prev (withDisplays s before ms))
      (withAllFacts b around (prev.map (moved f)) (allMoved f (withDisplays s before ms))) := by
  induction ms generalizing before prev with
  | nil => exact .nil
  | cons m ms ih =>
    simp only [withDisplays, allMoved, withAllFacts]
    refine .cons ⟨before, some around, prev, _, rfl, ?_⟩ (ih (some m) _)
    rw [allMoved_eq_map, List.head?_map]

namespace Twins

variable {m : Node Unit} {n n' : Node Facts}

theorem annotates (h : Twins s f a b m n n') : m.Annotates s a n := by
  obtain ⟨before, around, prev, next, rfl, -⟩ := h
  exact ⟨before, around, prev, next, rfl⟩

theorem annotates_moved (h : Twins s f a b m n n') : (m.moved f).Annotates s b n' := by
  obtain ⟨before, around, prev, next, -, rfl⟩ := h
  rw [← withDisplay_moved]
  exact ⟨_, around, _, _, rfl⟩

theorem children (h : Twins s f a b m n n') : AllTwins s f a b m.children n.children n'.children := by
  obtain ⟨before, around, prev, next, rfl, rfl⟩ := h
  have hinside := @enclosure_moved f around next (m.withDisplay s before)
  obtain ⟨info, span, kind, name, attributes, value, children⟩ := m
  simp only [withDisplay, moved, withFacts] at hinside ⊢
  rw [hinside]
  exact allTwins_withAllFacts children none _ none

theorem info_eq (h : Twins s f a b m n n') : n'.info =
    { n.info with
      hasLeading := n'.info.hasLeading, hasTrailing := n'.info.hasTrailing, hasDangling := n'.info.hasDangling } := by
  obtain ⟨before, around, prev, next, rfl, rfl⟩ := h
  have hspace := @whiteSpace_moved Display f (m.withDisplay s before)
  have hleading := @leadingMatters_moved f around prev (m.withDisplay s before)
  have htrailing := @trailingMatters_moved f around next (m.withDisplay s before)
  have hdangling := @danglingMatters_moved f around next (m.withDisplay s before)
  obtain ⟨info, span, kind, name, attributes, value, children⟩ := m
  simp only [withDisplay, moved] at hspace hleading htrailing hdangling
  simp only [withDisplay, moved, withFacts, factsOf, hspace, hleading, htrailing, hdangling]

theorem display_eq (h : Twins s f a b m n n') : n'.info.display = n.info.display :=
  (congrArg Facts.display h.info_eq).trans rfl

theorem keepsLayout_eq (h : Twins s f a b m n n') : n'.info.keepsLayout = n.info.keepsLayout :=
  (congrArg Facts.keepsLayout h.info_eq).trans rfl

theorem leadingMatters_eq (h : Twins s f a b m n n') : n'.info.leadingMatters = n.info.leadingMatters :=
  (congrArg Facts.leadingMatters h.info_eq).trans rfl

theorem trailingMatters_eq (h : Twins s f a b m n n') : n'.info.trailingMatters = n.info.trailingMatters :=
  (congrArg Facts.trailingMatters h.info_eq).trans rfl

theorem danglingMatters_eq (h : Twins s f a b m n n') : n'.info.danglingMatters = n.info.danglingMatters :=
  (congrArg Facts.danglingMatters h.info_eq).trans rfl

theorem kind (h : Twins s f a b m n n') : n.kind = m.kind :=
  h.annotates.kind

theorem kind_moved (h : Twins s f a b m n n') : n'.kind = m.kind.moved f := by
  rw [h.annotates_moved.kind, Node.kind_moved]

theorem span (h : Twins s f a b m n n') : n.span = m.span :=
  h.annotates.span

theorem span_moved (h : Twins s f a b m n n') : n'.span = m.span.moved f := by
  rw [h.annotates_moved.span, Node.span_moved]

end Twins

/-! ## What the facts tell about the source -/

namespace Annotates

variable {source : List Char} {m : Node Unit} {n : Node Facts}

theorem hasLeading (h : m.Annotates s source n) : n.info.hasLeading = m.hasLeadingIn source := by
  obtain ⟨before, around, prev, next, rfl⟩ := h
  cases m
  rfl

theorem hasTrailing (h : m.Annotates s source n) : n.info.hasTrailing = m.hasTrailingIn source := by
  obtain ⟨before, around, prev, next, rfl⟩ := h
  cases m
  rfl

theorem hasDangling (h : m.Annotates s source n) : n.info.hasDangling = m.hasDanglingIn source := by
  obtain ⟨before, around, prev, next, rfl⟩ := h
  obtain ⟨info, span, kind, name, attributes, value, children⟩ := m
  cases children <;> rfl

theorem written_eq (h : m.Annotates s source n) : n.written = m.written := by
  rw [written, written, h.kind]

theorem name (h : m.Annotates s source n) : List.Forall₂ (Annotates s source) m.name n.name := by
  obtain ⟨before, around, prev, next, rfl⟩ := h
  cases m
  exact forall₂_withAllFacts _ none _ none

theorem attributes (h : m.Annotates s source n) : List.Forall₂ (Annotates s source) m.attributes n.attributes := by
  obtain ⟨before, around, prev, next, rfl⟩ := h
  cases m
  exact forall₂_withAllFacts _ none _ none

theorem map_written {ms : List (Node Unit)} {ns : List (Node Facts)} (h : List.Forall₂ (Annotates s source) ms ns) :
    ns.map written = ms.map written := by
  induction h with
  | nil => rfl
  | cons first _ ih => rw [List.map_cons, List.map_cons, first.written_eq, ih]

theorem spelledName_eq (h : m.Annotates s source n) : n.spelledName = m.spelledName := by
  rw [spelledName, spelledName, map_written h.name]

end Annotates

theorem Twins.spelledName_eq {m : Node Unit} {n n' : Node Facts} (h : Twins s f a b m n n') :
    n'.spelledName = n.spelledName := by
  rw [h.annotates_moved.spelledName_eq, h.annotates.spelledName_eq, spelledName_moved]

theorem Twins.isText_eq {m : Node Unit} {n n' : Node Facts} (h : Twins s f a b m n n') : n'.isText = n.isText := by
  rw [isText, isText, h.kind, h.kind_moved]
  cases m.kind <;> rfl

end Node

end LiquidTemplate
