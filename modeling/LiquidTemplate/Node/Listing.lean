import LiquidTemplate.Node.Basic

/-!
# Listing a tree

The nodes of a tree in the order in which they start: a node comes before the fragments of its name, its
attributes, the fragments of its value and its children, in this order. The place in the list is the number
of a node, so the nodes of a subtree have consecutive numbers. An entry links each node by number to the
nodes around it and inside it.
-/

namespace LiquidTemplate

/-- A node with its number and the numbers of the nodes it is linked to. -/
structure Entry (α : Type) where
  number : Nat
  node : Node α
  parent : Option Nat
  /-- The node before this one in the same list. -/
  prev : Option Nat
  /-- The node after this one in the same list. -/
  next : Option Nat
  name : List Nat
  attributes : List Nat
  value : List Nat
  children : List Nat
deriving Repr, Inhabited

namespace Node

variable {α : Type}

/-- The numbers of the nodes of a list whose first node has the number `start`. -/
def numbers (start : Nat) : List (Node α) → List Nat
  | [] => []
  | n :: ns => start :: numbers (start + n.size) ns

mutual

/-- The entries of a tree whose root has the given number and links. -/
def entries (number : Nat) (parent prev next : Option Nat) : Node α → List (Entry α)
  | ⟨info, span, kind, name, attributes, value, children⟩ =>
    let nameStart := number + 1
    let attributesStart := nameStart + sizes name
    let valueStart := attributesStart + sizes attributes
    let childrenStart := valueStart + sizes value
    { number := number, node := ⟨info, span, kind, name, attributes, value, children⟩,
      parent := parent, prev := prev, next := next,
      name := numbers nameStart name, attributes := numbers attributesStart attributes,
      value := numbers valueStart value, children := numbers childrenStart children } ::
      (entriesFrom nameStart number none name ++ entriesFrom attributesStart number none attributes ++
        entriesFrom valueStart number none value ++ entriesFrom childrenStart number none children)

/-- The entries of the nodes of a list whose first node has the number `start`. -/
def entriesFrom (start parent : Nat) (prev : Option Nat) : List (Node α) → List (Entry α)
  | [] => []
  | n :: ns =>
    let after := start + n.size
    entries start (some parent) prev (if ns.isEmpty then none else some after) n ++
      entriesFrom after parent (some start) ns

end

end Node

/-- All nodes of a document by number. -/
def Document.entries {α : Type} (d : Document α) : List (Entry α) :=
  d.root.entries 0 none none none

end LiquidTemplate
