import LiquidTemplate.Node.Basic
import LiquidTemplate.Whitespace.Display

/-!
# White space around nodes

For each node: where the source has white space around or inside it, and where such white space matters.
The displays of all nodes are found first, because whether white space next to a node matters depends on
the displays of its neighbours and of the node around it. `Document.annotate` attaches the facts; it
reads nothing but the tree, so annotating an annotated document again gives the same facts.
-/

namespace LiquidTemplate

/-- What is known about the white space at a node. -/
structure Facts where
  display : Display
  whiteSpace : WhiteSpace
  /-- White space stands before the node. -/
  hasLeading : Bool
  /-- White space stands after the node. -/
  hasTrailing : Bool
  /-- The node has no children, but white space inside. -/
  hasDangling : Bool
  /-- White space before the node matters. -/
  leadingMatters : Bool
  /-- White space after the node matters. -/
  trailingMatters : Bool
  /-- White space inside the node would matter if it had no children. -/
  danglingMatters : Bool
deriving DecidableEq, Repr, Inhabited

/-- The body of the node is printed as it stands. -/
def Facts.keepsLayout (f : Facts) : Bool :=
  f.whiteSpace.isPreLike

/-- What the members of a node need to know about it. -/
structure Enclosure where
  isRoot : Bool
  display : Display
  keepsLayout : Bool
  /-- A trim marker faces the first member. -/
  trimsLeft : Bool
  /-- A trim marker faces the last member. -/
  trimsRight : Bool
deriving DecidableEq, Repr, Inhabited

namespace Node

variable {α : Type}

/-! ## Displays -/

/-- The display of a node after another one. A remark before it may override the default. -/
def displayAfter (s : Sensitivity) (prev : Option (Node α)) (n : Node α) : Display :=
  match (prev.bind remark?).bind displayDirective? with
  | some d => d
  | none =>
    match n.kind with
    | .document | .doctype _ | .frontMatter _ => .block
    | .element _ _ | .selfClosing => s.apply (elementDisplay n.spelledName)
    | .voidElement name | .rawElement name _ _ _ => s.apply (elementDisplay name)
    | .tag name _ _ | .block name _ _ _ | .rawTag name _ _ _ _ => s.apply (tagDisplay name)
    | _ => .inline

mutual

/-- The tree with the display of each node. -/
def withDisplay (s : Sensitivity) (prev : Option (Node α)) : Node α → Node Display
  | ⟨info, span, kind, name, attributes, value, children⟩ =>
    { info := displayAfter s prev ⟨info, span, kind, name, attributes, value, children⟩,
      span := span, kind := kind,
      name := withDisplays s none name, attributes := withDisplays s none attributes,
      value := withDisplays s none value, children := withDisplays s none children }

def withDisplays (s : Sensitivity) (prev : Option (Node α)) : List (Node α) → List (Node Display)
  | [] => []
  | n :: ns => withDisplay s prev n :: withDisplays s (some n) ns

end

/-- How white space inside a node is treated. -/
def whiteSpace (n : Node α) : WhiteSpace :=
  match n.kind with
  | .element _ _ => elementWhiteSpace n.spelledName
  | .rawTag _ _ _ _ _ | .frontMatter _ => .pre
  | .tag name _ _ | .block name _ _ _ => if name = "capture" then .pre else .normal
  | _ => .normal

/-! ## White space in the source -/

/-- White space stands before a node. For a branch, it stands after its opener, where its children start. -/
def hasLeadingIn (source : List Char) (n : Node α) : Bool :=
  match n.kind with
  | .branch _ _ opener => Text.blankAt source opener.span.stop
  | _ => 0 < n.span.start && Text.blankAt source (n.span.start - 1)

def hasTrailingIn (source : List Char) (n : Node α) : Bool :=
  Text.blankAt source n.span.stop

/-- A node without children holds white space. -/
def hasDanglingIn (source : List Char) (n : Node α) : Bool :=
  n.children.isEmpty &&
    match n.kind with
    | .element opener closer => opener.stop < closer.start && Text.blankAt source opener.stop
    | .block _ _ opener (some closer) =>
      opener.span.stop < closer.span.start && Text.blankAt source opener.span.stop
    | .branch _ _ _ => Text.blankAt source n.span.stop
    | _ => false

/-! ## Trim markers -/

/-- A trim marker at the left edge of a node. -/
def trimsBefore (n : Node α) : Bool :=
  match n.kind with
  | .tag _ _ opener | .block _ _ opener _ | .branch _ _ opener | .rawTag _ _ _ opener _ => opener.trimLeft
  | .drop _ _ delimiter => delimiter.trimLeft
  | _ => false

/-- A trim marker at the right edge of a node. -/
def trimsAfter (n : Node α) : Bool :=
  match n.kind with
  | .tag _ _ opener => opener.trimRight
  | .block _ _ opener closer => (closer.getD opener).trimRight
  | .rawTag _ _ _ _ closer => closer.trimRight
  | .drop _ _ delimiter => delimiter.trimRight
  | _ => false

/-- A trim marker that faces the first child. A branch without a name starts where its tag does. -/
def trimsFirst (around : Option Enclosure) (n : Node α) : Bool :=
  match n.kind with
  | .block _ _ opener _ | .rawTag _ _ _ opener _ => opener.trimRight
  | .branch none _ _ => around.any Enclosure.trimsLeft
  | .branch (some _) _ opener => opener.trimRight
  | _ => false

/-- A trim marker that faces the last child. A branch ends where the next one starts or its tag ends. -/
def trimsLast (around : Option Enclosure) (next : Option (Node α)) (n : Node α) : Bool :=
  match n.kind with
  | .block _ _ _ (some closer) | .rawTag _ _ _ _ closer => closer.trimLeft
  | .branch _ _ _ =>
    match next with
    | some next => next.trimsBefore
    | none => around.any Enclosure.trimsRight
  | _ => false

/-! ## Where white space matters -/

/-- White space between two nodes may matter if the neighbour is neither a block nor hidden. -/
def isOpenTo (neighbour : Node Display) : Bool :=
  !neighbour.info.isBlockLike && neighbour.info != .hidden

/-- White space on one side of a node matters. `trimmed` says that a trim marker faces this side, `inside`
that one faces it from the node around. -/
def sideMatters (around : Option Enclosure) (neighbour : Option (Node Display)) (trimmed inside : Bool)
    (n : Node Display) : Bool :=
  if trimmed || n.info = .hidden || n.isScriptLike then false
  else
    match around with
    | none => false
    | some e =>
      if neighbour.isNone && e.display = .hidden then false
      else if e.keepsLayout then true
      else if n.info.isBlockLike then false
      else
        match neighbour with
        | none => !e.isRoot && !inside && e.display.isInnerSensitive
        | some m => isOpenTo m

def leadingMatters (around : Option Enclosure) (prev : Option (Node Display)) (n : Node Display) : Bool :=
  sideMatters around prev (n.trimsBefore || prev.any trimsAfter) (around.any Enclosure.trimsLeft) n

/-- A line break element. -/
def isLineBreak (n : Node α) : Bool :=
  match n.kind with
  | .voidElement name => Text.eqIgnoringCase name "br"
  | _ => false

/-- White space after a node matters, except after a line break. -/
def trailingMatters (around : Option Enclosure) (next : Option (Node Display)) (n : Node Display) : Bool :=
  !n.isLineBreak &&
    sideMatters around next (n.trimsAfter || next.any trimsBefore) (around.any Enclosure.trimsRight) n

def danglingMatters (around : Option Enclosure) (next : Option (Node Display)) (n : Node Display) : Bool :=
  n.info.isInnerSensitive && !n.isScriptLike && !n.trimsFirst around && !n.trimsLast around next

/-! ## Annotation -/

/-- The facts about a node between two others. -/
def factsOf (source : List Char) (around : Option Enclosure) (prev next : Option (Node Display))
    (n : Node Display) : Facts :=
  { display := n.info,
    whiteSpace := n.whiteSpace,
    hasLeading := n.hasLeadingIn source,
    hasTrailing := n.hasTrailingIn source,
    hasDangling := n.hasDanglingIn source,
    leadingMatters := n.leadingMatters around prev,
    trailingMatters := n.trailingMatters around next,
    danglingMatters := n.danglingMatters around next }

/-- A node as its members see it. -/
def enclosure (around : Option Enclosure) (next : Option (Node Display)) (n : Node Display) : Enclosure :=
  { isRoot := around.isNone, display := n.info, keepsLayout := n.whiteSpace.isPreLike,
    trimsLeft := n.trimsFirst around, trimsRight := n.trimsLast around next }

mutual

/-- The tree with the facts about each node. -/
def withFacts (source : List Char) (around : Option Enclosure) (prev next : Option (Node Display)) :
    Node Display → Node Facts
  | ⟨info, span, kind, name, attributes, value, children⟩ =>
    let n : Node Display := ⟨info, span, kind, name, attributes, value, children⟩
    let inside := n.enclosure around next
    { info := n.factsOf source around prev next, span := span, kind := kind,
      name := withAllFacts source inside none name,
      attributes := withAllFacts source inside none attributes,
      value := withAllFacts source inside none value,
      children := withAllFacts source inside none children }

def withAllFacts (source : List Char) (around : Enclosure) (prev : Option (Node Display)) :
    List (Node Display) → List (Node Facts)
  | [] => []
  | n :: ns => withFacts source (some around) prev ns.head? n :: withAllFacts source around (some n) ns

end

end Node

/-- The document with the facts about each of its nodes. -/
def Document.annotate {α : Type} (s : Sensitivity) (d : Document α) : Document Facts :=
  ⟨d.source, (d.root.withDisplay s none).withFacts d.source.toList none none none⟩

end LiquidTemplate
