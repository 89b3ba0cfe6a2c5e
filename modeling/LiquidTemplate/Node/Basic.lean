import LiquidTemplate.Token

/-!
# The tree of a template

A node holds what it is (`Kind`), the range it covers, and four ordered lists of further nodes: the
fragments of its name, its attributes, the fragments of its value, and its children. Most kinds use only
some of them. Each node also carries information of a type chosen by the stage of processing: nothing after
reading, facts about white space before printing.
-/

namespace LiquidTemplate

/-- A body that is not read, with its language. -/
structure RawBody where
  slice : Slice
  kind : CodeKind
deriving DecidableEq, Repr, Inhabited

/-- What a node is, apart from the nodes that it holds. -/
inductive Kind where
  /-- The root. -/
  | document
  | text (value : String)
  | frontMatter (body : String)
  | comment (body : String)
  | doctype (legacy : String)
  /-- An element with the ranges of its opening and closing tags. -/
  | element (opener closer : Span)
  | voidElement (name : String)
  | selfClosing
  | rawElement (name : String) (body : RawBody) (opener closer : Span)
  /-- A Liquid tag that is never closed. -/
  | tag (name : String) (markup : Markup) (opener : Delimiter)
  /-- A Liquid tag with a body. The closer is missing if the template ends before it. -/
  | block (name : String) (markup : Markup) (opener : Delimiter) (closer : Option Delimiter)
  /-- A part of the body of a branched tag. The part right after the tag itself has no name, and its opener
  is empty. -/
  | branch (name : Option String) (markup : Markup) (opener : Delimiter)
  | rawTag (name markup : String) (body : RawBody) (opener closer : Delimiter)
  /-- A drop with the text it was written as. -/
  | drop (written : String) (markup : DropMarkup) (delimiter : Delimiter)
  | attr (style : AttributeStyle)
deriving Repr, Inhabited

/-- A node with information of type `α`. -/
structure Node (α : Type) where
  info : α
  span : Span
  kind : Kind
  name : List (Node α) := []
  attributes : List (Node α) := []
  value : List (Node α) := []
  children : List (Node α) := []
deriving Repr, Inhabited

/-- A template and its tree. -/
structure Document (α : Type) where
  source : String
  root : Node α
deriving Repr, Inhabited

/-- Tags whose body is divided into branches. -/
def isBranchedTag (name : String) : Bool :=
  name ∈ ["if", "unless", "for", "tablerow", "case"]

/-- Tags that start a new branch. -/
def isBranchStart (name : String) : Bool :=
  name ∈ ["elsif", "else", "when"]

namespace Node

variable {α : Type}

/-- The text that a fragment of a name contributes. -/
def written (n : Node α) : String :=
  match n.kind with
  | .text value => value
  | .drop w _ _ => w
  | _ => ""

/-- The name that the fragments spell. -/
def spelledName (n : Node α) : String :=
  String.join (n.name.map written)

/-- The name of an element, a tag or a branch. -/
def label? (n : Node α) : Option String :=
  match n.kind with
  | .element _ _ | .selfClosing => some n.spelledName
  | .voidElement name | .rawElement name _ _ _ => some name
  | .tag name _ _ | .block name _ _ _ | .rawTag name _ _ _ _ => some name
  | .branch name _ _ => name
  | _ => none

def isText (n : Node α) : Bool :=
  match n.kind with
  | .text _ => true
  | _ => false

def isAttribute (n : Node α) : Bool :=
  match n.kind with
  | .attr _ => true
  | _ => false

/-- Raw elements and front matter: white space around them never matters. -/
def isScriptLike (n : Node α) : Bool :=
  match n.kind with
  | .rawElement _ _ _ _ | .frontMatter _ => true
  | _ => false

/-- The text of a comment that may hold a directive: an HTML comment or a tag named `#`. -/
def remark? (n : Node α) : Option String :=
  match n.kind with
  | .comment body => some body
  | .tag "#" (.plain text) _ => some text
  | _ => none

mutual

/-- The number of nodes in a tree. -/
def size : Node α → Nat
  | ⟨_, _, _, name, attributes, value, children⟩ =>
    1 + sizes name + sizes attributes + sizes value + sizes children

def sizes : List (Node α) → Nat
  | [] => 0
  | n :: ns => n.size + sizes ns

end

end Node

/-- The number of nodes of a document, its root included. -/
def Document.size {α : Type} (d : Document α) : Nat :=
  d.root.size

end LiquidTemplate
