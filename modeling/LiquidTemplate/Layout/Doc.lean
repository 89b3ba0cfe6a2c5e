/-!
# Layout documents

A document describes text together with the places where it may be broken into lines. A group is laid out
flat if it fits on the line, and broken otherwise; what a line or a choice stands for depends on the group
around it.
-/

namespace LiquidTemplate

/-- Text with places for line breaks. -/
inductive Doc where
  | nil
  | text (s : String)
  /-- A line break with the indentation of the place. A group that holds one is never flat. -/
  | hardLine
  /-- A line break without indentation, which the group around it does not notice. -/
  | emptyLine
  /-- So many spaces if flat, else a line break with indentation. -/
  | line (spaces : Nat)
  | append (a b : Doc)
  /-- Laid out flat if it fits on the line. -/
  | group (d : Doc)
  /-- Indented further by so many columns. -/
  | nest (columns : Nat) (d : Doc)
  /-- One document if flat, another one if broken. -/
  | choice (flat broken : Doc)
deriving DecidableEq, Repr, Inhabited

namespace Doc

instance : Append Doc := ⟨.append⟩

/-- One document after the other. -/
def concat : List Doc → Doc
  | [] => .nil
  | d :: ds => d ++ concat ds

/-- One document after the other, with a separator between them. -/
def separated (separator : Doc) : List Doc → Doc
  | [] => .nil
  | [d] => d
  | d :: ds => d ++ separator ++ separated separator ds

/-- A space, or a line break where the next item does not fit. -/
def softLine : Doc :=
  .group (.line 1)

/-- A line left empty. -/
def blankLine : Doc :=
  .emptyLine ++ .hardLine

end Doc

end LiquidTemplate
