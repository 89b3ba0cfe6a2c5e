import LiquidTemplate.Text.Basic

/-!
# Dedenting code

The lines of a piece of code without white space at their ends, without empty lines at the start and at the
end, and without the indentation that all of them share.
-/

namespace LiquidTemplate

/-- A space or a tab. -/
def isIndent (c : Char) : Bool :=
  c == ' ' || c == '\t'

/-- The number of spaces and tabs at the start of a line. -/
def indentOf (line : List Char) : Nat :=
  (line.takeWhile isIndent).length

/-- Drop the empty lines at the start and at the end. -/
def trimLines (lines : List (List Char)) : List (List Char) :=
  ((lines.dropWhile List.isEmpty).reverse.dropWhile List.isEmpty).reverse

/-- The least indentation of the lines that are not empty. -/
def commonIndent (lines : List (List Char)) : Nat :=
  (((lines.filter (! ·.isEmpty)).map indentOf).min?).getD 0

/-- The lines of a piece of code, dedented. -/
def dedent (code : String) : List String :=
  let lines := trimLines ((Text.lines code).map fun line => Text.trimEndChars line.toList)
  lines.map fun line => String.ofList (line.drop (commonIndent lines))

end LiquidTemplate
