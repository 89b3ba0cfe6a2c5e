import LiquidTemplate.Expression.Basic
import LiquidTemplate.Whitespace.Display

/-!
# Options

The choices that formatting leaves to its caller, with their defaults.
-/

namespace LiquidTemplate

/-- How a line ends. -/
inductive LineBreak where
  | lf
  | crlf
deriving DecidableEq, Repr, Inhabited

def LineBreak.text : LineBreak → String
  | .lf => "\n"
  | .crlf => "\r\n"

/-- The options of formatting. -/
structure Options where
  /-- The width that lines should not exceed. -/
  printWidth : Nat := 80
  /-- Indent with tabs. -/
  useTabs : Bool := false
  /-- The width of one level of indentation, and of a tab. -/
  indentWidth : Nat := 2
  lineBreak : LineBreak := .lf
  /-- The preferred mark around strings in Liquid. -/
  liquidQuotes : Quote := .double
  /-- The preferred mark around values of attributes. -/
  htmlQuotes : Quote := .double
  /-- Put each attribute on a line of its own if there are several. -/
  singleAttributePerLine : Bool := false
  sensitivity : Sensitivity := .css
  /-- Keep `link` elements on one line. -/
  singleLineLinkTags : Bool := false
  /-- Indent the code in `script` elements. -/
  scriptIndent : Bool := true
  /-- Indent the code in `style` elements. -/
  styleIndent : Bool := true
  /-- The comment that leaves a whole file alone. -/
  ignoreFileDirective : String := "liquid-fmt-ignore-file"
  /-- The comment that leaves the node after it alone. -/
  ignoreDirective : String := "liquid-fmt-ignore"
deriving DecidableEq, Repr, Inhabited

end LiquidTemplate
