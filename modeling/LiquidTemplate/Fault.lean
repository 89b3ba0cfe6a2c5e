import LiquidTemplate.Grammar.Rule
import LiquidTemplate.Peg.Attempts
import LiquidTemplate.Text.Offset

/-!
# Faults of a template

A template is rejected for one of two reasons: it does not follow the grammar, or its tags are not nested
properly. Each fault points at a range of the source and has a message.
-/

namespace LiquidTemplate

/-- The grammar could not read the whole template. -/
structure SyntaxFault where
  reason : String
  /-- The furthest offset at which a rule was attempted. -/
  offset : Nat
deriving DecidableEq, Repr, Inhabited

/-- An element or tag that was still open. -/
structure OpenItem where
  name : String
  span : Span
deriving DecidableEq, Repr, Inhabited

/-- What is wrong with the nesting. -/
inductive NestingCause where
  /-- A closer that does not fit the innermost open item. -/
  | mismatched (closer : String)
  /-- A closer while nothing is open. -/
  | closedBeforeOpened (closer : String)
  /-- The end of the input while something is open. -/
  | unterminated
deriving DecidableEq, Repr, Inhabited

/-- Tags that are not nested properly. -/
structure NestingFault where
  cause : NestingCause
  span : Span
  stillOpen : Option OpenItem
deriving DecidableEq, Repr, Inhabited

/-- Why a template cannot be read. -/
inductive Fault where
  | grammar (fault : SyntaxFault)
  | nesting (fault : NestingFault)
deriving DecidableEq, Repr, Inhabited

/-! ## Messages -/

/-- The rules that were attempted, in words. -/
def reasonOf (unexpected expected : List Rule) : String :=
  match unexpected, expected with
  | [], [] => "unknown parsing error"
  | [], _ => "expected " ++ Rule.listing expected
  | _, [] => "unexpected " ++ Rule.listing unexpected
  | _, _ => "unexpected " ++ Rule.listing unexpected ++ "; expected " ++ Rule.listing expected

/-- The fault of a template whose reading stopped with these attempts. -/
def SyntaxFault.ofAttempts (attempts : Attempts Rule) : SyntaxFault :=
  ⟨reasonOf (Rule.sorted attempts.unexpected) (Rule.sorted attempts.expected), attempts.offset⟩

def SyntaxFault.message (f : SyntaxFault) : String :=
  "syntax error '" ++ f.reason ++ "' at position " ++ toString f.offset

def NestingFault.message (f : NestingFault) : String :=
  match f.cause, f.stillOpen with
  | .mismatched closer, some item => "attempting to close '" ++ closer ++ "' before '" ++ item.name ++ "' was closed"
  | .mismatched closer, none | .closedBeforeOpened closer, _ =>
    "attempting to close '" ++ closer ++ "' before it was opened"
  | .unterminated, some item => "attempting to end parsing before '" ++ item.name ++ "' was closed"
  | .unterminated, none => "unexpected end of input"

namespace Fault

/-- The range that a fault points at. -/
def span : Fault → Span
  | .grammar f => Span.point f.offset
  | .nesting f => f.span

def message : Fault → String
  | .grammar f => f.message
  | .nesting f => f.message

end Fault

/-! ## Diagnostics -/

/-- A fault with the line it points at. -/
structure Diagnostic where
  message : String
  excerpt : String
  start : Position
  stop : Position
deriving DecidableEq, Repr, Inhabited

/-- The line around a byte offset without carriage returns at its end, if the offset is a character
boundary or beyond the end. -/
def lineAround? (source : List Char) (offset : Nat) : Option (List Char) :=
  let cut := min offset (Text.byteSize source)
  match Text.takeBytes? source cut, Text.dropBytes? source cut with
  | some before, some after =>
    let line := (before.reverse.takeWhile (· != '\n')).reverse ++ after.takeWhile (· != '\n')
    some (line.reverse.dropWhile (· == '\r')).reverse
  | _, _ => none

/-- The diagnostic of a fault, if the fault starts at a character boundary or beyond the end. -/
def Fault.diagnostic? (source : String) (f : Fault) : Option Diagnostic :=
  (lineAround? source.toList f.span.start).map fun line =>
    ⟨f.message, String.ofList line, Position.ofOffset source f.span.start,
      Position.ofOffset source (max f.span.start f.span.stop)⟩

/-- The diagnostic as text: the message, the position, and the line with a pointer under it. -/
def Diagnostic.render (d : Diagnostic) : String :=
  let length := if d.stop.line = d.start.line then max 1 (d.stop.column - d.start.column) else 1
  let pointer := List.replicate (d.start.column - 1) ' ' ++ List.replicate length '^'
  d.message ++ "\n --> " ++ toString d.start.line ++ ":" ++ toString d.start.column ++ "\n  |\n  | " ++
    d.excerpt ++ "\n  | " ++ String.ofList pointer

end LiquidTemplate
