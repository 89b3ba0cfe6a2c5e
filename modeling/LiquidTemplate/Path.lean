import LiquidTemplate.Text.Basic

/-!
# Paths of templates

A file is a template if its extension is `liquid`. The extension is what follows the last dot of the last
component of a path, unless that dot is its first character. Slashes and components `.` at the end do not
count, and `..` is no file name.
-/

namespace LiquidTemplate.Path

/-- The components of a path, without empty ones and `.`; a `.` at the very start counts. -/
def components (path : String) : List String :=
  match (Text.splitChars (· == '/') path.toList).map String.ofList with
  | [] => []
  | first :: rest => (if first.isEmpty then [] else [first]) ++ rest.filter fun c => !c.isEmpty && c != "."

/-- The name of the file that a path leads to. -/
def fileName? (path : String) : Option String :=
  match (components path).getLast? with
  | some name => if name = "." || name = ".." then none else some name
  | none => none

/-- The extension of a file name. -/
def extension? (name : String) : Option String :=
  match (Text.splitChars (· == '.') name.toList).map String.ofList with
  | [] | [_] | ["", _] => none
  | pieces => pieces.getLast?

/-- The path leads to a template. -/
def isLiquid (path : String) : Bool :=
  ((fileName? path).bind extension?).any (Text.eqIgnoringCase "liquid")

end LiquidTemplate.Path
