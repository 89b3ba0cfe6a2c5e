/-!
# Liquid expressions

The values that Liquid tags and drops are made of: literals, ranges and lookups, expressions with filters,
and the conditions of `if`, `unless` and `elsif`. Numbers and names are kept as they were written.
-/

namespace LiquidTemplate

/-- One of the two quotation marks. -/
inductive Quote where
  | single
  | double
deriving DecidableEq, Repr, Inhabited

def Quote.char : Quote → Char
  | .single => '\''
  | .double => '"'

/-- The mark that a text between two marks of this kind may hold. -/
def Quote.other : Quote → Quote
  | .single => .double
  | .double => .single

/-- A quoted text, without its marks. -/
structure StringLiteral where
  value : String
  quote : Quote
deriving DecidableEq, Repr, Inhabited

/-- The literals that are words. -/
inductive Keyword where
  | nil
  | null
  | true
  | false
  | blank
  | empty
deriving DecidableEq, Repr, Inhabited

namespace Keyword

def word : Keyword → String
  | .nil => "nil"
  | .null => "null"
  | .true => "true"
  | .false => "false"
  | .blank => "blank"
  | .empty => "empty"

/-- What a keyword stands for. -/
inductive Meaning where
  | absent
  | truth (value : Bool)
  /-- Equal to empty things only. -/
  | emptyLike
deriving DecidableEq, Repr, Inhabited

def meaning : Keyword → Meaning
  | .nil | .null => .absent
  | .true => .truth Bool.true
  | .false => .truth Bool.false
  | .blank | .empty => .emptyLike

end Keyword

mutual

/-- An expression without filters. -/
inductive Expression where
  | string (literal : StringLiteral)
  /-- A number as it was written. -/
  | number (digits : String)
  | keyword (word : Keyword)
  | range (first last : Expression)
  /-- A variable and the steps into it. The name is missing when the first step is a bracket. -/
  | lookup (name : Option String) (steps : List Lookup)

/-- One step into a variable. -/
inductive Lookup where
  | dot (name : String)
  | bracket (key : Expression)

end

deriving instance Repr for Expression, Lookup
deriving instance BEq for Expression, Lookup

instance : Inhabited Expression := ⟨.number ""⟩

/-- An argument that is given by name. -/
structure NamedArgument where
  name : String
  value : Expression
deriving Repr, BEq, Inhabited

/-- An argument of a filter. -/
inductive Argument where
  | positional (value : Expression)
  | named (argument : NamedArgument)
deriving Repr, BEq, Inhabited

structure Filter where
  name : String
  arguments : List Argument
deriving Repr, BEq, Inhabited

/-- An expression followed by filters. -/
structure Filtered where
  subject : Expression
  filters : List Filter
deriving Repr, BEq, Inhabited

/-! ## Conditions -/

inductive Comparator where
  | equal
  | notEqual
  /-- Another way to write `notEqual`. -/
  | lessOrGreater
  | greaterOrEqual
  | lessOrEqual
  | greater
  | less
  | contains
deriving DecidableEq, Repr, Inhabited

def Comparator.symbol : Comparator → String
  | .equal => "=="
  | .notEqual => "!="
  | .lessOrGreater => "<>"
  | .greaterOrEqual => ">="
  | .lessOrEqual => "<="
  | .greater => ">"
  | .less => "<"
  | .contains => "contains"

/-- How two conditions are joined. -/
inductive Connective where
  | and
  | or
deriving DecidableEq, Repr, Inhabited

def Connective.word : Connective → String
  | .and => "and"
  | .or => "or"

/-- A condition. Chains lean to the right: `a and b or c` is `a and (b or c)`. -/
inductive Condition where
  | truthy (subject : Expression)
  | compare (comparator : Comparator) (left right : Expression)
  | join (connective : Connective) (left right : Condition)
deriving Repr, BEq, Inhabited

/-- Join a condition to those that follow it, from the right. -/
def Condition.chain (first : Condition) : List (Connective × Condition) → Condition
  | [] => first
  | (connective, next) :: more => .join connective first (chain next more)

end LiquidTemplate
