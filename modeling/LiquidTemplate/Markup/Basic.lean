import LiquidTemplate.Expression.Basic
import LiquidTemplate.Expression.Render

/-!
# Markup of tags and drops

What stands between the delimiters of a Liquid tag after its name, and its one-line text. Markup that no
known form fits is kept as plain text.
-/

namespace LiquidTemplate

/-- Which of the two ways hands a variable to a snippet. -/
inductive Binding where
  | asValue
  | forEach
deriving DecidableEq, Repr, Inhabited

def Binding.word : Binding → String
  | .asValue => "with"
  | .forEach => "for"

/-- The markup of a Liquid tag or branch. -/
inductive Markup where
  /-- Text that is not read any further, trimmed. -/
  | plain (text : String)
  /-- The condition of `if`, `unless` and `elsif`. -/
  | condition (test : Condition)
  /-- The subject of `case`. -/
  | subject (value : Expression)
  /-- The values of `when`. -/
  | values (choices : List Expression)
  /-- The head of `for` and `tablerow`. -/
  | loop (item : String) (collection : Expression) (reversed : Bool) (arguments : List NamedArgument)
  | assign (name : String) (value : Filtered)
  | echo (value : Filtered)
  | cycle (group : Option Expression) (choices : List Expression)
  | paginate (collection pageSize : Expression) (arguments : List NamedArgument)
  /-- The snippet of `render` and `include`, and what is handed to it. -/
  | snippet (name : Expression) (bound : Option (Binding × Expression)) (renamed : Option String)
    (arguments : List NamedArgument)
  /-- The name that `capture`, `increment` and `decrement` take. -/
  | target (name : String)
  | layout (value : Expression)
  /-- The name of a section. -/
  | sectionName (name : StringLiteral)
  /-- The statements of `liquid`, one a line, trimmed and not empty. -/
  | statements (lines : List String)
deriving Repr, BEq, Inhabited

/-- The markup of a drop. -/
inductive DropMarkup where
  | value (value : Filtered)
  /-- Text that is no expression, trimmed. -/
  | plain (text : String)
deriving Repr, BEq, Inhabited

/-- Plain markup that holds a line feed. -/
def Markup.hasPlainLineFeed : Markup → Bool
  | .plain text => Text.hasLineFeed text
  | _ => false

/-- Arguments, each after a separator. -/
def renderArguments (q : Quote) (separator : String) (arguments : List NamedArgument) : String :=
  String.join (arguments.map fun a => separator ++ a.render q)

/-- The text of a markup. -/
def Markup.render (q : Quote) : Markup → String
  | .plain text => text
  | .condition test => test.render q
  | .subject value => value.render q
  | .values choices => ", ".intercalate (choices.map (Expression.render q))
  | .loop item collection reversed arguments =>
    item ++ " in " ++ collection.render q ++ (if reversed then " reversed" else "") ++
      renderArguments q " " arguments
  | .assign name value => name ++ " = " ++ value.render q
  | .echo value => value.render q
  | .cycle group choices =>
    (match group with
      | some g => g.render q ++ ": "
      | none => "") ++ ", ".intercalate (choices.map (Expression.render q))
  | .paginate collection pageSize arguments =>
    collection.render q ++ " by " ++ pageSize.render q ++ renderArguments q ", " arguments
  | .snippet name bound renamed arguments =>
    name.render q ++
      (match bound with
        | some (b, e) => " " ++ b.word ++ " " ++ e.render q
        | none => "") ++
      (match renamed with
        | some a => " as " ++ a
        | none => "") ++
      renderArguments q ", " arguments
  | .target name => name
  | .layout value => value.render q
  | .sectionName name => name.render q
  | .statements lines => "\n".intercalate lines

/-- A tag name followed by its markup, as it stands between the delimiters. -/
def tagHead (q : Quote) (name : String) (markup : Markup) : String :=
  let text := markup.render q
  if text.isEmpty then name else name ++ " " ++ text

end LiquidTemplate
