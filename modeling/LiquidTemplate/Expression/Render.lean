import LiquidTemplate.Expression.Basic
import LiquidTemplate.Text.Basic

/-!
# Writing expressions

The one-line text of an expression. A string takes the preferred quotation mark unless it holds that mark,
and a bracketed string that looks like a name is written with a dot wherever something precedes it.
-/

namespace LiquidTemplate

/-- A text that can be looked up with a dot: a name, perhaps with a question mark at its end. -/
def isDotName (s : String) : Bool :=
  match s.toList with
  | [] => false
  | c :: cs =>
    Text.isNameStart c &&
      (match cs.reverse with
        | '?' :: rest => rest.all Text.isWordChar
        | _ => cs.all Text.isWordChar)

def StringLiteral.render (preferred : Quote) (s : StringLiteral) : String :=
  let mark := (if s.value.toList.contains preferred.char then s.quote else preferred).char
  mark.toString ++ s.value ++ mark.toString

mutual

def Expression.render (q : Quote) : Expression → String
  | .string s => s.render q
  | .number digits => digits
  | .keyword k => k.word
  | .range first last => "(" ++ first.render q ++ ".." ++ last.render q ++ ")"
  | .lookup name steps => renderSteps q (name.getD "") steps

/-- Write the steps after the text `before`. -/
def renderSteps (q : Quote) (before : String) : List Lookup → String
  | [] => before
  | step :: steps => renderSteps q (before ++ step.render q (before == "")) steps

/-- One step; `first` says that nothing precedes it. -/
def Lookup.render (q : Quote) (first : Bool) : Lookup → String
  | .dot name => "." ++ name
  | .bracket key =>
    match key with
    | .string s =>
      if !first && isDotName s.value then "." ++ s.value else "[" ++ s.render q ++ "]"
    | _ => "[" ++ key.render q ++ "]"

end

def NamedArgument.render (q : Quote) (a : NamedArgument) : String :=
  a.name ++ ": " ++ a.value.render q

def Argument.render (q : Quote) : Argument → String
  | .positional value => value.render q
  | .named a => a.render q

/-- A filter with the bar before it. -/
def Filter.render (q : Quote) (f : Filter) : String :=
  if f.arguments.isEmpty then "| " ++ f.name
  else "| " ++ f.name ++ ": " ++ ", ".intercalate (f.arguments.map (Argument.render q))

def Filtered.render (q : Quote) (v : Filtered) : String :=
  " ".intercalate (v.subject.render q :: v.filters.map (Filter.render q))

def Condition.render (q : Quote) : Condition → String
  | .truthy e => e.render q
  | .compare c left right => left.render q ++ " " ++ c.symbol ++ " " ++ right.render q
  | .join c left right => left.render q ++ " " ++ c.word ++ " " ++ right.render q

end LiquidTemplate
