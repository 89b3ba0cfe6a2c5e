import LiquidTemplate.Markup.Basic

/-!
# How expressions are spelled

Which names, numbers and strings can be written down (`Spelled`), and what writing changes: a string takes the mark
that it is written with, and a bracket with a string that looks like a name becomes a dot wherever something
precedes it (`norm`). A lookup that starts like a keyword has to go on like a lookup, or it would be read as the
keyword (`IsOperand`); only at the end of a range and as the name of a snippet it need not.
-/

namespace LiquidTemplate

/-! ## Names and numbers -/

namespace Text

/-- A character of a name after its first one. -/
def isNameTail (c : Char) : Bool :=
  isWordChar c || c == '-'

/-- A letter or underscore, then letters, digits, underscores and dashes. -/
def IsPlainName (cs : List Char) : Prop :=
  ∃ a w, cs = a :: w ∧ isNameStart a = true ∧ w.all isNameTail = true

/-- A name that may end in a question mark. -/
def IsAskingName (cs : List Char) : Prop :=
  IsPlainName cs ∨ ∃ w, cs = w ++ ['?'] ∧ IsPlainName w

def IsDigits (cs : List Char) : Prop :=
  cs ≠ [] ∧ cs.all Char.isDigit = true

/-- Digits, perhaps with a minus sign and a fraction. -/
def IsNumber (cs : List Char) : Prop :=
  ∃ sign whole fraction, cs = sign ++ whole ++ fraction ∧ (sign = [] ∨ sign = ['-']) ∧ IsDigits whole ∧
    (fraction = [] ∨ ∃ digits, fraction = '.' :: digits ∧ IsDigits digits)

end Text

theorem Keyword.isPlainName (k : Keyword) : Text.IsPlainName k.word.toList := by
  refine ⟨k.word.toList.headD 'a', k.word.toList.tail, ?_, ?_, ?_⟩ <;> cases k <;> decide

/-! ## Expressions -/

/-- The text does not hold the mark that it was written with. -/
def StringLiteral.Spelled (s : StringLiteral) : Prop :=
  s.quote.char ∉ s.value.toList

/-- The string as it is after writing it. -/
def StringLiteral.norm (preferred : Quote) (s : StringLiteral) : StringLiteral :=
  ⟨s.value, if s.value.toList.contains preferred.char then s.quote else preferred⟩

theorem StringLiteral.toList_render (s : StringLiteral) (q : Quote) :
    (s.render q).toList = (s.norm q).quote.char :: s.value.toList ++ [(s.norm q).quote.char] := by
  simp [StringLiteral.render, StringLiteral.norm]

theorem StringLiteral.Spelled.notMem_norm {s : StringLiteral} (hs : s.Spelled) (q : Quote) :
    (s.norm q).quote.char ∉ s.value.toList := by
  rw [StringLiteral.norm]
  split
  · exact hs
  next hq => simpa using hq

namespace Expression

/-- What may stand at an end of a range. -/
def IsRangeEnd : Expression → Prop
  | number _ | lookup _ _ => True
  | _ => False

/-- No lookup that would be read as a keyword. -/
def IsOperand : Expression → Prop
  | lookup (some name) steps => ∀ k : Keyword, (name = k.word → steps ≠ []) ∧ name ≠ k.word ++ "?"
  | _ => True

end Expression

mutual

/-- The names, numbers and strings of an expression can be written down. -/
def Expression.Spelled : Expression → Prop
  | .string s => s.Spelled
  | .number digits => Text.IsNumber digits.toList
  | .keyword _ => True
  | .range first last => (first.IsRangeEnd ∧ first.Spelled) ∧ last.IsRangeEnd ∧ last.Spelled
  | .lookup name steps =>
    (match name with
      | some name => Text.IsAskingName name.toList
      | none => ∃ key rest, steps = .bracket key :: rest) ∧ SpelledSteps steps

def SpelledSteps : List Lookup → Prop
  | [] => True
  | step :: steps => step.Spelled ∧ SpelledSteps steps

def Lookup.Spelled : Lookup → Prop
  | .dot name => Text.IsAskingName name.toList
  | .bracket key => key.IsOperand ∧ key.Spelled

end

theorem spelledSteps_iff {steps : List Lookup} : SpelledSteps steps ↔ ∀ s ∈ steps, s.Spelled := by
  induction steps with
  | nil => simp [SpelledSteps]
  | cons s steps ih => simp [SpelledSteps, ih]

/-- An expression that is read back as itself wherever expressions are read. -/
structure Expression.Readable (e : Expression) : Prop where
  operand : e.IsOperand
  spelled : e.Spelled

mutual

def Expression.norm (q : Quote) : Expression → Expression
  | .string s => .string (s.norm q)
  | .number digits => .number digits
  | .keyword k => .keyword k
  | .range first last => .range (first.norm q) (last.norm q)
  | .lookup name steps => .lookup name (normSteps q name.isNone steps)

/-- Steps as they are after writing them; `first` says that nothing precedes them. -/
def normSteps (q : Quote) (first : Bool) : List Lookup → List Lookup
  | [] => []
  | step :: steps => step.norm q first :: normSteps q false steps

def Lookup.norm (q : Quote) (first : Bool) : Lookup → Lookup
  | .dot name => .dot name
  | .bracket key =>
    match key with
    | .string s => if !first && isDotName s.value then .dot s.value else .bracket (.string (s.norm q))
    | _ => .bracket (key.norm q)

end

/-! ## Arguments, filters and conditions -/

structure NamedArgument.Spelled (a : NamedArgument) : Prop where
  name : Text.IsPlainName a.name.toList
  value : a.value.Readable

def Argument.Spelled : Argument → Prop
  | .positional value => value.Readable
  | .named a => a.Spelled

structure Filter.Spelled (f : Filter) : Prop where
  name : Text.IsPlainName f.name.toList
  arguments : ∀ a ∈ f.arguments, a.Spelled

structure Filtered.Spelled (v : Filtered) : Prop where
  subject : v.subject.Readable
  filters : ∀ f ∈ v.filters, f.Spelled

namespace Condition

def IsSimple : Condition → Prop
  | join _ _ _ => False
  | _ => True

/-- Only the right one of two joined conditions may be joined itself. -/
def Spelled : Condition → Prop
  | truthy e => e.Readable
  | compare _ left right => left.Readable ∧ right.Readable
  | join _ left right => left.IsSimple ∧ left.Spelled ∧ right.Spelled

def norm (q : Quote) : Condition → Condition
  | truthy e => truthy (e.norm q)
  | compare c left right => compare c (left.norm q) (right.norm q)
  | join c left right => join c (left.norm q) (right.norm q)

end Condition

def NamedArgument.norm (q : Quote) (a : NamedArgument) : NamedArgument :=
  ⟨a.name, a.value.norm q⟩

def Argument.norm (q : Quote) : Argument → Argument
  | .positional value => .positional (value.norm q)
  | .named a => .named (a.norm q)

def Filter.norm (q : Quote) (f : Filter) : Filter :=
  ⟨f.name, f.arguments.map (Argument.norm q)⟩

def Filtered.norm (q : Quote) (v : Filtered) : Filtered :=
  ⟨v.subject.norm q, v.filters.map (Filter.norm q)⟩

end LiquidTemplate
