import LiquidTemplate.Text.Offset

/-!
# Parsing expressions

A parsing expression grammar as data. `Peg R ρ α` describes texts and the value of type `α` that each of
them stands for: `R` names the rules, and `ρ` is the value of the one nonterminal that may occur inside
itself, written `recur`. Choice is ordered, repetition is greedy and never gives back, and lookahead
consumes nothing. Expressions combine with the operators of `Applicative`, and `p <|> q` tries `q` only
where `p` fails.
-/

namespace LiquidTemplate

/-- A parsing expression over the rule names `R`, with recursion at type `ρ` and values of type `α`. -/
inductive Peg (R ρ : Type) : Type → Type 1 where
  /-- Matches the empty text. -/
  | pure {α : Type} (value : α) : Peg R ρ α
  /-- Matches one character of a class. -/
  | char (p : Char → Bool) : Peg R ρ Char
  /-- Matches exactly this text. -/
  | text (s : String) : Peg R ρ Unit
  /-- Matches this text up to the case of ASCII letters. -/
  | textNoCase (s : String) : Peg R ρ Unit
  /-- Matches only where nothing is left. -/
  | done : Peg R ρ Unit
  /-- Matches one expression after the other. -/
  | ap {α β : Type} (f : Peg R ρ (α → β)) (p : Peg R ρ α) : Peg R ρ β
  /-- Matches the second expression where the first one fails. -/
  | orElse {α : Type} (p q : Peg R ρ α) : Peg R ρ α
  /-- Matches an expression as often as it can be matched. -/
  | many {α : Type} (p : Peg R ρ α) : Peg R ρ (List α)
  /-- Matches the empty text where the expression would match. -/
  | ahead {α : Type} (p : Peg R ρ α) : Peg R ρ Unit
  /-- Matches the empty text where the expression would not match. -/
  | notAhead {α : Type} (p : Peg R ρ α) : Peg R ρ Unit
  /-- Matches an expression and remembers the text that it covers. -/
  | slice {α : Type} (p : Peg R ρ α) : Peg R ρ (Slice × α)
  /-- Matches an expression and pushes the text that it covers. -/
  | push {α : Type} (p : Peg R ρ α) : Peg R ρ α
  /-- Matches the text pushed last. -/
  | peek : Peg R ρ Unit
  /-- Matches the text pushed last and removes it. -/
  | pop : Peg R ρ Unit
  /-- Matches an expression under the name of a rule. Inside an atomic rule, attempts at other rules are
  not noted. -/
  | rule {α : Type} (name : R) (atomic : Bool) (p : Peg R ρ α) : Peg R ρ α
  /-- Matches the recursive nonterminal. -/
  | recur : Peg R ρ ρ

namespace Peg

variable {R ρ α β : Type}

instance : Functor (Peg R ρ) where
  map f p := .ap (.pure f) p

instance : Applicative (Peg R ρ) where
  pure := .pure
  seq f p := .ap f (p ())

instance : OrElse (Peg R ρ α) where
  orElse p q := .orElse p (q ())

/-- An expression at least once. -/
def many1 (p : Peg R ρ α) : Peg R ρ (List α) :=
  List.cons <$> p <*> .many p

/-- An expression or the empty text. -/
def opt (p : Peg R ρ α) : Peg R ρ (Option α) :=
  some <$> p <|> .pure none

/-- An expression with another value in place of its own. -/
def giving (value : β) (p : Peg R ρ α) : Peg R ρ β :=
  (fun _ => value) <$> p

/-- Whether an expression matches here, which is consumed if it does. -/
def flag (p : Peg R ρ α) : Peg R ρ Bool :=
  giving true p <|> .pure false

/-- The text that an expression covers. -/
def covered (p : Peg R ρ α) : Peg R ρ String :=
  (fun m => m.1.text) <$> .slice p

/-- Any one character. -/
def any : Peg R ρ Char :=
  .char fun _ => true

/-- All characters up to the first place where an expression matches. -/
def upTo (stop : Peg R ρ α) : Peg R ρ (List Char) :=
  .many (.notAhead stop *> any)

/-- A rule that takes part in the notes about failed attempts. -/
def named (name : R) (p : Peg R ρ α) : Peg R ρ α :=
  .rule name false p

/-- A rule whose inside is left out of the notes about failed attempts. -/
def atom (name : R) (p : Peg R ρ α) : Peg R ρ α :=
  .rule name true p

end Peg

end LiquidTemplate
