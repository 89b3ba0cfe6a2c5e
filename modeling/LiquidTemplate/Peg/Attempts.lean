/-!
# Attempts

While a text is matched, the matcher notes which rules were tried at the furthest offset so far. `expected`
holds the rules that failed there, `unexpected` those that matched where they must not. When one rule fails
because another one did, the outer rule replaces the inner ones, unless there was exactly one: a single
inner attempt says more than the rule around it.
-/

namespace LiquidTemplate

/-- Whether a match is asked for only to look ahead, and with which sign. -/
inductive Lookahead where
  | off
  | positive
  | negative
deriving DecidableEq, Repr

/-- The sign inside a lookahead that asks for a match. -/
def Lookahead.ahead : Lookahead → Lookahead
  | .negative => .negative
  | _ => .positive

/-- The sign inside a lookahead that forbids a match. -/
def Lookahead.notAhead : Lookahead → Lookahead
  | .negative => .positive
  | _ => .negative

/-- The surroundings of a match: the sign of the lookahead, and whether an atomic rule is around. -/
structure Mode where
  lookahead : Lookahead := .off
  atomic : Bool := false
deriving DecidableEq, Repr

/-- The rules tried at the furthest offset, oldest first. -/
structure Attempts (R : Type) where
  offset : Nat := 0
  expected : List R := []
  unexpected : List R := []
deriving DecidableEq, Repr

namespace Attempts

variable {R : Type}

/-- How many attempts are noted at an offset. -/
def count (a : Attempts R) (offset : Nat) : Nat :=
  if a.offset = offset then a.expected.length + a.unexpected.length else 0

/-- The notes at an offset as they were before a rule was tried there, none if the offset is new. -/
def rewind (before after : Attempts R) (offset : Nat) : Attempts R :=
  if after.offset = offset then
    if before.offset = offset then
      ⟨offset, after.expected.take before.expected.length,
        after.unexpected.take before.unexpected.length⟩
    else ⟨offset, [], []⟩
  else ⟨offset, [], []⟩

/-- Note an attempt at a rule, on the side that the sign of the lookahead gives. -/
def add (a : Attempts R) (sign : Lookahead) (rule : R) : Attempts R :=
  match sign with
  | .negative => { a with unexpected := a.unexpected ++ [rule] }
  | _ => { a with expected := a.expected ++ [rule] }

/-- The notes after a rule was tried at an offset. `before` and `after` are the notes around its body. -/
def note (before after : Attempts R) (mode : Mode) (rule : R) (offset : Nat) : Attempts R :=
  if mode.atomic then after
  else if after.count offset - before.count offset = 1 then after
  else if offset < after.offset then after
  else (rewind before after offset).add mode.lookahead rule

/-- A rule is worth noting when it fails where it is wanted, or matches where it is not. -/
def isNoted (sign : Lookahead) (matched : Bool) : Bool :=
  match sign with
  | .negative => matched
  | _ => !matched

end Attempts

end LiquidTemplate
