import LiquidTemplate.Options.Decimal

/-!
# Written numbers

Numbers as a configuration file writes them: digits, perhaps with a sign, a fraction and an exponent. A
number without fraction and exponent that fits into 64 bits is an integer, every other a binary number. A
binary number is read in few steps and not always the nearest one: as many digits as fit into 64 bits are
taken for an integer, which is then multiplied or divided by a power of ten.
-/

namespace LiquidTemplate

/-- The parts of a written number. -/
structure Numeral where
  negative : Bool
  whole : List Char
  /-- The digits after the point, if there is one. -/
  fraction : Option (List Char)
  exponent : Option Int
deriving DecidableEq, Repr

namespace Numeral

/-! ## Reading -/

def digitValue (c : Char) : Nat := c.toNat - '0'.toNat

def digitsValue (cs : List Char) : Nat :=
  cs.foldl (fun n c => 10 * n + digitValue c) 0

/-- The digits at the start of a text, which are at least one, and the rest. -/
def digits? (cs : List Char) : Option (List Char × List Char) :=
  match cs.span Char.isDigit with
  | ([], _) => none
  | parts => some parts

/-- The fraction at the start of a text, if there is one. -/
def fraction? : List Char → Option (Option (List Char) × List Char)
  | '.' :: cs => do
    let (digits, rest) ← digits? cs
    return (some digits, rest)
  | cs => some (none, cs)

/-- The exponent that a text is, with its sign. -/
def signed? : List Char → Option Int
  | '-' :: cs => magnitude? cs |>.map fun n => -Int.ofNat n
  | '+' :: cs => magnitude? cs |>.map Int.ofNat
  | cs => magnitude? cs |>.map Int.ofNat
where
  magnitude? (cs : List Char) : Option Nat :=
    match digits? cs with
    | some (digits, []) => some (digitsValue digits)
    | _ => none

/-- The exponent that a text is, if it is one; an empty text has none. -/
def exponent? : List Char → Option (Option Int)
  | [] => some none
  | c :: cs => if c == 'e' || c == 'E' then (signed? cs).map some else none

def unsigned? (negative : Bool) (cs : List Char) : Option Numeral := do
  let (whole, rest) ← digits? cs
  let (fraction, rest) ← fraction? rest
  let exponent ← exponent? rest
  return { negative, whole, fraction, exponent }

def parse? (s : String) : Option Numeral :=
  match s.toList with
  | '-' :: cs => unsigned? true cs
  | cs => unsigned? false cs

/-! ## Values -/

/-- The integer that a number is written as. Zero with a sign is none. -/
def integer? (n : Numeral) : Option Int :=
  let value : Int := digitsValue n.whole
  if n.fraction.isSome || n.exponent.isSome then none
  else if n.negative then if 0 < value && value ≤ Int.pow 2 63 then some (-value) else none
  else if value < Int.pow 2 64 then some value else none

/-- Take up digits while the number stays below `2 ^ 64`; the others are left. -/
def takeDigits : Nat → List Char → Nat × List Char
  | n, [] => (n, [])
  | n, c :: cs =>
    let next := 10 * n + digitValue c
    if next < Nat.pow 2 64 then takeDigits next cs else (n, c :: cs)

/-- The size of a number. Digits of the whole that are left count as powers of ten, digits of the fraction
that are left for nothing. -/
def magnitude (n : Numeral) : Decimal.Binary :=
  let fraction := n.fraction.getD []
  let (value, wholeLeft) := takeDigits 0 n.whole
  let (value, fractionLeft) := takeDigits value fraction
  let places : Int := fraction.length - fractionLeft.length
  (Decimal.Binary.ofNat value).scaleTen (n.exponent.getD 0 + wholeLeft.length - places)

end Numeral

end LiquidTemplate
