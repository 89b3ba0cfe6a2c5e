/-!
# Shortest decimals

Numbers of 53 binary digits, and the decimals with the fewest digits that still name them. A number
`m * 2 ^ e` stands for all decimals that are nearer to it than to its neighbours; the ends of that interval
count if `m` is even. Quotients are pairs of natural numbers, so all tests are exact.
-/

namespace LiquidTemplate.Decimal

/-- A quotient of natural numbers. -/
structure Ratio where
  numerator : Nat
  denominator : Nat
deriving Repr

namespace Ratio

/-- A quotient times a power of a base. -/
def scale (r : Ratio) (base : Nat) : Int → Ratio
  | .ofNat k => ⟨r.numerator * base.pow k, r.denominator⟩
  | .negSucc k => ⟨r.numerator, r.denominator * base.pow (k + 1)⟩

def lt (a b : Ratio) : Bool := a.numerator * b.denominator < b.numerator * a.denominator

def le (a b : Ratio) : Bool := !b.lt a

/-- The nearest natural number, the even one of two that are equally near. -/
def round (r : Ratio) : Nat :=
  let q := r.numerator / r.denominator
  let twice := 2 * (r.numerator % r.denominator)
  if twice > r.denominator || (twice = r.denominator && q % 2 = 1) then q + 1 else q

end Ratio

/-! ## Binary numbers -/

/-- The number `significand * 2 ^ exponent`. -/
structure Binary where
  significand : Nat
  exponent : Int
deriving DecidableEq, Repr, Inhabited

namespace Binary

def toRatio (b : Binary) : Ratio :=
  Ratio.scale ⟨b.significand, 1⟩ 2 b.exponent

/-- The exponent `e` that gives `r / 2 ^ e` 53 binary digits, but not below the least exponent. -/
def exponentOf (r : Ratio) : Int :=
  let guess : Int := Int.ofNat r.numerator.log2 - Int.ofNat r.denominator.log2 - 52
  let e := if (r.scale 2 (-guess)).lt ⟨Nat.pow 2 52, 1⟩ then guess - 1 else guess
  max e (-1074)

/-- The nearest number of 53 binary digits, the even one of two that are equally near. -/
def nearest (r : Ratio) : Binary :=
  let e := exponentOf r
  let m := (r.scale 2 (-e)).round
  if m = Nat.pow 2 53 then ⟨Nat.pow 2 52, e + 1⟩ else ⟨m, e⟩

def ofNat (n : Nat) : Binary := nearest ⟨n, 1⟩

/-- The rounded product. -/
def product (a b : Binary) : Binary :=
  nearest (Ratio.scale ⟨a.significand * b.significand, 1⟩ 2 (a.exponent + b.exponent))

/-- The rounded quotient. -/
def quotient (a b : Binary) : Binary :=
  nearest (Ratio.scale ⟨a.significand, b.significand⟩ 2 (a.exponent - b.exponent))

/-- A number divided by a power of ten, by the greatest power below `10 ^ 309` at a time. -/
def divTen (b : Binary) (k : Nat) : Binary :=
  if k ≤ 308 || b.significand = 0 then b.quotient (ofNat (Nat.pow 10 (min k 308)))
  else (b.quotient (ofNat (Nat.pow 10 308))).divTen (k - 308)
termination_by k
decreasing_by simp_all; omega

/-- A number times a power of ten: one multiplication or division for exponents up to 308. -/
def scaleTen (b : Binary) (k : Int) : Binary :=
  if b.significand = 0 then b
  else
    match k with
    | .ofNat k => b.product (ofNat (Nat.pow 10 k))
    | .negSucc k => b.divTen (k + 1)

/-! ## The shortest decimal -/

/-- A quotient lies in the interval of decimals that stand for a number. -/
def standsFor (b : Binary) (r : Ratio) : Bool :=
  let m := b.significand
  let below := if m = Nat.pow 2 52 && b.exponent > -1074 then 4 * m - 1 else 4 * m - 2
  let low := Ratio.scale ⟨below, 1⟩ 2 (b.exponent - 2)
  let high := Ratio.scale ⟨4 * m + 2, 1⟩ 2 (b.exponent - 2)
  if m % 2 = 0 then low.le r && r.le high else low.lt r && r.lt high

/-- The digits of the two multiples of `10 ^ t` around a number, if one of them stands for it: the nearer
one. -/
def digitsAt? (b : Binary) (t : Int) : Option Nat :=
  let scaled := b.toRatio.scale 10 (-t)
  let q := scaled.numerator / scaled.denominator
  let near := scaled.round
  let far := if near = q then q + 1 else q
  if b.standsFor (Ratio.scale ⟨near, 1⟩ 10 t) then some near
  else if b.standsFor (Ratio.scale ⟨far, 1⟩ 10 t) then some far
  else none

/-- The first grid, from the coarsest on, with a multiple that stands for a number. -/
def shortestFrom (b : Binary) : Nat → Int → Nat × Int
  | 0, t => ((b.toRatio.scale 10 (-t)).round, t)
  | fuel + 1, t =>
    match b.digitsAt? t with
    | some 0 | none => b.shortestFrom fuel (t - 1)
    | some digits => (digits, t)

/-- The fewest digits, and a power of ten to multiply them by, that stand for a number. The first grid is
coarser than the number: a binary digit is worth less than 31 hundredths of a decimal one. -/
def shortest (b : Binary) : Nat × Int :=
  let top := (Int.ofNat b.significand.log2 + b.exponent) * 30103 / 100000 + 2
  if b.significand = 0 then (0, 0) else b.shortestFrom 22 top

end Binary

/-! ## Writing -/

/-- The exponents of the first digit for which a decimal is written without an exponent. -/
structure Form where
  least : Int
  greatest : Int
deriving Repr

/-- Digits times a power of ten, written with a point and at least one digit on either side of it. -/
def positional (digits : Nat) : Int → String
  | .ofNat k => toString (digits * Nat.pow 10 k) ++ ".0"
  | .negSucc k =>
    let s := (toString digits).toList
    let s := List.replicate (k + 2 - s.length) '0' ++ s
    let whole := s.take (s.length - (k + 1))
    String.ofList whole ++ "." ++ String.ofList (s.drop whole.length)

/-- Digits with a point after the first, if there are more, and the signed exponent of the first. -/
def exponential (digits : Nat) (exponent : Int) : String :=
  let sign := if exponent < 0 then "-" else "+"
  let fraction := match (toString digits).toList with
    | first :: second :: rest => String.ofList (first :: '.' :: second :: rest)
    | s => String.ofList s
  fraction ++ "e" ++ sign ++ toString exponent.natAbs

/-- A number in the fewest digits that stand for it. -/
def Binary.write (form : Form) (b : Binary) : String :=
  let (digits, t) := b.shortest
  let first := t + Int.ofNat (toString digits).length - 1
  if form.least ≤ first && first ≤ form.greatest then positional digits t else exponential digits first

end LiquidTemplate.Decimal
