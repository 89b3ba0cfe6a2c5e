import LiquidTemplate.Peg.Attempts
import LiquidTemplate.Peg.Basic
import LiquidTemplate.Text.Basic

/-!
# Matching a text

`Peg.parse` runs a parsing expression on what is left of a text. A failed match leaves no trace except in
the notes about attempts: the caller still holds the cursor from before, and with it the pushed texts. The
recursive nonterminal is handed in as a function, and `Peg.parseNested` ties the knot with a bound on the
depth of nesting. A bound above the number of characters is never reached by a grammar that consumes a
character before it recurs.
-/

namespace LiquidTemplate

/-- What is left of a text, the byte offset where that starts, and the pushed texts, last one first. -/
structure Cursor where
  rest : List Char
  offset : Nat
  stack : List (List Char)
deriving DecidableEq, Repr

namespace Cursor

def ofText (s : List Char) : Cursor :=
  ⟨s, 0, []⟩

/-- The characters between a cursor and a later one. -/
def charsTo (c d : Cursor) : List Char :=
  c.rest.take (c.rest.length - d.rest.length)

/-- The slice between a cursor and a later one. -/
def sliceTo (c d : Cursor) : Slice :=
  ⟨⟨c.offset, d.offset⟩, String.ofList (c.charsTo d)⟩

/-- Step over the characters `s` if they come next. -/
def skip? (c : Cursor) (s : List Char) : Option Cursor :=
  (Text.stripStart? s c.rest).map fun rest => { c with rest := rest, offset := c.offset + Text.byteSize s }

/-- Step over the characters `s` if they come next, up to the case of ASCII letters. -/
def skipNoCase? (c : Cursor) (s : List Char) : Option Cursor :=
  let found := c.rest.take s.length
  if found.map Char.toLower == s.map Char.toLower then c.skip? found else none

end Cursor

/-- A match with its value and what is left, or none; and the notes about attempts. -/
abbrev Reply (R α : Type) : Type :=
  Option (α × Cursor) × Attempts R

namespace Peg

variable {R ρ : Type}

/-- Match a step again and again until it fails, at most `fuel` times. -/
def parseMany {α : Type} (step : Cursor → Attempts R → Reply R α) :
    Nat → Cursor → Attempts R → (List α × Cursor) × Attempts R
  | 0, c, a => (([], c), a)
  | fuel + 1, c, a =>
    match step c a with
    | (none, a) => (([], c), a)
    | (some (x, c), a) =>
      let r := parseMany step fuel c a
      ((x :: r.1.1, r.1.2), r.2)

/-- Match an expression at a cursor, with `recur` for the recursive nonterminal. -/
def parse (recur : Mode → Cursor → Attempts R → Reply R ρ) :
    {α : Type} → Peg R ρ α → Mode → Cursor → Attempts R → Reply R α
  | _, .pure x, _, c, a => (some (x, c), a)
  | _, .char p, _, c, a =>
    match c.rest with
    | [] => (none, a)
    | x :: rest => if p x then (some (x, { c with rest := rest, offset := c.offset + x.utf8Size }), a) else (none, a)
  | _, .text s, _, c, a => ((c.skip? s.toList).map (((), ·)), a)
  | _, .textNoCase s, _, c, a => ((c.skipNoCase? s.toList).map (((), ·)), a)
  | _, .done, _, c, a => (if c.rest.isEmpty then some ((), c) else none, a)
  | _, .ap f p, m, c, a =>
    match f.parse recur m c a with
    | (none, a) => (none, a)
    | (some (g, c), a) =>
      match p.parse recur m c a with
      | (none, a) => (none, a)
      | (some (x, c), a) => (some (g x, c), a)
  | _, .orElse p q, m, c, a =>
    match p.parse recur m c a with
    | (none, a) => q.parse recur m c a
    | (some r, a) => (some r, a)
  | _, .many p, m, c, a =>
    let r := parseMany (p.parse recur m) (c.rest.length + 1) c a
    (some r.1, r.2)
  | _, .ahead p, m, c, a =>
    let r := p.parse recur { m with lookahead := m.lookahead.ahead } c a
    (r.1.map fun _ => ((), c), r.2)
  | _, .notAhead p, m, c, a =>
    let r := p.parse recur { m with lookahead := m.lookahead.notAhead } c a
    (if r.1.isSome then none else some ((), c), r.2)
  | _, .slice p, m, c, a =>
    let r := p.parse recur m c a
    (r.1.map fun s => ((c.sliceTo s.2, s.1), s.2), r.2)
  | _, .push p, m, c, a =>
    let r := p.parse recur m c a
    (r.1.map fun s => (s.1, { s.2 with stack := c.charsTo s.2 :: s.2.stack }), r.2)
  | _, .peek, _, c, a =>
    match c.stack with
    | [] => (none, a)
    | s :: _ => ((c.skip? s).map (((), ·)), a)
  | _, .pop, _, c, a =>
    match c.stack with
    | [] => (none, a)
    | s :: stack => ((c.skip? s).map fun d => ((), { d with stack := stack }), a)
  | _, .rule name atomic p, m, c, a =>
    let r := p.parse recur { m with atomic := m.atomic || atomic } c a
    if Attempts.isNoted m.lookahead r.1.isSome then (r.1, a.note r.2 m name c.offset) else r
  | _, .recur, m, c, a => recur m c a

/-- Match the recursive nonterminal `body`, nested at most `depth` times in itself. -/
def parseNested (body : Peg R ρ ρ) : Nat → Mode → Cursor → Attempts R → Reply R ρ
  | 0, _, _, a => (none, a)
  | depth + 1, m, c, a => body.parse (parseNested body depth) m c a

/-- Match an expression from the start of a text, where `body` is the recursive nonterminal. -/
def run {α : Type} (body : Peg R ρ ρ) (p : Peg R ρ α) (s : List Char) : Reply R α :=
  p.parse (parseNested body (s.length + 1)) {} (Cursor.ofText s) {}

end Peg

end LiquidTemplate
