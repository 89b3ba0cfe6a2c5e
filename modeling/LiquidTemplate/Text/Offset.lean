import LiquidTemplate.Text.Basic

/-!
# Byte offsets

Positions in a template are offsets into its UTF-8 encoding. A `Span` is a half open range of offsets, a
`Slice` is a span together with the text it covers, and a `Position` is what a reader sees: a line and a
column, both counted from one, columns counting characters.
-/

namespace LiquidTemplate

/-- A half open range of byte offsets. -/
structure Span where
  start : Nat
  stop : Nat
deriving DecidableEq, Repr, Inhabited

/-- The empty range at an offset. -/
def Span.point (offset : Nat) : Span :=
  ⟨offset, offset⟩

/-- A range of the source with its text. -/
structure Slice where
  span : Span
  text : String
deriving DecidableEq, Repr, Inhabited

/-- A line and a column, both counted from one. -/
structure Position where
  line : Nat
  column : Nat
deriving DecidableEq, Repr, Inhabited

namespace Text

/-- The number of bytes that the characters take in UTF-8. -/
def byteSize : List Char → Nat
  | [] => 0
  | c :: cs => c.utf8Size + byteSize cs

/-- The characters from a byte offset on. There are none if the offset lies inside a character or beyond the end. -/
def dropBytes? : List Char → Nat → Option (List Char)
  | cs, 0 => some cs
  | [], _ + 1 => none
  | c :: cs, n + 1 => if c.utf8Size ≤ n + 1 then dropBytes? cs (n + 1 - c.utf8Size) else none

/-- The characters before a byte offset. There are none if the offset lies inside a character or beyond the end. -/
def takeBytes? : List Char → Nat → Option (List Char)
  | _, 0 => some []
  | [], _ + 1 => none
  | c :: cs, n + 1 =>
    if c.utf8Size ≤ n + 1 then (takeBytes? cs (n + 1 - c.utf8Size)).map (c :: ·) else none

/-- The characters of a range, if its ends are character boundaries in order. -/
def slice? (cs : List Char) (span : Span) : Option (List Char) :=
  if span.start ≤ span.stop then
    (dropBytes? cs span.start).bind fun rest => takeBytes? rest (span.stop - span.start)
  else none

@[simp] theorem byteSize_append (a b : List Char) : byteSize (a ++ b) = byteSize a + byteSize b := by
  induction a with
  | nil => simp [byteSize]
  | cons c cs ih => simp [byteSize, ih, Nat.add_assoc]

theorem exists_byteSize_cons (c : Char) (cs : List Char) : ∃ n, byteSize (c :: cs) = n + 1 :=
  ⟨byteSize (c :: cs) - 1, by have := c.utf8Size_pos; simp only [byteSize]; omega⟩

theorem dropBytes?_append (a b : List Char) : dropBytes? (a ++ b) (byteSize a) = some b := by
  induction a with
  | nil => cases b <;> rfl
  | cons c cs ih =>
    obtain ⟨n, hn⟩ := exists_byteSize_cons c cs
    rw [hn]
    simp only [byteSize] at hn
    rw [List.cons_append, dropBytes?, if_pos (by omega), show n + 1 - c.utf8Size = byteSize cs by omega, ih]

theorem takeBytes?_append (a b : List Char) : takeBytes? (a ++ b) (byteSize a) = some a := by
  induction a with
  | nil => cases b <;> rfl
  | cons c cs ih =>
    obtain ⟨n, hn⟩ := exists_byteSize_cons c cs
    rw [hn]
    simp only [byteSize] at hn
    rw [List.cons_append, takeBytes?, if_pos (by omega), show n + 1 - c.utf8Size = byteSize cs by omega, ih]
    rfl

/-- The range of a middle part gives that part back. -/
theorem slice?_append (a b c : List Char) :
    slice? (a ++ (b ++ c)) ⟨byteSize a, byteSize a + byteSize b⟩ = some b := by
  simp [slice?, dropBytes?_append, takeBytes?_append]

/-- The characters of a range, none for a range that is not one of the text. -/
def sliceChars (cs : List Char) (span : Span) : List Char :=
  (slice? cs span).getD []

def slice (cs : List Char) (span : Span) : String :=
  String.ofList (sliceChars cs span)

/-- The character that starts at a byte offset. -/
def charAt? (cs : List Char) (offset : Nat) : Option Char :=
  (dropBytes? cs offset).bind List.head?

/-- A blank starts at this byte offset. -/
def blankAt (cs : List Char) (offset : Nat) : Bool :=
  (charAt? cs offset).any isBlank

end Text

/-- The position of a byte offset. Characters that start before the offset are passed, so an offset inside a
character counts as the next boundary, and one beyond the end as the end. -/
def Position.after : List Char → Nat → Position → Position
  | [], _, p => p
  | _ :: _, 0, p => p
  | c :: cs, n + 1, p =>
    Position.after cs (n + 1 - c.utf8Size)
      (if c == '\n' then ⟨p.line + 1, 1⟩ else ⟨p.line, p.column + 1⟩)

/-- The position of a byte offset in a text. -/
def Position.ofOffset (source : String) (offset : Nat) : Position :=
  Position.after source.toList offset ⟨1, 1⟩

end LiquidTemplate
