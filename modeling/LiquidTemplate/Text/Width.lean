import LiquidTemplate.Text.Emoji
import LiquidTemplate.Text.Mark
import LiquidTemplate.Text.Wide

/-!
# Display width

How many columns a text takes on a terminal. A character that stands alone takes none, one or two columns,
and a few letters more. Some sequences are narrower or wider than their parts: a carriage return with its line
feed takes one column, a symbol with the emoji selector two, emoji tied by joiners are one emoji, and some
scripts write two letters as one sign. What a character adds depends only on what follows it, so a text is
measured from its end.
-/

namespace LiquidTemplate.Text

/-! ## Single characters -/

/-- Vowels and final consonants of Hangul, signs written around or before other letters, and number signs:
characters that join their neighbours although they are neither marks nor ignorable. -/
def joiningRanges : List (Nat × Nat) :=
  [(0x605, 0x605), (0x70F, 0x70F), (0x890, 0x891), (0x8E2, 0x8E2), (0xD4E, 0xD4E), (0x1160, 0x11FF),
   (0xA8FA, 0xA8FA), (0xD7B0, 0xD7C6), (0xD7CB, 0xD7FB), (0x111C2, 0x111C3), (0x113D1, 0x113D1),
   (0x1193F, 0x1193F), (0x11941, 0x11941), (0x11A84, 0x11A89), (0x11D46, 0x11D46), (0x11F02, 0x11F02)]

/-- The columns of a character that stands alone. -/
def charWidth (c : Char) : Nat :=
  match c.toNat with
  | 0x115F | 0x17A4 => 2
  | 0x17D8 => 3
  | 0x2D7F => 1
  | n =>
    if n ≤ 0xA0 then 1
    else if isMark c || isIgnorable c || inRanges joiningRanges c then 0
    else if isWide c then 2
    else 1

/-! ## Letters that join -/

/-- Alef in its forms. -/
def isAlef (c : Char) : Bool :=
  inRanges [(0x622, 0x623), (0x625, 0x625), (0x627, 0x627), (0x671, 0x673), (0x675, 0x675), (0x773, 0x774),
    (0x870, 0x882)] c

/-- Lam in its forms, which are written as one sign with an alef after them. -/
def isLam (c : Char) : Bool :=
  inRanges [(0x644, 0x644), (0x6B5, 0x6B8), (0x76A, 0x76A), (0x8A6, 0x8A6), (0x8C7, 0x8C7)] c

/-- Characters without a column that part a lam from an alef. -/
def partingRanges : List (Nat × Nat) :=
  [(0x605, 0x605), (0x890, 0x891), (0x8E2, 0x8E2), (0x9BE, 0x9BE), (0x9D7, 0x9D7), (0xB3E, 0xB3E),
   (0xB57, 0xB57), (0xBBE, 0xBBE), (0xBD7, 0xBD7), (0xCC0, 0xCC0), (0xCC2, 0xCC2), (0xCC7, 0xCC8),
   (0xCCA, 0xCCB), (0xCD5, 0xCD6), (0xD3E, 0xD3E), (0xD4E, 0xD4E), (0xD57, 0xD57), (0xDCF, 0xDCF),
   (0xDDF, 0xDDF), (0x1160, 0x11FF), (0x1715, 0x1715), (0x1734, 0x1734), (0x180E, 0x180E),
   (0x1B35, 0x1B35), (0x1B3B, 0x1B3B), (0x1B3D, 0x1B3D), (0x1B43, 0x1B44), (0x1BAA, 0x1BAA),
   (0x1BF2, 0x1BF3), (0x200C, 0x200D), (0x2065, 0x2069), (0x302E, 0x302F), (0x3164, 0x3164),
   (0xA8FA, 0xA8FA), (0xA953, 0xA953), (0xA9C0, 0xA9C0), (0xD7B0, 0xD7C6), (0xD7CB, 0xD7FB),
   (0xFF9E, 0xFFA0), (0xFFF0, 0xFFF8), (0x111C0, 0x111C0), (0x111C2, 0x111C3), (0x11235, 0x11235),
   (0x1133E, 0x1133E), (0x1134D, 0x1134D), (0x11357, 0x11357), (0x113B8, 0x113B8), (0x113C2, 0x113C2),
   (0x113C5, 0x113C5), (0x113C7, 0x113C9), (0x113CF, 0x113CF), (0x113D1, 0x113D1), (0x114B0, 0x114B0),
   (0x114BD, 0x114BD), (0x115AF, 0x115AF), (0x116B6, 0x116B6), (0x11930, 0x11930), (0x1193D, 0x1193D),
   (0x1193F, 0x1193F), (0x11941, 0x11941), (0x11A84, 0x11A89), (0x11D46, 0x11D46), (0x11F02, 0x11F02),
   (0x11F41, 0x11F41), (0x16FF0, 0x16FF1), (0x1D165, 0x1D166), (0x1D16D, 0x1D172), (0xE0000, 0xE0000),
   (0xE0002, 0xE001F), (0xE0080, 0xE00FF), (0xE01F0, 0xE0FFF)]

/-- Khmer letters with a form below the line. -/
def isSubscriptLetter (c : Char) : Bool :=
  inRanges [(0x1780, 0x1782), (0x1784, 0x1787), (0x1789, 0x178C), (0x178E, 0x1793), (0x1795, 0x1798),
    (0x179B, 0x179D), (0x17A0, 0x17A0), (0x17A2, 0x17A2), (0x17A7, 0x17A7), (0x17AB, 0x17AC),
    (0x17AF, 0x17AF)] c

/-- Tifinagh consonants. -/
def isTifinagh (c : Char) : Bool :=
  inRanges [(0x2D31, 0x2D65), (0x2D6F, 0x2D6F)] c

/-- Marks that are ignored inside a sign of several letters. -/
def isIgnorableMark (c : Char) : Bool :=
  inRanges [(0x34F, 0x34F), (0x17B4, 0x17B5), (0x180B, 0x180D), (0x180F, 0x180F), (0xFE00, 0xFE0F),
    (0xE0100, 0xE01EF)] c

/-! ## What follows a character -/

/-- The start of what follows a character, as far as it can change the columns of that character. A flag
`joined` says that a joiner stands before it. -/
inductive Link where
  /-- Nothing to join. -/
  | free
  | lineFeed
  /-- The selector of wide quotation marks. -/
  | quoteSelector
  | alef
  | lamed (joined : Bool)
  /-- A Khmer letter with a form below the line. -/
  | subscriptLetter
  /-- Buginese ya. -/
  | ya (joined : Bool)
  /-- Buginese ya with a joiner and the vowel i before it. -/
  | vowelYa
  | tifinagh (joined : Bool)
  /-- A Tifinagh consonant with the consonant joiner before it. -/
  | pairedTifinagh
  /-- A second tone letter of Lisu. -/
  | tone
  /-- The Old Turkic letter i. -/
  | turkicI (joined : Bool)
  /-- The Kirat Rai vowel e. -/
  | vowelE
  /-- The Kirat Rai vowel ai. -/
  | vowelAi
  | skinTone
  /-- A run of regional indicators. -/
  | regions (count : Nat)
  | emoji
  /-- A joiner and an emoji, perhaps with an enclosing keycap before them. -/
  | joiner (keycap : Bool)
  /-- A run of regional indicators before a joiner and an emoji. -/
  | joinedRegions (count : Nat)
  /-- The tags of a flag, from the last on: `digits` of them, and before these `letters`. -/
  | tags (letters digits : Nat)
deriving DecidableEq, Repr

namespace Link

/-- Letters of a script, before which a selector is passed over. -/
def isLetter : Link → Bool
  | .alef | .lamed _ | .subscriptLetter | .ya _ | .vowelYa | .tifinagh _ | .pairedTifinagh | .tone
  | .turkicI _ => true
  | _ => false

/-- The same letter with a joiner before it. -/
def join : Link → Link
  | .lamed _ => .lamed true
  | .ya _ => .ya true
  | .tifinagh _ => .tifinagh true
  | .turkicI _ => .turkicI true
  | l => l

/-- A joiner before it ties it to another emoji. -/
def takesJoiner : Link → Bool
  | .emoji | .skinTone => true
  | .regions count | .joinedRegions count => 2 ≤ count
  | _ => false

/-- The columns of a character before nothing that it could join, and the link that it starts. -/
def ofChar (c : Char) : Int × Link :=
  let link :=
    match c.toNat with
    | 0x5DC => .lamed false
    | 0x1A10 => .ya false
    | 0xA4FC | 0xA4FD => .tone
    | 0xFE01 => .quoteSelector
    | 0x10C03 => .turkicI false
    | 0x16D67 => .vowelE
    | 0x16D68 => .vowelAi
    | n =>
      if n = 0x0A then .lineFeed
      else if isAlef c then .alef
      else if isSubscriptLetter c then .subscriptLetter
      else if isTifinagh c then .tifinagh false
      else if isRegion c then .regions 1
      else if isSkinTone c then .skinTone
      else if isPicture c then .emoji
      else .free
  (charWidth c, link)

/-- The columns that a letter adds before the letters of its script, if they are written as one sign. -/
def script? (l : Link) (c : Char) : Option (Int × Link) :=
  match l, c.toNat with
  | .alef, _ =>
    if isLam c then some (0, .free)
    else if charWidth c = 0 && !inRanges partingRanges c then some (0, .alef)
    else none
  | .lamed true, 0x5D0 => some (0, .free)
  | .subscriptLetter, 0x17D2 => some (-1, .free)
  | .ya true, 0x1A17 => some (0, .vowelYa)
  | .vowelYa, 0x1A15 => some (0, .free)
  | .tifinagh _, 0x2D7F => some (1, .pairedTifinagh)
  | .tifinagh true, _ => if isTifinagh c then some (0, .free) else none
  | .pairedTifinagh, _ => if isTifinagh c then some (-1, .free) else none
  | .tone, n => if 0xA4F8 ≤ n && n ≤ 0xA4FB then some (0, .free) else none
  | .turkicI true, 0x10C32 => some (0, .free)
  | .vowelE, 0x16D63 => some (0, .free)
  | .vowelE, 0x16D67 => some (0, .vowelAi)
  | .vowelE, 0x16D68 => some (1, .vowelE)
  | .vowelE, 0x16D69 => some (0, .free)
  | .vowelAi, 0x16D63 => some (0, .free)
  | _, _ => none

/-- One more tag before the tags of a flag, or the flag itself: three to six letters, or digits that are
three and stand last, after letters or none. -/
def tag? (letters digits n : Nat) : Option (Int × Link) :=
  if 0xE0061 ≤ n && n ≤ 0xE007A && digits = 0 && letters < 6 then some (0, .tags (letters + 1) 0)
  else if 0xE0030 ≤ n && n ≤ 0xE0039 && digits < 3 && letters < 5 then some (0, .tags letters (digits + 1))
  else if n = 0x1F3F4 && (digits = 3 || (digits = 0 && 3 ≤ letters)) then some (0, .emoji)
  else none

/-- The columns that a character adds before an emoji, if they belong together. -/
def emoji? (l : Link) (c : Char) : Option (Int × Link) :=
  if c.toNat = 0x200D && l.takesJoiner then some (0, .joiner false)
  else
    match l with
    | .skinTone => if isBody c then some (0, .emoji) else none
    | .regions count => if isRegion c then some (1, .regions (count + 1)) else none
    | .joinedRegions count =>
      if isRegion c then some (if count % 2 = 1 then -1 else 3, .joinedRegions (count + 1)) else none
    | .joiner false =>
      if c.toNat = 0x20E3 then some (0, .joiner true)
      else if c.toNat = 0xE007F then some (0, .tags 0 0)
      else if isRegion c then some (1, .joinedRegions 1)
      else if isSkinTone c then some (0, .skinTone)
      else if isPicture c then some (0, .emoji)
      else none
    | .tags letters digits => tag? letters digits c.toNat
    | _ => none

/-- The columns that a character adds before a link, and the link that it starts. -/
def step (l : Link) (c : Char) : Int × Link :=
  if l.isLetter && l ≠ .alef && c.toNat = 0x200D then (0, l.join)
  else if l.isLetter && l ≠ .alef && isIgnorableMark c then (0, l)
  else if l = .lineFeed && c = '\r' then (0, .free)
  else if l = .quoteSelector && inRanges [(0x2018, 0x2019), (0x201C, 0x201D)] c then (2, .free)
  else ((script? l c).or (emoji? l c)).getD (ofChar c)

end Link

/-! ## Selectors -/

/-- A character that chooses the form of the one before it. -/
inductive Selector where
  | none
  | text
  | picture
deriving DecidableEq, Repr

/-- What follows a character: a link, perhaps with a selector before it. -/
structure Tail where
  link : Link := .free
  selector : Selector := .none
deriving DecidableEq, Repr

namespace Tail

/-- The tail after a selector that chose nothing: letters still join over it. -/
def unselected (t : Tail) : Link :=
  if t.selector = .none || t.link.isLetter then t.link else .free

/-- The tail with a selector before it. Letters still join over it, and a joined emoji over the selector of
pictures. -/
def select (t : Tail) (s : Selector) : Tail :=
  let joined : Bool := match t.link with
    | .joiner _ => s = .picture && t.selector = .none
    | l => l.isLetter
  ⟨if joined then t.link else .free, s⟩

/-- The columns of a symbol that is shown as a picture before a tail, if it has such a form. -/
def picture? (t : Tail) (c : Char) : Option Int :=
  if t.selector ≠ .picture || !hasVariants c then none
  else
    match t.link with
    | .joiner _ => some 0
    | _ => some 2

/-- A picture that is shown as text before the selector of texts. -/
def isPlain (t : Tail) (c : Char) : Bool :=
  t.selector = .text && hasVariants c && isPicture c && !inRanges [(0x1F200, 0x1F2FF)] c

/-- The columns that a character adds before a tail, and the tail that it starts. -/
def step (t : Tail) (c : Char) : Int × Tail :=
  match t.picture? c with
  | some columns => (columns, { link := .emoji })
  | none =>
    if c.toNat = 0xFE0F then (0, t.select .picture)
    else if c.toNat = 0xFE0E then (0, t.select .text)
    else if t.isPlain c then (1, {})
    else
      let (columns, link) := t.unselected.step c
      (columns, { link })

end Tail

/-! ## Texts -/

/-- The columns of a text and the tail that it is for a character before it. -/
def measure (cs : List Char) : Int × Tail :=
  cs.foldr (fun c after =>
    let (columns, tail) := after.2.step c
    (after.1 + columns, tail)) (0, {})

/-- The number of columns that a text takes. -/
def width (s : String) : Nat :=
  (measure s.toList).1.toNat

end LiquidTemplate.Text
