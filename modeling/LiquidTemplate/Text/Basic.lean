/-!
# Characters and lines

The character classes that templates are read with, and the few operations on text that depend on them. Two
notions of white space occur: a *blank* is one of the five characters that separate items of markup, while
*white space* is the Unicode property and is what trimming removes. Operations work on lists of characters;
those that callers need on strings are repeated for `String`.
-/

namespace LiquidTemplate.Text

/-! ## Character classes -/

/-- Space, tab, line feed, form feed or carriage return. -/
def isBlank (c : Char) : Bool :=
  c == ' ' || c == '\t' || c == '\n' || c == '\x0c' || c == '\r'

/-- The Unicode property White_Space, as closed ranges of code points. -/
def whiteSpaceRanges : List (Nat × Nat) :=
  [(0x9, 0xD), (0x20, 0x20), (0x85, 0x85), (0xA0, 0xA0), (0x1680, 0x1680), (0x2000, 0x200A),
   (0x2028, 0x2029), (0x202F, 0x202F), (0x205F, 0x205F), (0x3000, 0x3000)]

/-- Whether a code point lies in one of the closed ranges, which ascend. -/
def inRanges : List (Nat × Nat) → Char → Bool
  | [], _ => false
  | (first, last) :: ranges, c => first ≤ c.toNat && (c.toNat ≤ last || inRanges ranges c)

def isWhiteSpace (c : Char) : Bool :=
  inRanges whiteSpaceRanges c

/-- An ASCII letter, an ASCII digit or an underscore. -/
def isWordChar (c : Char) : Bool :=
  c.isAlphanum || c == '_'

/-- An ASCII letter or an underscore: what a name may start with. -/
def isNameStart (c : Char) : Bool :=
  c.isAlpha || c == '_'

/-! ## Trimming -/

def trimStartChars (cs : List Char) : List Char :=
  cs.dropWhile isWhiteSpace

def trimEndChars (cs : List Char) : List Char :=
  (cs.reverse.dropWhile isWhiteSpace).reverse

/-- The text without white space at its two ends. -/
def trim (s : String) : String :=
  String.ofList (trimEndChars (trimStartChars s.toList))

/-- The text holds nothing but white space. -/
def isAllWhiteSpace (s : String) : Bool :=
  s.toList.all isWhiteSpace

/-- The text without one carriage return at its end. -/
def dropReturn (cs : List Char) : List Char :=
  match cs.reverse with
  | '\r' :: rest => rest.reverse
  | _ => cs

/-! ## Pieces of a text -/

/-- The pieces between separators: always one more than there are separators. -/
def splitChars (sep : Char → Bool) : List Char → List (List Char)
  | [] => [[]]
  | c :: cs =>
    if sep c then [] :: splitChars sep cs
    else
      match splitChars sep cs with
      | piece :: pieces => (c :: piece) :: pieces
      | [] => [[c]]

/-- The pieces between line feeds, without one carriage return at the end of each. -/
def rawLines (s : String) : List String :=
  (splitChars (· == '\n') s.toList).map fun cs => String.ofList (dropReturn cs)

/-- The lines of a text: the pieces between line feeds, where an empty last piece is no line. -/
def lines (s : String) : List String :=
  let pieces := splitChars (· == '\n') s.toList
  let kept := if pieces.getLast? = some [] then pieces.dropLast else pieces
  kept.map String.ofList

/-- The maximal runs of characters that are all blank or all not blank. -/
def runs : List Char → List (List Char)
  | [] => []
  | c :: cs =>
    match runs cs with
    | (d :: ds) :: rest => if isBlank c == isBlank d then (c :: d :: ds) :: rest else [c] :: (d :: ds) :: rest
    | _ => [[c]]

theorem ne_nil_of_mem_runs {cs run : List Char} (h : run ∈ runs cs) : run ≠ [] := by
  induction cs generalizing run with
  | nil => simp [runs] at h
  | cons c cs ih =>
    rw [runs] at h
    split at h
    next d ds rest hr =>
      have htail : ∀ r ∈ rest, r ≠ [] := fun r hm => ih (by rw [hr]; exact List.mem_cons_of_mem _ hm)
      split at h
      · rcases List.mem_cons.1 h with rfl | hm
        · simp
        · exact htail run hm
      · rcases List.mem_cons.1 h with rfl | hm
        · simp
        · exact ih (by rw [hr]; exact hm)
    next => simp_all

/-- Dividing a text into runs loses nothing. -/
theorem flatten_runs (cs : List Char) : (runs cs).flatten = cs := by
  induction cs with
  | nil => rfl
  | cons c cs ih =>
    rw [runs]
    split
    next d ds rest h =>
      rw [h] at ih
      split <;> simp [← ih]
    next h =>
      match hr : runs cs with
      | [] => rw [hr] at ih; simp [← ih]
      | [] :: rest => exact absurd rfl (@ne_nil_of_mem_runs cs [] (by rw [hr]; simp))
      | (d :: ds) :: rest => exact absurd hr (h d ds rest)

/-- A run of blanks with at least two line feeds in it. -/
def isParagraphBreak (run : List Char) : Bool :=
  run.all isBlank && 1 < run.count '\n'

/-- The first run of characters that are not blank, empty for a blank text. -/
def firstWord (s : String) : String :=
  String.ofList ((s.toList.dropWhile isBlank).takeWhile (!isBlank ·))

def countLineFeeds (cs : List Char) : Nat :=
  cs.count '\n'

def hasLineFeed (s : String) : Bool :=
  s.toList.contains '\n'

/-! ## Letter case -/

/-- Equality up to the case of ASCII letters. -/
def eqIgnoringCase (a b : String) : Bool :=
  a.toList.map Char.toLower == b.toList.map Char.toLower

/-- The text with its ASCII letters in lower case. -/
def lower (s : String) : String :=
  String.ofList (s.toList.map Char.toLower)

/-- The text with its ASCII letters in upper case. -/
def upper (s : String) : String :=
  String.ofList (s.toList.map Char.toUpper)

/-! ## Searching -/

/-- What follows `start` in a text that begins with it. -/
def stripStart? : List Char → List Char → Option (List Char)
  | [], cs => some cs
  | _ :: _, [] => none
  | p :: ps, c :: cs => if p == c then stripStart? ps cs else none

theorem stripStart?_eq_some_iff {start cs rest : List Char} :
    stripStart? start cs = some rest ↔ cs = start ++ rest := by
  induction start generalizing cs with
  | nil => simp [stripStart?]
  | cons p ps ih =>
    cases cs with
    | nil => simp [stripStart?]
    | cons c cs =>
      by_cases h : p = c
      · simp [stripStart?, h, ih]
      · simp [stripStart?, h, Ne.symm h]

/-- Replace occurrences of the keys from left to right, without overlap. At each place the first key that
occurs there wins; `skip` counts the characters of the last occurrence still to be passed over. -/
def replaceAllChars (table : List (String × String)) : Nat → List Char → List Char
  | _, [] => []
  | skip + 1, _ :: cs => replaceAllChars table skip cs
  | 0, c :: cs =>
    match table.find? (fun entry => (stripStart? entry.1.toList (c :: cs)).isSome) with
    | some entry => entry.2.toList ++ replaceAllChars table (entry.1.length - 1) cs
    | none => c :: replaceAllChars table 0 cs

/-- Replace every occurrence of a key of the table by its value. -/
def replaceAll (table : List (String × String)) (s : String) : String :=
  String.ofList (replaceAllChars table 0 s.toList)

end LiquidTemplate.Text
