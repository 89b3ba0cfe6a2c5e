import LiquidTemplate.Text.Invisible
import LiquidTemplate.Text.Mark

/-!
# Quoted text

A text between quotation marks in which every character can be told from every other: quotation marks and
backslashes follow a backslash, and characters that cannot be seen on their own are written by number.
-/

namespace LiquidTemplate.Text

/-- Marks that are letters in their own right: the halfwidth voicing marks of Katakana. -/
def isVoicingMark (c : Char) : Bool :=
  inRanges [(0xFF9E, 0xFF9F)] c

/-- Inside quotation marks the character is shown as it is. -/
def isPrintable (c : Char) : Bool :=
  !isShapeless c && !isIgnorable c && (!isMark c || isVoicingMark c)

/-- A character inside quotation marks. -/
def quoteChar (c : Char) : List Char :=
  match c with
  | '"' => ['\\', '"']
  | '\\' => ['\\', '\\']
  | '\n' => ['\\', 'n']
  | '\r' => ['\\', 'r']
  | '\t' => ['\\', 't']
  | '\x00' => ['\\', '0']
  | c => if isPrintable c then [c] else "\\u\x7b".toList ++ Nat.toDigits 16 c.toNat ++ ['\x7d']

/-- A text between quotation marks. -/
def quote (s : String) : String :=
  "\"" ++ String.ofList (s.toList.flatMap quoteChar) ++ "\""

end LiquidTemplate.Text
