import LiquidTemplate.Expression.Basic
import LiquidTemplate.Grammar.Rule
import LiquidTemplate.Peg.Parse

/-!
# Grammar of expressions

How literals, ranges, lookups, filters and conditions are written. An expression occurs inside itself only
between the brackets of a lookup.
-/

namespace LiquidTemplate

/-- Parsing expressions of the template grammar. -/
abbrev Grammar : Type → Type 1 :=
  Peg Rule Expression

namespace Grammar

open Peg

/-! ## Blanks, words and names -/

/-- Any number of blanks. -/
def blanks : Grammar Unit :=
  giving () (.many (.char Text.isBlank))

/-- At least one blank. -/
def blanks1 : Grammar Unit :=
  giving () (many1 (.char Text.isBlank))

/-- A given word that no letter, digit or underscore follows. -/
def word (s : String) : Grammar String :=
  giving s (.text s) <* .notAhead (.char Text.isWordChar)

/-- A character of a name after its first one. A dash counts unless it is a trim marker. -/
def nameChar : Grammar Char :=
  .char Text.isWordChar <|> .char (· == '-') <* .notAhead (.text "%\x7d" <|> .text "\x7d\x7d")

/-- A letter or underscore and the characters of a name after it. -/
def plainName : Grammar Unit :=
  giving () (.char Text.isNameStart) <* .many nameChar

/-- A name that may end in a question mark. -/
def askingName : Grammar Unit :=
  plainName <* opt (.text "?")

/-- A comma with blanks around it. -/
def comma : Grammar Unit :=
  blanks *> .text "," <* blanks

/-- A colon with blanks around it. -/
def colon : Grammar Unit :=
  blanks *> .text ":" <* blanks

/-- One item or more with separators between them. -/
def sepBy1 {α β : Type} (item : Grammar α) (separator : Grammar β) : Grammar (List α) :=
  List.cons <$> item <*> .many (separator *> item)

/-! ## Literals -/

/-- A text between two marks of one kind. -/
def quoted (q : Quote) : Grammar StringLiteral :=
  (fun value => ⟨value, q⟩) <$>
    (.char (· == q.char) *> covered (.many (.char (· != q.char))) <* .char (· == q.char))

def string : Grammar StringLiteral :=
  atom .liquidString (quoted .single <|> quoted .double)

/-- Digits, perhaps with a minus sign and a fraction. -/
def number : Grammar Expression :=
  .number <$> atom .liquidNumber (covered
    (opt (.text "-") *> many1 (.char Char.isDigit) *>
      opt (.text "." *> many1 (.char Char.isDigit)) *> .notAhead (.char Text.isWordChar)))

/-- A keyword that no lookup or longer name starts with. -/
def keywordOf (k : Keyword) : Grammar Keyword :=
  giving k (.text k.word) <* .notAhead (giving () nameChar <|> .text "." <|> .text "[")

def keyword : Grammar Keyword :=
  atom .liquidLiteral
    (keywordOf .true <|> keywordOf .false <|> keywordOf .nil <|> keywordOf .null <|> keywordOf .blank <|>
      keywordOf .empty)

/-! ## Lookups and ranges -/

def variableName : Grammar String :=
  atom .variableName (covered askingName)

def bracketStep : Grammar Lookup :=
  named .lookupBracket (.bracket <$> (.text "[" *> blanks *> .recur <* blanks <* .text "]"))

def dotStep : Grammar Lookup :=
  named .lookupDot (.dot <$> (.text "." *> atom .lookupName (covered askingName)))

/-- A variable with steps into it, or steps alone if the first one is a bracket. -/
def lookup : Grammar Expression :=
  named .liquidVariableLookup
    ((fun head steps => .lookup head.1 (head.2 ++ steps)) <$>
      ((fun name => (some name, [])) <$> variableName <|> (fun step => (none, [step])) <$> bracketStep) <*>
      .many (dotStep <|> bracketStep))

def rangeEnd : Grammar Expression :=
  number <|> lookup

def range : Grammar Expression :=
  named .liquidRange
    (.range <$> (.text "(" *> blanks *> rangeEnd <* blanks) <*>
      (.text ".." *> blanks *> rangeEnd <* blanks <* .text ")"))

/-- An expression without filters: the recursive nonterminal. -/
def expression : Grammar Expression :=
  .string <$> string <|> number <|> .keyword <$> keyword <|> range <|> lookup

/-! ## Arguments and filters -/

def namedArgument : Grammar NamedArgument :=
  named .namedArgument
    (.mk <$> atom .argumentName (covered plainName) <*> (colon *> expression))

/-- What stands before a named argument: a comma or blanks. -/
def argumentSeparator : Grammar Unit :=
  comma <|> blanks1

/-- Named arguments after what they belong to. -/
def namedArguments : Grammar (List NamedArgument) :=
  .many (argumentSeparator *> namedArgument)

def filterArgument : Grammar Argument :=
  .named <$> namedArgument <|> .positional <$> expression

def filter : Grammar Filter :=
  named .liquidFilter
    ((fun name arguments => ⟨name, arguments.getD []⟩) <$>
      (blanks *> .text "|" *> blanks *> atom .filterName (covered plainName)) <*>
      opt (colon *> sepBy1 filterArgument comma))

def filtered : Grammar Filtered :=
  named .liquidVariable (.mk <$> expression <*> .many filter)

/-! ## Conditions -/

def comparatorOf (c : Comparator) : Grammar Comparator :=
  giving c (.text c.symbol)

def comparator : Grammar Comparator :=
  atom .comparator
    (comparatorOf .equal <|> comparatorOf .notEqual <|> comparatorOf .lessOrGreater <|>
      comparatorOf .greaterOrEqual <|> comparatorOf .lessOrEqual <|> comparatorOf .greater <|>
      comparatorOf .less <|> giving .contains (word "contains"))

def comparison : Grammar Condition :=
  named .comparison
    ((fun left c right => .compare c left right) <$> expression <*> (blanks *> comparator <* blanks) <*> expression)

def simpleCondition : Grammar Condition :=
  named .condition (comparison <|> .truthy <$> expression)

def connective : Grammar Connective :=
  atom .logicalOperator (giving .and (word "and") <|> giving .or (word "or"))

def condition : Grammar Condition :=
  named .liquidCondition
    (.chain <$> simpleCondition <*>
      .many (.mk <$> (blanks1 *> connective <* blanks1) <*> simpleCondition))

end Grammar

end LiquidTemplate
