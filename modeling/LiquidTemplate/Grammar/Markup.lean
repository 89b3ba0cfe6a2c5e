import LiquidTemplate.Grammar.Expression
import LiquidTemplate.Token

/-!
# Grammar of tag markup

The tags whose markup has a known form. Each of them gives the name of the tag together with its markup. A
tag that fits none of them keeps its markup as plain text.
-/

namespace LiquidTemplate.Grammar

open Peg

/-- The end of a tag, as far as lookahead needs it. -/
def tagEnd : Grammar Unit :=
  blanks *> opt (.text "-") *> .text tagClose

/-! ## Tags that open a block -/

def ifMarkup : Grammar (String × Markup) :=
  named .markupIf
    (.mk <$> ((word "if" <|> word "unless") <* blanks1) <*> (.condition <$> condition))

def caseMarkup : Grammar (String × Markup) :=
  named .markupCase (.mk <$> (word "case" <* blanks1) <*> (.subject <$> expression))

def forMarkup : Grammar (String × Markup) :=
  named .markupFor
    ((fun name item collection reversed arguments => (name, .loop item collection reversed arguments)) <$>
      ((word "for" <|> word "tablerow") <* blanks1) <*>
      (variableName <* blanks1 <* word "in" <* blanks1) <*>
      expression <*>
      flag (blanks1 *> named .reversed (word "reversed")) <*>
      namedArguments)

def captureMarkup : Grammar (String × Markup) :=
  named .markupCapture (.mk <$> (word "capture" <* blanks1) <*> (.target <$> variableName))

def paginateMarkup : Grammar (String × Markup) :=
  named .markupPaginate
    ((fun name collection pageSize arguments => (name, .paginate collection pageSize arguments)) <$>
      (word "paginate" <* blanks1) <*>
      (expression <* blanks1 <* word "by" <* blanks1) <*>
      expression <*>
      namedArguments)

/-- Known markup of tags that open a block. -/
def blockMarkup : Grammar (String × Markup) :=
  ifMarkup <|> caseMarkup <|> forMarkup <|> captureMarkup <|> paginateMarkup

/-! ## Other tags -/

def elsifMarkup : Grammar (String × Markup) :=
  named .markupElsif (.mk <$> (word "elsif" <* blanks1) <*> (.condition <$> condition))

/-- What stands between the values of `when`. -/
def whenSeparator : Grammar Unit :=
  comma <|> giving () (blanks1 *> word "or" <* blanks1)

def whenMarkup : Grammar (String × Markup) :=
  named .markupWhen (.mk <$> (word "when" <* blanks1) <*> (.values <$> sepBy1 expression whenSeparator))

def assignMarkup : Grammar (String × Markup) :=
  named .markupAssign
    ((fun name target value => (name, .assign target value)) <$>
      (word "assign" <* blanks1) <*>
      (variableName <* blanks <* .text "=" <* blanks) <*>
      filtered)

def echoMarkup : Grammar (String × Markup) :=
  named .markupEcho (.mk <$> (word "echo" <* blanks1) <*> (.echo <$> filtered))

def cycleMarkup : Grammar (String × Markup) :=
  named .markupCycle
    ((fun name group choices => (name, .cycle group choices)) <$>
      (word "cycle" <* blanks1) <*>
      opt (named .cycleGroup expression <* colon) <*>
      sepBy1 expression comma)

def binding : Grammar Binding :=
  atom .renderKind (giving .asValue (word "with") <|> giving .forEach (word "for"))

def snippetMarkup : Grammar (String × Markup) :=
  named .markupRender
    ((fun name snippet bound renamed arguments => (name, .snippet snippet bound renamed arguments)) <$>
      ((word "render" <|> word "include") <* blanks1) <*>
      (.string <$> string <|> lookup) <*>
      opt (named .renderVariable (.mk <$> (blanks1 *> binding <* blanks1) <*> expression)) <*>
      opt (named .renderAlias (blanks1 *> word "as" *> blanks1 *> variableName)) <*>
      namedArguments)

def counterMarkup : Grammar (String × Markup) :=
  named .markupCounter
    (.mk <$> ((word "increment" <|> word "decrement") <* blanks1) <*> (.target <$> variableName))

def layoutMarkup : Grammar (String × Markup) :=
  named .markupLayout (.mk <$> (word "layout" <* blanks1) <*> (.layout <$> expression))

def sectionMarkup : Grammar (String × Markup) :=
  named .markupSection (.mk <$> (word "section" <* blanks1) <*> (.sectionName <$> string))

/-- The statements in the body of a `liquid` tag: its lines, trimmed, without the empty ones. -/
def statementsOf (body : String) : List String :=
  ((Text.lines body).map Text.trim).filter (! ·.isEmpty)

def liquidMarkup : Grammar (String × Markup) :=
  named .markupLiquid
    (.mk <$> word "liquid" <*>
      ((fun body => .statements (statementsOf body)) <$> atom .liquidLines (covered (upTo tagEnd))))

/-- Known markup of tags that open no block. -/
def tagMarkup : Grammar (String × Markup) :=
  elsifMarkup <|> whenMarkup <|> assignMarkup <|> echoMarkup <|> cycleMarkup <|> snippetMarkup <|>
    counterMarkup <|> layoutMarkup <|> sectionMarkup <|> liquidMarkup

/-- Markup of no known form, up to the end of the tag. -/
def plainMarkup : Grammar String :=
  atom .markupBase (covered (upTo tagEnd))

/-- The name and the plain markup of a tag. -/
def plainTag (name : Grammar String) : Grammar (String × Markup) :=
  (fun name text => (name, .plain (Text.trim text))) <$> (name <* blanks) <*> plainMarkup

end LiquidTemplate.Grammar
