import LiquidTemplate.Grammar.Markup

/-!
# Grammar of templates

Liquid tags and drops, HTML tags with their attributes, and the text between them. `Token.ofSource` reads
a whole template; where that fails, the answer holds the notes about what was attempted.
-/

namespace LiquidTemplate.Grammar

open Peg

/-! ## Liquid -/

/-- A value that needs to know the slice it covers. -/
def sliced {α : Type} (p : Grammar (Slice → α)) : Grammar α :=
  (fun m => m.2 m.1) <$> .slice p

/-- A value that needs to know the range it covers. -/
def spanned {α : Type} (p : Grammar (Span → α)) : Grammar α :=
  (fun m => m.2 m.1.span) <$> .slice p

/-- A tag or drop: its delimiter, the text it was written as, and what stands inside. -/
structure Delimited (α : Type) where
  delimiter : Delimiter
  written : String
  inner : α

/-- What stands between an opening and a closing mark, with optional trim markers and blanks inside. -/
def delimited {α : Type} (opening closing : String) (inner : Grammar α) : Grammar (Delimited α) :=
  sliced ((fun left x right whole => ⟨⟨whole.span, left, right⟩, whole.text, x⟩) <$>
    (.text opening *> flag (named .trimStart (.text "-")) <* blanks) <*>
    (inner <* blanks) <*>
    (flag (named .trimEnd (.text "-")) <* .text closing))

/-- The end of a drop, as far as lookahead needs it. -/
def dropEnd : Grammar Unit :=
  blanks *> opt (.text "-") *> .text dropClose

def drop : Grammar Token :=
  named .liquidDrop
    ((fun d => .drop d.delimiter d.written d.inner) <$> delimited dropOpen dropClose
      (named .dropMarkup (.value <$> filtered) <* .ahead dropEnd <|>
        (fun text => .plain (Text.trim text)) <$> atom .markupBaseDrop (covered (upTo dropEnd))))

def rawTagName : Grammar String :=
  atom .rawTagName
    (word "raw" <|> word "comment" <|> word "javascript" <|> word "schema" <|> word "stylesheet" <|> word "style")

/-- A tag whose body is not read, up to the first closing tag of its name. -/
def rawTag : Grammar Token :=
  named .liquidRawTag
    (spanned ((fun opener body closer span =>
        .rawTag span opener.inner.1 (Text.trim opener.inner.2) body opener.delimiter closer.delimiter) <$>
      named .rawTagOpen (delimited tagOpen tagClose (Prod.mk <$> (.push rawTagName <* blanks) <*> plainMarkup)) <*>
      atom .rawTagBody (Prod.fst <$> .slice (upTo
        (.text tagOpen *> opt (.text "-") *> blanks *> .text "end" *> .peek *> tagEnd))) <*>
      named .rawTagClose (delimited tagOpen tagClose (.text "end" *> .pop))))

def blockName : Grammar String :=
  atom .blockName
    (word "capture" <|> word "case" <|> word "form" <|> word "for" <|> word "if" <|> word "paginate" <|>
      word "tablerow" <|> word "unless")

def blockClose : Grammar Token :=
  named .liquidTagClose
    ((fun d => .blockClose d.delimiter d.inner) <$> delimited tagOpen tagClose (.text "end" *> blockName))

def blockOpen : Grammar Token :=
  named .liquidTagOpen
    ((fun d => .blockOpen d.delimiter d.inner.1 d.inner.2) <$>
      delimited tagOpen tagClose (blockMarkup <* .ahead tagEnd <|> plainTag blockName))

def tagName : Grammar String :=
  atom .tagName (covered (.text "#" <|> giving () (.char Text.isNameStart <* .many (.char Text.isWordChar))))

def tag : Grammar Token :=
  named .liquidTag
    ((fun d => .tag d.delimiter d.inner.1 d.inner.2) <$>
      delimited tagOpen tagClose (tagMarkup <* .ahead tagEnd <|> plainTag tagName))

def liquidTag : Grammar Token :=
  rawTag <|> blockClose <|> blockOpen <|> tag

def liquid : Grammar Token :=
  liquidTag <|> drop

/-! ## Attributes -/

/-- What starts a drop or a Liquid tag. -/
def liquidStart : Grammar Unit :=
  .text dropOpen <|> .text tagOpen

/-- A nonempty text without a class of characters and without Liquid, as a token. -/
def textWithout (rule : Rule) (excluded : Char → Bool) : Grammar Token :=
  atom rule ((fun m => .text m.1) <$> .slice (many1 (.notAhead liquidStart *> .char (! excluded ·))))

def attributeNameText : Grammar Token :=
  atom .attrNameText ((fun m => .text m.1) <$> .slice (many1
    (.notAhead (liquidStart <|> .text "/>") *>
      .char fun c => !(Text.isBlank c || c == '=' || c == '>' || c == '"' || c == '\'' || c == '<'))))

def attributeName : Grammar (List Token) :=
  named .attrName (many1 (attributeNameText <|> drop))

/-- The characters that end a value without quotation marks. -/
def endsUnquoted (c : Char) : Bool :=
  Text.isBlank c || c == '"' || c == '\'' || c == '=' || c == '<' || c == '>' || c == '\x60'

/-- The name of an attribute and the sign after it. -/
def attributeHead : Grammar (List Token) :=
  attributeName <* blanks <* .text "=" <* blanks

/-- An attribute with its parts. -/
def attributeOf (rule : Rule) (style : AttributeStyle) (parts : Grammar (List Token × List Token)) : Grammar Token :=
  named rule (spanned ((fun part span => .attr span style part.1 part.2) <$> parts))

def attributeQuoted (rule valueRule textRule : Rule) (q : Quote) : Grammar Token :=
  attributeOf rule (.quoted q)
    (Prod.mk <$> (attributeHead <* .char (· == q.char)) <*>
      (named valueRule (.many (liquid <|> textWithout textRule (· == q.char))) <* .char (· == q.char)))

def attr : Grammar Token :=
  attributeQuoted .attrDoubleQuoted .attrValueDouble .attrTextDouble .double <|>
    attributeQuoted .attrSingleQuoted .attrValueSingle .attrTextSingle .single <|>
    attributeOf .attrUnquoted .unquoted
      (Prod.mk <$> attributeHead <*>
        named .attrValueUnquoted (many1 (drop <|> textWithout .attrTextUnquoted endsUnquoted))) <|>
    attributeOf .attrEmpty .bare ((·, []) <$> attributeName)

/-- Attributes, and Liquid tags among them. -/
def attributes : Grammar (List Token) :=
  .many (blanks *> (liquidTag <|> attr)) <* blanks

/-! ## HTML -/

def comment : Grammar Token :=
  named .htmlComment
    (spanned ((fun body span => .comment span body) <$>
      (.text "<!--" *> atom .commentBody (covered (upTo (.text "-->"))) <* .text "-->")))

def doctype : Grammar Token :=
  named .htmlDoctype
    (spanned ((fun legacy span => .doctype span (Text.trim legacy)) <$>
      (.text "<!" *> .textNoCase "doctype" *>
        atom .doctypeBody (covered (.many (.char (· != '>')))) <* .text ">")))

/-- The name of an element whose body is not read. -/
def rawElementName : Grammar String :=
  atom .htmlRawName (covered
    ((.textNoCase "script" <|> .textNoCase "style") <*
      .notAhead (.char fun c => Text.isWordChar c || c == '-' || c == ':')))

/-- An element whose body is not read, up to the first closing tag that repeats its name. -/
def rawElement : Grammar Token :=
  named .htmlRawTag
    (spanned ((fun opener body closer span =>
        .rawElement span opener.2.1 opener.2.2 body opener.1.span closer.1.span) <$>
      named .htmlRawOpen
        (.slice (Prod.mk <$> (.text "<" *> .push rawElementName) <*> (attributes <* .text ">"))) <*>
      atom .htmlRawBody (Prod.fst <$> .slice (upTo (.text "</" *> .peek *> blanks *> .text ">"))) <*>
      named .htmlRawClose (.slice (.text "</" *> .pop *> blanks *> .text ">"))))

def isTagNameChar (c : Char) : Bool :=
  c.isAlphanum || c == '-' || c == '_' || c == ':' || c == '.'

def elementName : Grammar (List Token) :=
  named .htmlTagName
    (many1 (atom .tagNameText ((fun m => .text m.1) <$> .slice (many1 (.char isTagNameChar))) <|> drop))

def closeTag : Grammar Token :=
  named .htmlTagClose
    (spanned ((fun name span => .closeTag span name) <$> (.text "</" *> elementName <* blanks <* .text ">")))

def openTag : Grammar Token :=
  named .htmlTagOpen
    (spanned ((fun name attributes slash span => Token.ofOpening span name attributes slash) <$>
      (.text "<" *> elementName) <*>
      attributes <*>
      named .htmlTagEnd (giving true (.text "/>") <|> giving false (.text ">"))))

def html : Grammar Token :=
  comment <|> doctype <|> rawElement <|> closeTag <|> openTag

/-! ## Text and documents -/

/-- What may start an HTML tag. -/
def htmlStart : Grammar Unit :=
  .text "<" *> (giving () (.char fun c => c.isAlpha || c == '/' || c == '!') <|> .text dropOpen)

def textChar : Grammar Char :=
  .notAhead (htmlStart <|> liquidStart) *> .char (! Text.isBlank ·)

/-- Text up to the next tag or drop, without the blanks around it. -/
def textRun : Grammar Token :=
  atom .textNode ((fun m => .text m.1) <$>
    .slice (many1 textChar *> .many (blanks1 *> many1 textChar)))

def newline : Grammar Unit :=
  .text "\n" <|> .text "\r\n" <|> .text "\r"

def frontMatter : Grammar Token :=
  named .yamlFrontmatter
    (spanned ((fun body span => .frontMatter span body) <$>
      (.text "---" *> named .frontmatterBody (covered (upTo (newline *> .text "---") *> newline)) <* .text "---")))

def node : Grammar Token :=
  liquid <|> html <|> textRun

/-- A whole template. -/
def document : Grammar (List Token) :=
  named .document
    ((fun front nodes => front.toList ++ nodes) <$>
      (blanks *> opt frontMatter <* blanks) <*>
      (.many (node <* blanks) <* named .endOfInput .done))

end LiquidTemplate.Grammar

namespace LiquidTemplate

/-- The tokens of a template, or the notes about what was attempted. -/
def Token.ofSource (source : String) : Except (Attempts Rule) (List Token) :=
  match Peg.run Grammar.expression Grammar.document source.toList with
  | (some (tokens, _), _) => .ok tokens
  | (none, attempts) => .error attempts

end LiquidTemplate
