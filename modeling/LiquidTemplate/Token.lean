import LiquidTemplate.Markup.Basic
import LiquidTemplate.Text.Basic
import LiquidTemplate.Text.Offset

/-!
# Tokens

A template is first read as a flat list of tokens: texts, tags that open or close something, and items that
stand for themselves. Nothing is nested yet except what is written inside one tag, which is its name, its
attributes and their values. These are lists of tokens too, and may again hold Liquid tags that open and
close.
-/

namespace LiquidTemplate

/-! ## Parts of tokens -/

/-- What opens a Liquid tag. -/
def tagOpen : String := "\x7b%"

/-- What closes a Liquid tag. -/
def tagClose : String := "%\x7d"

/-- What opens a drop. -/
def dropOpen : String := "\x7b\x7b"

/-- What closes a drop. -/
def dropClose : String := "\x7d\x7d"

/-- A Liquid tag or drop with its trim markers. -/
structure Delimiter where
  span : Span
  /-- A dash right after the opening marks. -/
  trimLeft : Bool
  /-- A dash right before the closing marks. -/
  trimRight : Bool
deriving DecidableEq, Repr, Inhabited

/-- The language of embedded code. -/
inductive CodeKind where
  | css
  | javascript
  | typescript
  | json
  | markdown
  | html
  | text
deriving DecidableEq, Repr, Inhabited

/-- The file extension of a language. -/
def CodeKind.extension : CodeKind → String
  | .css => "css"
  | .javascript => "js"
  | .typescript => "ts"
  | .json => "json"
  | .markdown => "md"
  | .html => "html"
  | .text => "txt"

/-- How the value of an attribute is written. -/
inductive AttributeStyle where
  | quoted (quote : Quote)
  | unquoted
  /-- There is no value. -/
  | bare
deriving DecidableEq, Repr, Inhabited

/-! ## Tokens -/

/-- An item of a template before nesting is resolved. -/
inductive Token where
  | text (slice : Slice)
  | frontMatter (span : Span) (body : String)
  | comment (span : Span) (body : String)
  | doctype (span : Span) (legacy : String)
  | openTag (span : Span) (name attributes : List Token)
  | closeTag (span : Span) (name : List Token)
  | voidElement (span : Span) (name : String) (attributes : List Token)
  | selfClosing (span : Span) (name attributes : List Token)
  | rawElement (span : Span) (name : String) (attributes : List Token) (body : Slice) (opener closer : Span)
  /-- A drop with the text it was written as. -/
  | drop (delimiter : Delimiter) (written : String) (markup : DropMarkup)
  | rawTag (span : Span) (name markup : String) (body : Slice) (opener closer : Delimiter)
  | blockOpen (delimiter : Delimiter) (name : String) (markup : Markup)
  | blockClose (delimiter : Delimiter) (name : String)
  | tag (delimiter : Delimiter) (name : String) (markup : Markup)
  | attr (span : Span) (style : AttributeStyle) (name value : List Token)
deriving Repr, Inhabited

namespace Token

def span : Token → Span
  | text s => s.span
  | frontMatter s _ | comment s _ | doctype s _ => s
  | openTag s _ _ | closeTag s _ | voidElement s _ _ | selfClosing s _ _ => s
  | rawElement s _ _ _ _ _ => s
  | rawTag s _ _ _ _ _ => s
  | drop d _ _ | blockOpen d _ _ | blockClose d _ | tag d _ _ => d.span
  | attr s _ _ _ => s

/-- The text of a name fragment, empty for any other token. -/
def written : Token → String
  | text s => s.text
  | drop _ w _ => w
  | _ => ""

/-- The name that fragments spell: opening and closing tags are matched by it. -/
def nameOf (fragments : List Token) : String :=
  String.join (fragments.map written)

/-- Elements that never have a closing tag. -/
def voidNames : List String :=
  ["area", "base", "br", "col", "embed", "hr", "img", "input", "link", "meta", "source", "track", "wbr", "param"]

def isVoidName (name : String) : Bool :=
  voidNames.any (Text.eqIgnoringCase · name)

/-- The token of an opening tag. A void element is known by a literal name; a drop in the name rules it out,
and so does a slash. -/
def ofOpening (span : Span) (name attributes : List Token) (slash : Bool) : Token :=
  if slash then selfClosing span name attributes
  else
    match name with
    | [text s] => if isVoidName s.text then voidElement span s.text attributes else openTag span name attributes
    | _ => openTag span name attributes

/-! ## Languages of embedded code -/

/-- The value of the first attribute of this name whose value is plain text. -/
def attributeText? (name : String) (attributes : List Token) : Option String :=
  attributes.findSome? fun
    | attr _ style fragments value =>
      if style ≠ .bare && Text.eqIgnoringCase (nameOf fragments) name then
        match value with
        | [] => some ""
        | [text s] => some s.text
        | _ => none
      else none
    | _ => none

/-- The language that a `type` attribute names. -/
def codeKindOfType (type : String) : CodeKind :=
  if type ∈ ["", "module", "text/javascript", "text/babel", "application/javascript", "jsx"] then .javascript
  else if type ∈ ["application/x-typescript", "text/typescript", "ts"] then .typescript
  else if type ∈ ["application/json", "application/ld+json", "importmap", "speculationrules"] then .json
  else if type = "text/markdown" then .markdown
  else if type ∈ ["text/html", "text/template", "text/x-template", "text/x-handlebars-template"] then .html
  else .text

/-- The language inside a raw element. The attribute `lang` goes before `type`, and a script without either
holds JavaScript. -/
def elementCodeKind (name : String) (attributes : List Token) : CodeKind :=
  if Text.eqIgnoringCase name "style" then .css
  else
    let lang := (attributeText? "lang" attributes).map Text.trim
    if lang = some "ts" ∨ lang = some "typescript" then .typescript
    else if lang = some "json" then .json
    else
      match attributeText? "type" attributes with
      | none => .javascript
      | some type => codeKindOfType (Text.lower (Text.trim type))

/-- The language inside a raw Liquid tag. -/
def tagCodeKind (name : String) : CodeKind :=
  if name = "javascript" then .javascript
  else if name = "schema" then .json
  else if name = "style" ∨ name = "stylesheet" then .css
  else .text

end Token

end LiquidTemplate
