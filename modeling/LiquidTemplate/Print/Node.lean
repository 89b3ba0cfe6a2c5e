import LiquidTemplate.Code.Basic
import LiquidTemplate.Code.Dedent
import LiquidTemplate.Print.Gap
import LiquidTemplate.Print.Inline

/-!
# Printing nodes

The layout document of each kind of node. Code inside a template is handed to the formatter on the way, in
the order in which it stands there. `level` is the indentation that surrounds a node.
-/

namespace LiquidTemplate

/-! ## Text and verbatim parts -/

/-- A text as it stands, line by line. -/
def verbatim (s : String) : Doc :=
  .separated .emptyLine ((Text.rawLines s).map .text)

/-- Runs of blanks and words: words are filled up to the width, and paragraphs stay apart. -/
def fill : List (List Char) → Doc
  | [] => .nil
  | [run] => if run.all Text.isBlank then .nil else .text (String.ofList run)
  | run :: runs =>
    (if run.all Text.isBlank then
      (if Text.isParagraphBreak run then .blankLine else .softLine)
    else .text (String.ofList run)) ++ fill runs

def printText (value : String) : Doc :=
  fill (Text.runs value.toList)

def printDoctype (legacy : String) : Doc :=
  .text ("<!DOCTYPE " ++ (if Text.eqIgnoringCase legacy "html" then "html" else legacy) ++ ">")

/-! ## Liquid -/

def printDrop (ctx : PrintContext) (markup : DropMarkup) (d : Delimiter) : Doc :=
  let q := ctx.stringQuote none
  let body := match markup with
    | .plain text => if text.isEmpty then .text " " else .text " " ++ verbatim text ++ .text " "
    | .value v =>
      .group (.nest ctx.options.indentWidth
        (.line 1 ++ .text (v.subject.render q) ++
          .concat (v.filters.map fun f => .line 1 ++ .text (f.render q))) ++ .line 1)
  .text d.dropStart ++ body ++ .text d.dropStop

/-- What stands between the name of a tag and its delimiters. -/
def printHead (head : String) : Doc :=
  .text " " ++ verbatim head ++ .text " "

/-- A closing tag. -/
def printEnd (name : String) (d : Delimiter) : Doc :=
  .text tagOpen ++ trimMarker d.trimLeft .never ++ .text (" end" ++ name ++ " ") ++
    trimMarker d.trimRight .never ++ .text tagClose

/-- The words that open a block inside a `liquid` tag. -/
def isStatementBlock (word : String) : Bool :=
  word ∈ ["if", "unless", "for", "case", "capture", "tablerow", "paginate", "form", "comment"]

/-- The word closes a block inside a `liquid` tag. -/
def isStatementEnd (word : String) : Bool :=
  (Text.stripStart? "end".toList word.toList).any fun rest => isStatementBlock (String.ofList rest)

/-- The level of a statement whose first word is given, and the depth after it. -/
def statementLevel (depth : Nat) (word : String) : Nat × Nat :=
  let level :=
    if word ∈ ["else", "elsif", "when"] || isStatementEnd word then depth - 1 else depth
  let after := if isStatementEnd word then depth - 1 else depth
  (level, if isStatementBlock word then after + 1 else after)

/-- Statements, one a line, indented by the blocks around them. -/
def printStatements (indentWidth : Nat) : Nat → List String → Doc
  | _, [] => .nil
  | depth, line :: lines =>
    let (level, after) := statementLevel depth (Text.firstWord line)
    .nest (indentWidth * (level + 1)) (.hardLine ++ .text line) ++ printStatements indentWidth after lines

/-- The children between two delimiters of a tag. -/
structure Body where
  /-- The boundary before the children and the children, nested. -/
  doc : Doc
  /-- The boundary after the children. -/
  after : Doc
  openTrim : AddedTrim
  closeTrim : AddedTrim
deriving Repr, Inhabited

/-- White space in a container without children, if it matters. -/
def printDangling (facts : Facts) : Doc :=
  if facts.hasDangling && facts.danglingMatters then .line 1 else .nil

/-- The body of a container whose children are printed as `inner`. -/
def bodyOf (ctx : PrintContext) (forced : Bool) (container : Facts) (children : List (Node Facts)) (inner : Doc) :
    Body :=
  match children.head?, children.getLast? with
  | some first, some last =>
    let before := boundary first.info.leadingMatters first.info.hasLeading forced
    let after := boundary last.info.trailingMatters last.info.hasTrailing forced
    ⟨.nest ctx.options.indentWidth (before.1 ++ inner), after.1, before.2, after.2⟩
  | _, _ => ⟨printDangling container, .nil, .never, .never⟩

/-- The part of a tag's body that follows one of its delimiters: the head and the delimiter, except after the
tag itself, and the body. -/
structure Part where
  delimiter : Option (String × Delimiter)
  body : Body
deriving Repr, Inhabited

/-- The parts of a body one after the other, where `close` is the marker that the part before asks for, and the
marker that the last part asks for. -/
def printParts (close : AddedTrim) : List Part → Doc × AddedTrim
  | [] => (.nil, close)
  | part :: parts =>
    let head := match part.delimiter with
      | some (head, d) =>
        .text tagOpen ++ trimMarker d.trimLeft close ++ printHead head ++
          trimMarker d.trimRight part.body.openTrim ++ .text tagClose
      | none => .nil
    let rest := printParts part.body.closeTrim parts
    (head ++ part.body.doc ++ part.body.after ++ rest.1, rest.2)

/-- A tag with a body. -/
def printBlock (name head : String) (opener : Delimiter) (closer : Option Delimiter) (parts : List Part) : Doc :=
  let openTrim := (parts.head?.map (·.body.openTrim)).getD .never
  let body := printParts .never parts
  let inside := printHead head ++ trimMarker opener.trimRight openTrim ++ .text tagClose ++ body.1
  let start := .text tagOpen ++ trimMarker opener.trimLeft .never
  match closer with
  | some d =>
    start ++ .group (inside ++ .text tagOpen ++ trimMarker d.trimLeft body.2 ++ .text (" end" ++ name ++ " ")) ++
      trimMarker d.trimRight .never ++ .text tagClose
  | none => start ++ .group inside

/-! ## Elements -/

/-- Names of HTML elements, which are printed in lower case. -/
def htmlNames : List String :=
  ["a", "abbr", "address", "area", "article", "aside", "audio", "b", "base", "bdi", "bdo", "blockquote", "body",
   "br", "button", "canvas", "caption", "cite", "code", "col", "colgroup", "data", "datalist", "dd", "del",
   "details", "dfn", "dialog", "div", "dl", "dt", "em", "embed", "fieldset", "figcaption", "figure", "footer",
   "form", "h1", "h2", "h3", "h4", "h5", "h6", "head", "header", "hgroup", "hr", "html", "i", "iframe", "img",
   "input", "ins", "kbd", "label", "legend", "li", "link", "main", "map", "mark", "math", "menu", "menuitem",
   "meta", "meter", "nav", "noscript", "object", "ol", "optgroup", "option", "output", "p", "param", "picture",
   "pre", "progress", "q", "rb", "rp", "rt", "rtc", "ruby", "s", "samp", "script", "search", "section", "select",
   "slot", "small", "source", "span", "strong", "style", "sub", "summary", "sup", "svg", "table", "tbody", "td",
   "template", "textarea", "tfoot", "th", "thead", "time", "title", "tr", "track", "u", "ul", "var", "video", "wbr"]

/-- The name of an element as printed. -/
def printName (ctx : PrintContext) (fragments : List (Node Facts)) : String :=
  let name := Node.inlineList ctx none fragments
  if Text.lower name ∈ htmlNames then Text.lower name else name

/-- How the attributes of an element are arranged. -/
inductive AttributeLayout where
  | fill
  | onePerLine
  | singleLine
deriving DecidableEq, Repr, Inhabited

namespace AttributeLayout

def choose (o : Options) (name : String) (count : Nat) : AttributeLayout :=
  if Text.eqIgnoringCase name "link" && o.singleLineLinkTags then .singleLine
  else if o.singleAttributePerLine && 1 < count then .onePerLine
  else .fill

def separator : AttributeLayout → Doc
  | .fill => .line 1
  | .onePerLine => .hardLine
  | .singleLine => .text " "

/-- What goes before the end of a tag. -/
def beforeClose (slash : Bool) : AttributeLayout → Doc
  | .fill => .line (if slash then 1 else 0)
  | .onePerLine => .hardLine
  | .singleLine => if slash then .text " " else .nil

end AttributeLayout

/-- A node after a remark that asks to leave it alone. -/
def isIgnored (ctx : PrintContext) (prev : Option (Node Facts)) : Bool :=
  (prev.bind Node.remark?).any fun text => Text.trim text = ctx.options.ignoreDirective

/-- The items of an attribute list, each after a separator. -/
def printAttributeItems (ctx : PrintContext) (layout : AttributeLayout) (prev : Option (Node Facts)) :
    List (Node Facts) → Doc
  | [] => .nil
  | n :: ns =>
    let item :=
      if n.isAttribute then
        verbatim (if isIgnored ctx prev then Text.slice ctx.source n.span else n.inline ctx none)
      else .text (n.inline ctx none)
    layout.separator ++ item ++ printAttributeItems ctx layout (some n) ns

/-- An opening tag up to its attributes, and their arrangement. -/
def printOpening (ctx : PrintContext) (name : String) (attributes : List (Node Facts)) : Doc × AttributeLayout :=
  let layout := AttributeLayout.choose ctx.options name attributes.length
  (.text "<" ++ .text name ++
    .nest ctx.options.indentWidth (printAttributeItems ctx layout none attributes), layout)

/-- An element whose body is printed as it stands. -/
def printKept (opening : Doc × AttributeLayout) (name body : String) : Doc :=
  .group (opening.1 ++ opening.2.beforeClose false ++ .text ">") ++ verbatim body ++ .text ("</" ++ name) ++ .text ">"

/-- A line break next to a bracket that sticks to the content. -/
def printBracketLine (forced : Bool) : Doc :=
  if forced then .hardLine else .line 0

/-- An element whose children are printed as `inner`. A bracket that white space would separate from the content
is printed right next to it, on the other side of the line break. -/
def printElement (ctx : PrintContext) (opening : Doc × AttributeLayout) (name : String) (forced : Bool)
    (container : Facts) (children : List (Node Facts)) (inner : Doc) : Doc :=
  let opened := opening.1 ++ opening.2.beforeClose false ++ .text ">"
  match children.head?, children.getLast? with
  | some first, some last =>
    let sticksOpen := first.info.leadingMatters && !first.info.hasLeading
    let sticksClose := last.info.trailingMatters && !last.info.hasTrailing
    let before :=
      if sticksOpen then printBracketLine forced ++ .text ">"
      else (boundary first.info.leadingMatters first.info.hasLeading forced).1
    let body := before ++ inner ++ (if sticksClose then .text ("</" ++ name) else .nil)
    let after :=
      if sticksClose then printBracketLine forced ++ .text ">"
      else (boundary last.info.trailingMatters last.info.hasTrailing forced).1 ++ .text ("</" ++ name) ++ .text ">"
    .group (.group (if sticksOpen then opening.1 else opened) ++ .nest ctx.options.indentWidth body ++ after)
  | _, _ => .group (.group opened ++ printDangling container ++ .text ("</" ++ name) ++ .text ">")

/-- An element without a body. -/
def printChildless (opening : Doc × AttributeLayout) (slash : Bool) : Doc :=
  .group (opening.1 ++ opening.2.beforeClose slash ++ .text (if slash then "/>" else ">"))

/-! ## Embedded code -/

/-- Lines of code, each after a line break. -/
def printCodeLines (lines : List String) : Doc :=
  .concat (lines.map fun line => if line.isEmpty then .emptyLine else .hardLine ++ .text line)

/-- The body of a script or of a raw tag, formatted and indented. -/
def printCode (ctx : PrintContext) (formatter : CodeFormatter) (level : Nat) (indent : Bool) (body : RawBody) :
    StateM Session Doc :=
  if Text.isAllWhiteSpace body.slice.text then return .nil
  else if body.isVerbatim then return verbatim body.slice.text
  else do
    let extra := if indent then ctx.options.indentWidth else 0
    let code ← formatter.ask
      ⟨body.slice.text, body.kind, ctx.options.printWidth - level - extra, ctx.options.indentWidth⟩
    let lines := printCodeLines (dedent code)
    return (if indent then .nest ctx.options.indentWidth lines else lines) ++ .hardLine

/-- Whether the code in a raw element is indented. -/
def indentsElement (o : Options) (name : String) : Bool :=
  if name = "script" then o.scriptIndent else if name = "style" then o.styleIndent else true

/-- Whether the code in a raw tag is indented. -/
def indentsTag (o : Options) (name : String) : Bool :=
  if name = "javascript" then o.scriptIndent
  else if name = "style" || name = "stylesheet" then o.styleIndent
  else true

/-! ## Nodes -/

mutual

/-- The document of a node after another one. -/
def printNode (ctx : PrintContext) (formatter : CodeFormatter) (level : Nat) (prev : Option (Node Facts)) :
    Node Facts → StateM Session Doc
  | ⟨info, span, kind, name, attributes, value, children⟩ =>
    let n : Node Facts := ⟨info, span, kind, name, attributes, value, children⟩
    let o := ctx.options
    let q := ctx.stringQuote none
    if isIgnored ctx prev then return verbatim (Text.slice ctx.source span)
    else
      match kind with
      | .document =>
        if children.isEmpty then return .nil
        else do
          let inner ← printSiblings ctx formatter level n.separatesChildren none children
          return .group inner ++ .hardLine
      | .text text => return printText text
      | .frontMatter body => return .text "---" ++ verbatim body ++ .text "---"
      | .comment body => return .text "<!--" ++ verbatim body ++ .text "-->"
      | .doctype legacy => return printDoctype legacy
      | .element opener closer => do
        let printed := printName ctx name
        let opening := printOpening ctx printed attributes
        if info.keepsLayout then
          return printKept opening printed (Text.slice ctx.source ⟨opener.stop, closer.start⟩)
        else
          let inner ← printSiblings ctx formatter (level + o.indentWidth) n.separatesChildren none children
          return printElement ctx opening printed (n.isForced ctx.source) info children inner
      | .voidElement elementName => return printChildless (printOpening ctx (Text.lower elementName) attributes) false
      | .selfClosing => return printChildless (printOpening ctx (printName ctx name) attributes) true
      | .rawElement elementName body _ _ => do
        let printed := Text.lower elementName
        let opening := printOpening ctx printed attributes
        let code ← printCode ctx formatter level (indentsElement o printed) body
        return printChildless opening false ++ code ++ .text ("</" ++ printed ++ ">")
      | .tag tagName markup opener =>
        let start := .text tagOpen ++ trimMarker opener.trimLeft .never
        let body := match markup with
          | .statements lines => .text " liquid" ++ printStatements o.indentWidth 0 lines ++ .hardLine
          | markup => printHead (tagHead q tagName markup)
        return start ++ body ++ trimMarker opener.trimRight .never ++ .text tagClose
      | .block tagName markup opener closer =>
        if info.keepsLayout then
          let stop := (closer.map (·.span.start)).getD span.stop
          return .text tagOpen ++ trimMarker opener.trimLeft .never ++ printHead (tagHead q tagName markup) ++
            trimMarker opener.trimRight .never ++ .text tagClose ++
            verbatim (Text.slice ctx.source ⟨opener.span.stop, stop⟩) ++
            (match closer with
              | some d => printEnd tagName d
              | none => .nil)
        else
          let forced := n.isForced ctx.source
          if isBranchedTag tagName then do
            let parts ← printBranches ctx formatter level forced n.isDividedCase children
            return printBlock tagName (tagHead q tagName markup) opener closer parts
          else do
            let inner ← printSiblings ctx formatter (level + o.indentWidth) n.separatesChildren none children
            return printBlock tagName (tagHead q tagName markup) opener closer
              [⟨none, bodyOf ctx forced info children inner⟩]
      | .branch _ _ _ => return verbatim (Text.slice ctx.source span)
      | .rawTag tagName markup body opener closer => do
        let head := if markup.isEmpty then tagName else tagName ++ " " ++ markup
        let content ←
          if body.kind = .text then pure (verbatim body.slice.text)
          else printCode ctx formatter level (indentsTag o tagName) body
        return .text tagOpen ++ trimMarker opener.trimLeft .never ++ .text (" " ++ head ++ " ") ++
          trimMarker opener.trimRight .never ++ .text tagClose ++ content ++ printEnd tagName closer
      | .drop _ markup d => return printDrop ctx markup d
      | .attr _ => return verbatim (n.inline ctx none)

/-- Siblings with the gaps between them. -/
def printSiblings (ctx : PrintContext) (formatter : CodeFormatter) (level : Nat) (separates : Bool)
    (prev : Option (Node Facts)) : List (Node Facts) → StateM Session Doc
  | [] => return .nil
  | n :: ns => do
    let gap := match prev with
      | some p => (Gap.between ctx.source separates p n).doc
      | none => .nil
    let item ← printNode ctx formatter level prev n
    let rest ← printSiblings ctx formatter level separates (some n) ns
    return gap ++ item ++ rest

/-- The parts of a branched tag. What precedes the first `when` of a `case` is never shown: if `skipsFirst`, it
leaves nothing but a line break. -/
def printBranches (ctx : PrintContext) (formatter : CodeFormatter) (level : Nat) (forced skipsFirst : Bool) :
    List (Node Facts) → StateM Session (List Part)
  | [] => return []
  | ⟨info, _, kind, _, _, _, children⟩ :: ns =>
    match kind with
    | .branch name markup opener => do
      let inner ← printSiblings ctx formatter (level + ctx.options.indentWidth) false none children
      let body :=
        if skipsFirst && children.isEmpty then ⟨.nil, .hardLine, .never, .never⟩
        else bodyOf ctx forced info children inner
      let delimiter := name.map fun name => (tagHead (ctx.stringQuote none) name markup, opener)
      let rest ← printBranches ctx formatter level forced false ns
      return ⟨delimiter, body⟩ :: rest
    | _ => printBranches ctx formatter level forced false ns

end

end LiquidTemplate
