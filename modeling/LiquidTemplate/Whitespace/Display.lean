import LiquidTemplate.Text.Basic

/-!
# Display of elements and tags

How a browser lays out an element by default, and what stands for it in a Liquid tag. From the display
follows whether white space around or inside an element can be seen. A comment such as `display: block`
overrides the default of the node after it.
-/

namespace LiquidTemplate

/-- The CSS property `display`. -/
inductive Display where
  | inline
  | block
  | inlineBlock
  | listItem
  | table
  | tableCaption
  | tableColumnGroup
  | tableColumn
  | tableHeaderGroup
  | tableRowGroup
  | tableFooterGroup
  | tableRow
  | tableCell
  /-- Not shown at all. -/
  | hidden
deriving DecidableEq, Repr, Inhabited

/-- The CSS property `white-space`. -/
inductive WhiteSpace where
  | normal
  | pre
  | preWrap
  | preLine
  | noWrap
deriving DecidableEq, Repr, Inhabited

/-- How much white space around elements is taken to matter. -/
inductive Sensitivity where
  /-- As the default display of each element says. -/
  | css
  /-- As if every element were inline. -/
  | strict
  /-- As if every element were a block. -/
  | ignore
deriving DecidableEq, Repr, Inhabited

namespace Display

/-- A table or a part of one. -/
def isTable : Display → Bool
  | .table | .tableCaption | .tableColumnGroup | .tableColumn | .tableHeaderGroup | .tableRowGroup
  | .tableFooterGroup | .tableRow | .tableCell => true
  | _ => false

/-- White space around these is not shown. -/
def isBlockLike (d : Display) : Bool :=
  d = .block || d = .listItem || d.isTable

/-- White space just inside these is shown. -/
def isInnerSensitive (d : Display) : Bool :=
  !d.isBlockLike && d != .inlineBlock

/-- The keyword of a display. -/
def keyword : Display → String
  | .inline => "inline"
  | .block => "block"
  | .inlineBlock => "inline-block"
  | .listItem => "list-item"
  | .table => "table"
  | .tableCaption => "table-caption"
  | .tableColumnGroup => "table-column-group"
  | .tableColumn => "table-column"
  | .tableHeaderGroup => "table-header-group"
  | .tableRowGroup => "table-row-group"
  | .tableFooterGroup => "table-footer-group"
  | .tableRow => "table-row"
  | .tableCell => "table-cell"
  | .hidden => "none"

def all : List Display :=
  [.inline, .block, .inlineBlock, .listItem, .table, .tableCaption, .tableColumnGroup, .tableColumn,
   .tableHeaderGroup, .tableRowGroup, .tableFooterGroup, .tableRow, .tableCell, .hidden]

def ofKeyword? (word : String) : Option Display :=
  all.find? (·.keyword = word)

end Display

/-- White space inside these is kept as it is. -/
def WhiteSpace.isPreLike : WhiteSpace → Bool
  | .pre | .preWrap | .preLine => true
  | _ => false

/-! ## Defaults -/

def blockElements : List String :=
  ["html", "body", "address", "blockquote", "center", "div", "figure", "figcaption", "footer", "form", "header",
   "hr", "legend", "listing", "main", "p", "plaintext", "pre", "xmp", "search", "article", "aside", "h1", "h2",
   "h3", "h4", "h5", "h6", "hgroup", "nav", "section", "dir", "dd", "dl", "dt", "menu", "ol", "ul", "fieldset",
   "details", "summary", "dialog", "option", "optgroup", "source", "track", "script", "param"]

def hiddenElements : List String :=
  ["area", "base", "basefont", "datalist", "head", "link", "meta", "noembed", "noframes", "rp", "style", "title"]

def inlineBlockElements : List String :=
  ["button", "meter", "progress", "object", "video", "audio", "select"]

/-- Elements with a display of their own. -/
def specialElements : List (String × Display) :=
  [("li", .listItem), ("table", .table), ("caption", .tableCaption), ("colgroup", .tableColumnGroup),
   ("col", .tableColumn), ("thead", .tableHeaderGroup), ("tbody", .tableRowGroup), ("tfoot", .tableFooterGroup),
   ("tr", .tableRow), ("td", .tableCell), ("th", .tableCell)]

/-- The default display of an element. -/
def elementDisplay (name : String) : Display :=
  let name := Text.lower name
  match specialElements.lookup name with
  | some d => d
  | none =>
    if name ∈ blockElements then .block
    else if name ∈ hiddenElements then .hidden
    else if name ∈ inlineBlockElements then .inlineBlock
    else .inline

/-- The default display of a Liquid tag. -/
def tagDisplay (name : String) : Display :=
  if name ∈ ["assign", "capture", "comment", "#", "layout", "increment", "decrement"] then .hidden
  else if name ∈ ["schema", "javascript", "stylesheet", "style", "section", "sections"] then .block
  else .inline

/-- The default white space of an element. -/
def elementWhiteSpace (name : String) : WhiteSpace :=
  let name := Text.lower name
  if name ∈ ["pre", "listing", "xmp"] then .pre
  else if name ∈ ["textarea", "plaintext"] then .preWrap
  else if name = "nobr" then .noWrap
  else .normal

/-- The display that a comment asks for. -/
def displayDirective? (comment : String) : Option Display :=
  (Text.stripStart? "display:".toList (Text.trim comment).toList).bind fun rest =>
    Display.ofKeyword? (Text.trim (String.ofList rest))

/-- A default display as the sensitivity takes it. -/
def Sensitivity.apply (s : Sensitivity) (default : Display) : Display :=
  match s with
  | .css => default
  | .strict => .inline
  | .ignore => .block

end LiquidTemplate
