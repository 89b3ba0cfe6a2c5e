import LiquidTemplate.Layout.Doc
import LiquidTemplate.Options.Basic
import LiquidTemplate.Text.Width

/-!
# Rendering

Rendering a document keeps track of the column. Whether a group fits depends on the text after it up to
the next place where a line may break, so each part of a document is rendered with the test that what
follows it fits from a given column.
-/

namespace LiquidTemplate

/-- The measures of a page. -/
structure PageStyle where
  width : Nat
  indentWidth : Nat
  useTabs : Bool
  lineBreak : LineBreak
deriving DecidableEq, Repr, Inhabited

/-- What has been written, and the column where it ends. -/
structure Page where
  out : String := ""
  column : Nat := 0
deriving DecidableEq, Repr, Inhabited

namespace Doc

/-- The text up to the next place for a line break fits between a column and the width, where `rest` tells
so for what follows the document. -/
def fits (width : Nat) : Doc → (flat : Bool) → (rest : Nat → Bool) → (column : Nat) → Bool
  | .nil, _, rest, column => rest column
  | .text s, _, rest, column => column + Text.width s ≤ width && rest (column + Text.width s)
  | .hardLine, flat, _, _ => !flat
  | .emptyLine, _, rest, column => rest column
  | .line spaces, flat, rest, column =>
    if flat then column + spaces ≤ width && rest (column + spaces) else true
  | .append a b, flat, rest, column => a.fits width flat (b.fits width flat rest) column
  | .group d, flat, rest, column => d.fits width flat rest column
  | .nest _ d, flat, rest, column => d.fits width flat rest column
  | .choice a b, flat, rest, column =>
    if flat then a.fits width flat rest column else b.fits width flat rest column

end Doc

namespace PageStyle

/-- The indentation of a line. -/
def indentation (style : PageStyle) (columns : Nat) : String :=
  if style.useTabs then
    String.ofList (List.replicate (columns / style.indentWidth) '\t' ++
      List.replicate (columns % style.indentWidth) ' ')
  else String.ofList (List.replicate columns ' ')

end PageStyle

namespace Page

def write (p : Page) (s : String) : Page :=
  ⟨p.out ++ s, p.column + Text.width s⟩

def spaces (p : Page) (n : Nat) : Page :=
  ⟨p.out ++ String.ofList (List.replicate n ' '), p.column + n⟩

/-- Start a line at an indentation. -/
def newLine (p : Page) (style : PageStyle) (indent : Nat) : Page :=
  ⟨p.out ++ style.lineBreak.text ++ style.indentation indent, indent⟩

/-- Break the line; the column is kept. -/
def emptyLine (p : Page) (style : PageStyle) : Page :=
  ⟨p.out ++ style.lineBreak.text, p.column⟩

end Page

namespace Doc

/-- Write a document at an indentation. `rest` tells whether what follows it fits from a column. -/
def renderOn (style : PageStyle) : Doc → (indent : Nat) → (flat : Bool) → (rest : Nat → Bool) → Page → Page
  | .nil, _, _, _, p => p
  | .text s, _, _, _, p => p.write s
  | .hardLine, indent, _, _, p => p.newLine style indent
  | .emptyLine, _, _, _, p => p.emptyLine style
  | .line spaces, indent, flat, _, p => if flat then p.spaces spaces else p.newLine style indent
  | .append a b, indent, flat, rest, p =>
    b.renderOn style indent flat rest (a.renderOn style indent flat (b.fits style.width flat rest) p)
  | .group d, indent, flat, rest, p =>
    if flat then d.renderOn style indent true rest p
    else
      d.renderOn style indent (p.column ≤ style.width && d.fits style.width true rest p.column) rest p
  | .nest columns d, indent, flat, rest, p => d.renderOn style (indent + columns) flat rest p
  | .choice a b, indent, flat, rest, p =>
    if flat then a.renderOn style indent flat rest p else b.renderOn style indent flat rest p

/-- The text of a document. -/
def render (style : PageStyle) (d : Doc) : String :=
  (d.renderOn style 0 false (fun _ => true) {}).out

end Doc

end LiquidTemplate
