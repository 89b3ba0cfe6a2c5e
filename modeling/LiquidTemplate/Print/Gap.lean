import LiquidTemplate.Layout.Doc
import LiquidTemplate.Whitespace.Facts

/-!
# Gaps between nodes

What goes between two siblings, and between the delimiters of a container and its children. A container is
*forced* if its children must stand on lines of their own, and a node *breaks* if it takes several lines
however wide the page is.
-/

namespace LiquidTemplate

/-! ## Gaps -/

/-- What goes between two siblings. -/
inductive Gap where
  /-- Nothing, and no line break either: white space would be seen. -/
  | glue
  /-- Nothing, or a line break if the group breaks. -/
  | nil
  /-- A space, or a line break if the next item does not fit. -/
  | space
  | hard
  | blank
deriving DecidableEq, Repr, Inhabited

namespace Gap

def doc : Gap → Doc
  | .glue => .nil
  | .nil => .line 0
  | .space => .softLine
  | .hard => .hardLine
  | .blank => .blankLine

def isHard : Gap → Bool
  | .hard | .blank => true
  | _ => false

/-- The gap between two nodes by their facts and the white space between them. -/
def plain (source : List Char) (prev next : Node Facts) : Gap :=
  let between := Text.sliceChars source ⟨prev.span.stop, next.span.start⟩
  let feeds := Text.countLineFeeds between
  if 1 < feeds then .blank
  else if prev.info.display.isBlockLike || next.info.display.isBlockLike || feeds = 1 then .hard
  else if !between.isEmpty then .space
  else if prev.info.trailingMatters && next.info.leadingMatters then .glue
  else .nil

/-- The gap between two children of a node. If it `separates` its children, they are not left on one line. -/
def between (source : List Char) (separates : Bool) (prev next : Node Facts) : Gap :=
  match plain source prev next with
  | .nil | .space => if separates then .hard else plain source prev next
  | gap => gap

end Gap

/-! ## Line breaks in the source -/

/-- The blanks before an offset hold a line feed. -/
def lineFeedBefore (source : List Char) (offset : Nat) : Bool :=
  (((Text.takeBytes? source offset).getD []).reverse.takeWhile Text.isBlank).contains '\n'

/-- The blanks after an offset hold a line feed. -/
def lineFeedAfter (source : List Char) (offset : Nat) : Bool :=
  (((Text.dropBytes? source offset).getD []).takeWhile Text.isBlank).contains '\n'

/-! ## Forced containers -/

/-- Code that must keep its white space. -/
def RawBody.isVerbatim (body : RawBody) : Bool :=
  body.kind = .markdown || body.kind = .text || body.slice.text.toList.contains '\x60'

namespace Node

/-- Elements whose children always stand on lines of their own. -/
def separatesChildren (n : Node Facts) : Bool :=
  match n.kind with
  | .element _ _ =>
    Text.lower n.spelledName ∈ ["html", "head", "ul", "ol", "select"] ||
      (n.info.display.isTable && n.info.display != .tableCell)
  | _ => false

/-- A tag whose body is divided into branches. -/
def isBranched (n : Node Facts) : Bool :=
  match n.kind with
  | .block name _ _ _ => isBranchedTag name
  | _ => false

/-- A `case` tag with a branch besides the first one. -/
def isDividedCase (n : Node Facts) : Bool :=
  match n.kind with
  | .block name _ _ _ => name = "case" && 1 < n.children.length
  | _ => false

/-- The element `body`. -/
def isPageBody (n : Node Facts) : Bool :=
  match n.kind with
  | .element _ _ => Text.eqIgnoringCase n.spelledName "body"
  | _ => false

/-- Some gap between two neighbours of a list is hard. -/
def anyHardGap (source : List Char) (separates : Bool) : List (Node Facts) → Bool
  | [] => false
  | [_] => false
  | a :: b :: rest => (Gap.between source separates a b).isHard || anyHardGap source separates (b :: rest)

/-- A lone child that is no text and stands on a line of its own stays there. -/
def keepsOwnLine (source : List Char) : List (Node Facts) → Bool
  | [child] =>
    !child.isText && lineFeedBefore source child.span.start &&
      (!child.info.trailingMatters || lineFeedAfter source child.span.stop)
  | _ => false

/-- A node takes several lines, where `forced` tells so for a container. -/
def breaksIf (source : List Char) (n : Node Facts) (forced : Bool) : Bool :=
  match n.kind with
  | .text value => (Text.runs value.toList).any Text.isParagraphBreak
  | .comment body => Text.hasLineFeed body
  | .frontMatter _ | .document => true
  | .doctype _ | .voidElement _ | .selfClosing | .attr _ => false
  | .rawElement _ body _ _ =>
    !Text.isAllWhiteSpace body.slice.text && (!body.isVerbatim || Text.hasLineFeed body.slice.text)
  | .rawTag _ _ body _ _ =>
    if body.kind = .text then Text.hasLineFeed body.slice.text else !Text.isAllWhiteSpace body.slice.text
  | .element opener closer =>
    if n.info.keepsLayout then (Text.sliceChars source ⟨opener.stop, closer.start⟩).contains '\n' else forced
  | .branch _ _ _ => forced
  | .tag _ (.statements _) _ | .block _ (.statements _) _ _ => true
  | .tag _ markup _ => markup.hasPlainLineFeed || (n.info.keepsLayout && (Text.sliceChars source n.span).contains '\n')
  | .block _ markup _ _ =>
    markup.hasPlainLineFeed ||
      if n.info.keepsLayout then (Text.sliceChars source n.span).contains '\n' else forced
  | .drop _ markup _ =>
    match markup with
    | .plain text => Text.hasLineFeed text
    | .value _ => false

mutual

/-- The children of a container must stand on lines of their own. -/
def isForced (source : List Char) : Node Facts → Bool
  | ⟨info, span, kind, name, attributes, value, children⟩ =>
    let n : Node Facts := ⟨info, span, kind, name, attributes, value, children⟩
    if n.isBranched then n.isDividedCase || anyForced source children
    else if n.isPageBody then !children.isEmpty
    else
      (n.separatesChildren && !children.isEmpty) || anyHardGap source n.separatesChildren children ||
        anyBreaks source children || keepsOwnLine source children

/-- Some node of a list takes several lines. -/
def anyBreaks (source : List Char) : List (Node Facts) → Bool
  | [] => false
  | n :: ns => n.breaksIf source (isForced source n) || anyBreaks source ns

/-- Some container of a list is forced. -/
def anyForced (source : List Char) : List (Node Facts) → Bool
  | [] => false
  | n :: ns => isForced source n || anyForced source ns

end

/-- A node takes several lines however wide the page is. -/
def breaks (source : List Char) (n : Node Facts) : Bool :=
  n.breaksIf source (n.isForced source)

end Node

/-! ## Boundaries -/

/-- A trim marker that printing adds where it may introduce white space. -/
inductive AddedTrim where
  | never
  /-- If the group around it breaks. -/
  | onBreak
  | always
deriving DecidableEq, Repr, Inhabited

/-- A trim marker: the one of the source, or an added one. -/
def trimMarker (inSource : Bool) (added : AddedTrim) : Doc :=
  if inSource then .text "-"
  else
    match added with
    | .never => .nil
    | .onBreak => .choice .nil (.text "-")
    | .always => .text "-"

/-- What goes between a delimiter of a container and its first or last child, and the trim marker that the
delimiter then needs. -/
def boundary (matters hasBlank forced : Bool) : Doc × AddedTrim :=
  match matters, hasBlank, forced with
  | true, false, true => (.hardLine, .always)
  | true, false, false => (.line 0, .onBreak)
  | true, true, false => (.line 1, .never)
  | false, _, false => (.line 0, .never)
  | _, _, true => (.hardLine, .never)

end LiquidTemplate
