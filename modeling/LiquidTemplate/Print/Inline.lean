import LiquidTemplate.Node.Basic
import LiquidTemplate.Options.Basic

/-!
# Text that stays on one line

Names, attributes and their values are printed without line breaks. Items are separated by one space
wherever the source has white space between them, and by nothing elsewhere.
-/

namespace LiquidTemplate

/-- What printing needs to know besides the node. -/
structure PrintContext where
  source : List Char
  options : Options
deriving Repr, Inhabited

namespace PrintContext

/-- The mark around strings in Liquid. Inside the value of an attribute it is the one that does not end the
value. -/
def stringQuote (ctx : PrintContext) (around : Option Quote) : Quote :=
  match around with
  | some q => q.other
  | none => ctx.options.liquidQuotes

end PrintContext

/-! ## Delimiters -/

def Delimiter.tagStart (d : Delimiter) : String :=
  if d.trimLeft then tagOpen ++ "-" else tagOpen

def Delimiter.tagStop (d : Delimiter) : String :=
  if d.trimRight then "-" ++ tagClose else tagClose

def Delimiter.dropStart (d : Delimiter) : String :=
  if d.trimLeft then dropOpen ++ "-" else dropOpen

def Delimiter.dropStop (d : Delimiter) : String :=
  if d.trimRight then "-" ++ dropClose else dropClose

/-- A tag with its head between the delimiters. -/
def Delimiter.around (d : Delimiter) (head : String) : String :=
  d.tagStart ++ " " ++ head ++ " " ++ d.tagStop

def inlineDrop (q : Quote) (markup : DropMarkup) (d : Delimiter) : String :=
  let body := match markup with
    | .value v => v.render q
    | .plain text => text
  d.dropStart ++ " " ++ (if body.isEmpty then "" else body ++ " ") ++ d.dropStop

/-! ## Values of attributes -/

/-- The mark around a value without Liquid: the preferred one, unless the value holds a mark. -/
def valueQuote (preferred : Quote) (value : String) : Quote :=
  if value.toList.contains '"' then .single
  else if value.toList.contains '\'' then .double
  else preferred

/-- How escaped marks are written between marks of one kind: the other kind needs no escape. -/
def unescapes : Quote → List (String × String)
  | .single => [("&quot;", "\""), ("&#x22;", "\"")]
  | .double => [("&#x27;", "'")]

/-- A name and a value between marks. -/
def assignment (name : String) (q : Quote) (value : String) : String :=
  name ++ "=" ++ q.char.toString ++ value ++ q.char.toString

/-- An attribute whose value is plain text. -/
def plainAttribute (preferred : Quote) (name value : String) : String :=
  let q := valueQuote preferred value
  assignment name q (Text.replaceAll (unescapes q) value)

/-- A space where the source has white space between two items. -/
def gapText (stop start : Nat) : String :=
  if stop < start then " " else ""

namespace Node

variable {α : Type}

mutual

/-- A node on one line. `around` is the mark around the value that the node is part of. -/
def inline (ctx : PrintContext) (around : Option Quote) : Node α → String
  | ⟨_, span, kind, name, _, value, children⟩ =>
    let q := ctx.stringQuote around
    match kind with
    | .text text => text
    | .drop _ markup d => inlineDrop q markup d
    | .tag tagName markup opener => opener.around (tagHead q tagName markup)
    | .block tagName markup opener closer =>
      let body := inlineBranches ctx around opener.span.stop children
      opener.around (tagHead q tagName markup) ++ body.1 ++
        (match closer with
          | some d => gapText body.2 d.span.start ++ d.around ("end" ++ tagName)
          | none => "")
    | .attr style =>
      let nameText := (inlineItems ctx around ((name.head?.map (·.span.start)).getD 0) name).1
      match style with
      | .bare => nameText
      | .unquoted => inlineValue ctx nameText none value
      | .quoted mark => inlineValue ctx nameText (some mark) value
    | _ => Text.slice ctx.source span

/-- The value of an attribute after its name. With Liquid in it, it keeps its marks. -/
def inlineValue (ctx : PrintContext) (nameText : String) (mark : Option Quote) : List (Node α) → String
  | [] => plainAttribute ctx.options.htmlQuotes nameText ""
  | n :: ns =>
    if (n :: ns).all isText then
      plainAttribute ctx.options.htmlQuotes nameText (String.join ((n :: ns).map written))
    else
      let q := mark.getD .double
      let rest := inlineItems ctx (some q) n.span.stop ns
      assignment nameText q (n.inline ctx (some q) ++ rest.1)

/-- Items after an offset, and the offset where they end. -/
def inlineItems (ctx : PrintContext) (around : Option Quote) (stop : Nat) : List (Node α) → String × Nat
  | [] => ("", stop)
  | n :: ns =>
    let rest := inlineItems ctx around n.span.stop ns
    (gapText stop n.span.start ++ n.inline ctx around ++ rest.1, rest.2)

/-- The body of a block after an offset, and the offset where it ends. -/
def inlineBranches (ctx : PrintContext) (around : Option Quote) (stop : Nat) : List (Node α) → String × Nat
  | [] => ("", stop)
  | ⟨info, span, kind, name, attributes, value, children⟩ :: ns =>
    let n : Node α := ⟨info, span, kind, name, attributes, value, children⟩
    let item : String × Nat :=
      match kind with
      | .branch (some branchName) markup opener =>
        let body := inlineItems ctx around opener.span.stop children
        (gapText stop opener.span.start ++ opener.around (tagHead (ctx.stringQuote around) branchName markup) ++
          body.1, body.2)
      | .branch none _ _ => inlineItems ctx around stop children
      | _ => (gapText stop span.start ++ n.inline ctx around, span.stop)
    let rest := inlineBranches ctx around item.2 ns
    (item.1 ++ rest.1, rest.2)

end

/-- Nodes on one line. -/
def inlineList (ctx : PrintContext) (around : Option Quote) (ns : List (Node α)) : String :=
  (inlineItems ctx around ((ns.head?.map (·.span.start)).getD 0) ns).1

end Node

end LiquidTemplate
