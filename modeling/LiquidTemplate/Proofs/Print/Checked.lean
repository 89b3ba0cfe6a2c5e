import LiquidTemplate.Format
import LiquidTemplate.Proofs.Layout.Indentation
import LiquidTemplate.Proofs.Print.Cut

/-!
# Printing with all conditions checked

The printer in a form that gives up at the first step that is not possible: where a text cannot be cut out of the
source, or where the level of a node or of a statement exceeds a limit. Steps that are possible whatever the node looks
like are taken over as they are. The main definition is `format?`.
-/

namespace LiquidTemplate

/-- A step of printing that may be impossible. -/
abbrev Checked (α : Type) : Type :=
  StateT Session Option α

def Checked.always {α : Type} (step : StateM Session α) : Checked α :=
  fun session => some (step.run session)

/-- The level of what stands inside of a node, if it is within the limit. -/
def PrintContext.deepen? (limit : Nat) (ctx : PrintContext) (level : Nat) : Option Nat :=
  if level + ctx.options.indentWidth ≤ limit then some (level + ctx.options.indentWidth) else none

def printStatements? (limit indentWidth : Nat) : Nat → List String → Option Doc
  | _, [] => some .nil
  | depth, line :: lines =>
    let (level, after) := statementLevel depth (Text.firstWord line)
    if indentWidth * (level + 1) ≤ limit then do
      let rest ← printStatements? limit indentWidth after lines
      return .nest (indentWidth * (level + 1)) (.hardLine ++ .text line) ++ rest
    else none

def printName? (ctx : PrintContext) (fragments : List (Node Facts)) : Option String := do
  let items ← Node.inlineItems? ctx none ((fragments.head?.map (·.span.start)).getD 0) fragments
  return if Text.lower items.1 ∈ htmlNames then Text.lower items.1 else items.1

def printAttributeItems? (ctx : PrintContext) (layout : AttributeLayout) (prev : Option (Node Facts)) :
    List (Node Facts) → Option Doc
  | [] => some .nil
  | n :: ns => do
    let written ← ctx.text? n.span
    let inlined ← n.inline? ctx none
    let rest ← printAttributeItems? ctx layout (some n) ns
    let item := if n.isAttribute then verbatim (if isIgnored ctx prev then written else inlined) else .text inlined
    return layout.separator ++ item ++ rest

def printOpening? (limit : Nat) (ctx : PrintContext) (level : Nat) (name : String) (attributes : List (Node Facts)) :
    Option (Doc × AttributeLayout) := do
  let _ ← ctx.deepen? limit level
  let layout := AttributeLayout.choose ctx.options name attributes.length
  let items ← printAttributeItems? ctx layout none attributes
  return (.text "<" ++ .text name ++ .nest ctx.options.indentWidth items, layout)

mutual

def printNode? (limit : Nat) (ctx : PrintContext) (formatter : CodeFormatter) (level : Nat)
    (prev : Option (Node Facts)) : Node Facts → Checked Doc
  | ⟨info, span, kind, name, attributes, value, children⟩ => do
    let n : Node Facts := ⟨info, span, kind, name, attributes, value, children⟩
    let o := ctx.options
    let q := ctx.stringQuote none
    if isIgnored ctx prev then return verbatim (← ctx.text? span)
    else
      match kind with
      | .document =>
        if children.isEmpty then return .nil
        else do
          let inner ← printSiblings? limit ctx formatter level n.separatesChildren none children
          return .group inner ++ .hardLine
      | .element opener closer => do
        let printed ← printName? ctx name
        let opening ← printOpening? limit ctx level printed attributes
        if info.keepsLayout then
          return printKept opening printed (← ctx.text? ⟨opener.stop, closer.start⟩)
        else
          let inner ← printSiblings? limit ctx formatter (← ctx.deepen? limit level) n.separatesChildren none children
          return printElement ctx opening printed (← n.isForced? ctx.source) info children inner
      | .voidElement elementName =>
        return printChildless (← printOpening? limit ctx level (Text.lower elementName) attributes) false
      | .selfClosing =>
        return printChildless (← printOpening? limit ctx level (← printName? ctx name) attributes) true
      | .rawElement elementName body _ _ => do
        let printed := Text.lower elementName
        let opening ← printOpening? limit ctx level printed attributes
        let code ← Checked.always (printCode ctx formatter level (indentsElement o printed) body)
        return printChildless opening false ++ code ++ .text ("</" ++ printed ++ ">")
      | .tag tagName markup opener => do
        let start := .text tagOpen ++ trimMarker opener.trimLeft .never
        let body ← match markup with
          | .statements lines => do
            let statements ← printStatements? limit o.indentWidth 0 lines
            pure (.text " liquid" ++ statements ++ .hardLine)
          | markup => pure (printHead (tagHead q tagName markup))
        return start ++ body ++ trimMarker opener.trimRight .never ++ .text tagClose
      | .block tagName markup opener closer =>
        if info.keepsLayout then do
          let body ← ctx.text? ⟨opener.span.stop, (closer.map (·.span.start)).getD span.stop⟩
          return .text tagOpen ++ trimMarker opener.trimLeft .never ++ printHead (tagHead q tagName markup) ++
            trimMarker opener.trimRight .never ++ .text tagClose ++ verbatim body ++
            (match closer with
              | some d => printEnd tagName d
              | none => .nil)
        else do
          let forced ← n.isForced? ctx.source
          if isBranchedTag tagName then
            let parts ← printBranches? limit ctx formatter level forced n.isDividedCase children
            return printBlock tagName (tagHead q tagName markup) opener closer parts
          else
            let inner ← printSiblings? limit ctx formatter (← ctx.deepen? limit level) n.separatesChildren none children
            return printBlock tagName (tagHead q tagName markup) opener closer
              [⟨none, bodyOf ctx forced info children inner⟩]
      | .branch _ _ _ => return verbatim (← ctx.text? span)
      | .attr _ => return verbatim (← n.inline? ctx none)
      | .rawTag tagName markup body opener closer => do
        let head := if markup.isEmpty then tagName else tagName ++ " " ++ markup
        let content ←
          if body.kind = .text then pure (verbatim body.slice.text)
          else Checked.always (printCode ctx formatter level (indentsTag o tagName) body)
        return .text tagOpen ++ trimMarker opener.trimLeft .never ++ .text (" " ++ head ++ " ") ++
          trimMarker opener.trimRight .never ++ .text tagClose ++ content ++ printEnd tagName closer
      | .text _ | .frontMatter _ | .comment _ | .doctype _ | .drop _ _ _ =>
        Checked.always (printNode ctx formatter level prev n)

def printSiblings? (limit : Nat) (ctx : PrintContext) (formatter : CodeFormatter) (level : Nat) (separates : Bool)
    (prev : Option (Node Facts)) : List (Node Facts) → Checked Doc
  | [] => return .nil
  | n :: ns => do
    let gap := match prev with
      | some p => (Gap.between ctx.source separates p n).doc
      | none => .nil
    let item ← printNode? limit ctx formatter level prev n
    let rest ← printSiblings? limit ctx formatter level separates (some n) ns
    return gap ++ item ++ rest

def printBranches? (limit : Nat) (ctx : PrintContext) (formatter : CodeFormatter) (level : Nat)
    (forced skipsFirst : Bool) : List (Node Facts) → Checked (List Part)
  | [] => return []
  | ⟨info, _, kind, _, _, _, children⟩ :: ns =>
    match kind with
    | .branch name markup opener => do
      let inner ← printSiblings? limit ctx formatter (← ctx.deepen? limit level) false none children
      let body :=
        if skipsFirst && children.isEmpty then ⟨.nil, .hardLine, .never, .never⟩
        else bodyOf ctx forced info children inner
      let delimiter := name.map fun name => (tagHead (ctx.stringQuote none) name markup, opener)
      let rest ← printBranches? limit ctx formatter level forced false ns
      return ⟨delimiter, body⟩ :: rest
    | _ => printBranches? limit ctx formatter level forced false ns

end

/-- Format a document, if each step of printing and rendering is possible. -/
def Document.format? (limit : Nat) (o : Options) (formatter : CodeFormatter) (d : Document Unit) :
    Option (Except FormatFault String × List CodeRequest) :=
  if d.isIgnored o then some (.ok d.source, [])
  else do
    let (doc, session) ←
      (printNode? limit ⟨d.source.toList, o⟩ formatter 0 none (d.annotate o.sensitivity).root).run {}
    match session.failure with
    | some message => return (.error (.code message), session.requests)
    | none => return (.ok (← doc.render? limit o.pageStyle), session.requests)

def format? (limit : Nat) (o : Options) (formatter : CodeFormatter) (source : String) :
    Option (Except FormatFault String × List CodeRequest) :=
  match Document.parse source with
  | .error fault => some (.error (.template fault), [])
  | .ok d => d.format? limit o formatter

end LiquidTemplate
