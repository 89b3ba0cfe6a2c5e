import LiquidTemplate.Layout.Render
import LiquidTemplate.Node.Nesting
import LiquidTemplate.Options.Decode
import LiquidTemplate.Print.Node

/-!
# Formatting templates

Reading, annotating, printing and rendering in one step: `format` gives the formatted template together with
the requests that were made for embedded code. A template whose first node is a comment with the ignore
directive is returned as it is.
-/

namespace LiquidTemplate

/-- Why a template is not formatted. -/
inductive FormatFault where
  /-- The options cannot be read. -/
  | options (fault : OptionFault)
  /-- The template cannot be read. -/
  | template (fault : Fault)
  /-- The formatter of embedded code failed; this is its last error. -/
  | code (message : String)
  /-- Lines cannot be indented by levels of no width. -/
  | zeroIndent
deriving Repr, Inhabited

def FormatFault.message : FormatFault → String
  | .options fault => fault.message
  | .template fault => fault.message
  | .code message => "failed to format code with external formatter:\n" ++ message
  | .zeroIndent => "indentation width must be positive"

/-- The text of a node that may hold the directive for the whole file. -/
def fileRemark? (n : Node Unit) : Option String :=
  match n.kind with
  | .rawTag "comment" _ body _ _ => some body.slice.text
  | _ => n.remark?

/-- A text starts with a directive, as a word of its own. -/
def startsWithDirective (directive text : String) : Bool :=
  (Text.stripStart? directive.toList (Text.trimStartChars text.toList)).any fun rest =>
    match rest with
    | [] => true
    | c :: _ => Text.isBlank c

/-- The template asks to be left alone. -/
def Document.isIgnored (o : Options) (d : Document Unit) : Bool :=
  (d.root.children.head?.bind fileRemark?).any (startsWithDirective o.ignoreFileDirective)

/-- The layout document of a template. -/
def Document.print (o : Options) (formatter : CodeFormatter) (d : Document Facts) : StateM Session Doc :=
  printNode ⟨d.source.toList, o⟩ formatter 0 none d.root

/-- The measures that options give to a page. -/
def Options.pageStyle (o : Options) : PageStyle :=
  ⟨o.printWidth, o.indentWidth, o.useTabs, o.lineBreak⟩

/-- Format a document. Errors of the formatter are found before anything is rendered. -/
def Document.format (o : Options) (formatter : CodeFormatter) (d : Document Unit) :
    Except FormatFault String × List CodeRequest :=
  if d.isIgnored o then (.ok d.source, [])
  else
    let (doc, session) := ((d.annotate o.sensitivity).print o formatter).run {}
    match session.failure with
    | some message => (.error (.code message), session.requests)
    | none =>
      if o.indentWidth = 0 then (.error .zeroIndent, session.requests)
      else (.ok (doc.render o.pageStyle), session.requests)

/-- Format a template. -/
def format (o : Options) (formatter : CodeFormatter) (source : String) :
    Except FormatFault String × List CodeRequest :=
  match Document.parse source with
  | .error fault => (.error (.template fault), [])
  | .ok d => d.format o formatter

/-- Format a template with options read from settings. -/
def formatWith (settings : Setting) (formatter : CodeFormatter) (source : String) :
    Except FormatFault String × List CodeRequest :=
  match Options.ofSetting settings with
  | .error fault => (.error (.options fault), [])
  | .ok o => format o formatter source

/-- Format a template with one table of settings after the other, each time the result of the time before, up to
the first fault. -/
def formatAll (formatter : CodeFormatter) :
    List Setting → String → List (Except FormatFault String × List CodeRequest)
  | [], _ => []
  | settings :: more, source =>
    let result := formatWith settings formatter source
    result ::
      (match result.1 with
        | .ok text => formatAll formatter more text
        | .error _ => [])

end LiquidTemplate
