import LiquidTemplate.Fault
import LiquidTemplate.Grammar.Template
import LiquidTemplate.Node.Basic

/-!
# From tokens to a tree

Tokens are nested one after the other. `Nesting` holds the finished nodes of the list being built and the
elements and tags that are still open around the next token, innermost first. A list inside a tag, such as
its attributes, is nested on its own, so nothing opened there can be closed elsewhere. The main function is
`Document.parse`.
-/

namespace LiquidTemplate

/-- Whether everything must be closed at the end of a template. -/
inductive Strictness where
  | strict
  | tolerant
deriving DecidableEq, Repr, Inhabited

/-- An element or tag that is open, and the branch that is open in it if the tag is branched. -/
structure Frame where
  node : Node Unit
  branch : Option (Node Unit) := none
deriving Repr, Inhabited

/-- The state between two tokens. -/
structure Nesting where
  /-- Nodes outside of everything that is open. -/
  finished : List (Node Unit) := []
  /-- What is open, innermost first. -/
  pending : List Frame := []
deriving Repr, Inhabited

namespace Node

/-- Add a child after the others. -/
def push (n child : Node Unit) : Node Unit :=
  { n with children := n.children ++ [child] }

/-- Extend the range of a node to an offset. -/
def cover (n : Node Unit) (stop : Nat) : Node Unit :=
  { n with span := ⟨n.span.start, max n.span.stop stop⟩ }

/-- Extend the range of a node over its last child. -/
def coverLast (n : Node Unit) : Node Unit :=
  match n.children.getLast? with
  | some child => n.cover child.span.stop
  | none => n

/-- Finish a branch where the next branch or the closing tag starts. -/
def closeBranch (b : Node Unit) (next : Nat) : Node Unit :=
  { b with span := ⟨b.span.start, max (min b.span.stop next) b.span.start⟩ }

def ofBranch (name : Option String) (markup : Markup) (opener : Delimiter) : Node Unit :=
  { info := (), span := opener.span, kind := .branch name markup opener }

end Node

namespace Frame

/-- Add a child to what is open. -/
def push (f : Frame) (child : Node Unit) : Frame :=
  match f.branch with
  | some b => { f with branch := some (b.push child) }
  | none => { f with node := f.node.push child }

/-- Let an open branch reach up to an offset. Elements and tags get their range when they are closed. -/
def reach (f : Frame) (stop : Nat) : Frame :=
  { f with branch := f.branch.map (·.cover stop) }

/-- Extend the range of what is open to an offset. -/
def cover (f : Frame) (stop : Nat) : Frame :=
  match f.branch with
  | some b => { f with branch := some (b.cover stop) }
  | none => { f with node := f.node.cover stop }

/-- Finish the open branch where the next one or the closing tag starts. -/
def endBranch (f : Frame) (next : Nat) : Frame :=
  match f.branch with
  | some b => ⟨f.node.push (b.closeBranch next), none⟩
  | none => f

/-- The name and the opening range that a fault shows. -/
def openItem (f : Frame) : OpenItem :=
  ⟨f.node.label?.getD "",
    match f.node.kind with
    | .element opener _ => opener
    | .block _ _ opener _ => opener.span
    | _ => f.node.span⟩

/-- The node of a frame that is left open at the end of a template. -/
def abandon (f : Frame) : Node Unit :=
  match f.branch with
  | some b =>
    let b := b.coverLast
    ((f.node.cover b.span.stop).push b).coverLast
  | none => f.node.coverLast

end Frame

namespace Nesting

/-- Add a node that nothing has to close. -/
def leaf (s : Nesting) (n : Node Unit) : Nesting :=
  match s.pending with
  | f :: fs => { s with pending := (f.reach n.span.stop).push n :: fs }
  | [] => { s with finished := s.finished ++ [n] }

/-- Open an element or a tag. -/
def enter (s : Nesting) (f : Frame) : Nesting :=
  match s.pending with
  | g :: gs => { s with pending := f :: g.reach f.node.span.stop :: gs }
  | [] => { s with pending := [f] }

/-- Add a node that has just been closed to what is open around it. -/
def leave (s : Nesting) (n : Node Unit) (around : List Frame) : Nesting :=
  match around with
  | f :: fs => { s with pending := f.push n :: fs }
  | [] => ⟨s.finished ++ [n], []⟩

/-- The fault of a closer that finds nothing to close, or something else. -/
def misplaced (s : Nesting) (closer : String) (span : Span) : NestingFault :=
  match s.pending with
  | f :: _ => ⟨.mismatched closer, span, some f.openItem⟩
  | [] => ⟨.closedBeforeOpened closer, span, none⟩

/-- Close the innermost element. Names are compared up to the case of ASCII letters. -/
def closeElement (s : Nesting) (name : String) (span : Span) : Except NestingFault Nesting :=
  match s.pending with
  | ⟨n, none⟩ :: fs =>
    match n.kind with
    | .element opener _ =>
      if Text.eqIgnoringCase n.spelledName name then
        .ok (s.leave { n with span := ⟨n.span.start, span.stop⟩, kind := .element opener span } fs)
      else .error (s.misplaced name span)
    | _ => .error (s.misplaced name span)
  | _ => .error (s.misplaced name span)

/-- Close the innermost tag, with the branch that is open in it. -/
def closeBlock (s : Nesting) (name : String) (closer : Delimiter) : Except NestingFault Nesting :=
  match s.pending with
  | f :: fs =>
    let n := (f.endBranch closer.span.start).node
    match n.kind with
    | .block opened markup opener _ =>
      if opened = name then
        .ok (s.leave
          { n with span := ⟨n.span.start, closer.span.stop⟩, kind := .block opened markup opener (some closer) } fs)
      else .error (s.misplaced ("end" ++ name) closer.span)
    | _ => .error (s.misplaced ("end" ++ name) closer.span)
  | [] => .error (s.misplaced ("end" ++ name) closer.span)

/-- Start the next branch of the innermost tag. -/
def nextBranch (s : Nesting) (name : String) (markup : Markup) (opener : Delimiter) : Except NestingFault Nesting :=
  match s.pending with
  | ⟨n, some b⟩ :: fs =>
    let f := Frame.endBranch ⟨n, some b⟩ opener.span.start
    .ok { s with pending := { f with branch := some (.ofBranch (some name) markup opener) } :: fs }
  | _ => .error (s.misplaced name opener.span)

/-- The finished nodes, if nothing is open. -/
def complete (s : Nesting) : Except NestingFault (List (Node Unit)) :=
  match s.pending with
  | [] => .ok s.finished
  | f :: _ => .error ⟨.unterminated, f.openItem.span, some f.openItem⟩

/-- The finished nodes, after whatever is open, from the inside out. -/
def abandon (s : Nesting) : List (Node Unit) :=
  s.finished ++
    (s.pending.foldl (fun (inner : Option (Node Unit)) f =>
      match inner with
      | some n => some ((f.cover n.span.stop).push n).abandon
      | none => some f.abandon) none).toList

mutual

/-- Nest one more token. -/
def add (s : Nesting) : Token → Except NestingFault Nesting
  | .text t => .ok (s.leaf { info := (), span := t.span, kind := .text t.text })
  | .frontMatter span body => .ok (s.leaf { info := (), span := span, kind := .frontMatter body })
  | .comment span body => .ok (s.leaf { info := (), span := span, kind := .comment body })
  | .doctype span legacy => .ok (s.leaf { info := (), span := span, kind := .doctype legacy })
  | .openTag span name attributes => do
    let name ← (← addAll {} name).complete
    let attributes ← (← addAll {} attributes).complete
    return s.enter ⟨{ info := (), span := span, kind := .element span (.point span.stop), name := name,
                      attributes := attributes }, none⟩
  | .closeTag span name => s.closeElement (Token.nameOf name) span
  | .voidElement span name attributes => do
    let attributes ← (← addAll {} attributes).complete
    return s.leaf { info := (), span := span, kind := .voidElement name, attributes := attributes }
  | .selfClosing span name attributes => do
    let name ← (← addAll {} name).complete
    let attributes ← (← addAll {} attributes).complete
    return s.leaf { info := (), span := span, kind := .selfClosing, name := name, attributes := attributes }
  | .rawElement span name attributes body opener closer => do
    let kind := Token.elementCodeKind name attributes
    let attributes ← (← addAll {} attributes).complete
    return s.leaf { info := (), span := span, kind := .rawElement name ⟨body, kind⟩ opener closer,
                    attributes := attributes }
  | .drop delimiter written markup =>
    .ok (s.leaf { info := (), span := delimiter.span, kind := .drop written markup delimiter })
  | .rawTag span name markup body opener closer =>
    .ok (s.leaf { info := (), span := span,
                  kind := .rawTag name markup ⟨body, Token.tagCodeKind name⟩ opener closer })
  | .blockOpen delimiter name markup =>
    let node : Node Unit := { info := (), span := delimiter.span, kind := .block name markup delimiter none }
    let first := Node.ofBranch none (.plain "") ⟨.point delimiter.span.stop, false, false⟩
    .ok (s.enter ⟨node, if isBranchedTag name then some first else none⟩)
  | .blockClose delimiter name => s.closeBlock name delimiter
  | .tag delimiter name markup =>
    if isBranchStart name then s.nextBranch name markup delimiter
    else .ok (s.leaf { info := (), span := delimiter.span, kind := .tag name markup delimiter })
  | .attr span style name value => do
    let name ← (← addAll {} name).complete
    let value ← (← addAll {} value).complete
    return s.leaf { info := (), span := span, kind := .attr style, name := name, value := value }

/-- Nest a list of tokens. -/
def addAll (s : Nesting) : List Token → Except NestingFault Nesting
  | [] => .ok s
  | t :: ts => do (← s.add t).addAll ts

end

end Nesting

/-- The nodes that a list of tokens stands for. -/
def Node.ofTokens (strictness : Strictness) (tokens : List Token) : Except NestingFault (List (Node Unit)) := do
  let s ← Nesting.addAll {} tokens
  match strictness with
  | .strict => s.complete
  | .tolerant => return s.abandon

/-- The document around the nodes of a template. -/
def Document.ofNodes (source : String) (nodes : List (Node Unit)) : Document Unit :=
  ⟨source, { info := (), span := ⟨0, Text.byteSize source.toList⟩, kind := .document, children := nodes }⟩

/-- Read a template. -/
def Document.parse (source : String) (strictness : Strictness := .strict) : Except Fault (Document Unit) :=
  match Token.ofSource source with
  | .error attempts => .error (.grammar (.ofAttempts attempts))
  | .ok tokens =>
    match Node.ofTokens strictness tokens with
    | .error fault => .error (.nesting fault)
    | .ok nodes => .ok (.ofNodes source nodes)

end LiquidTemplate
