import LiquidTemplate.Proofs.Grammar.Everywhere
import LiquidTemplate.Proofs.Nesting.Preorder
import LiquidTemplate.Proofs.Nesting.Strict
import Mathlib.Order.MinMax

/-!
# The same tokens elsewhere

If the blanks between the tokens of a template change, the tokens stay what they are and stand elsewhere.
`Token.moved f` is a token with every offset `i` replaced by `f i`, and `Node.moved f` does the same to a tree. What is
nested in what does not depend on offsets, so the moved tokens stand for the moved tree (`Derives.moved`).

The ranges inside of a raw element or a raw tag, those of its two ends and of its body, are forgotten: nothing depends
on them once the tree is built.
-/

namespace LiquidTemplate

/-! ## Ranges -/

def Span.moved (f : Nat → Nat) (s : Span) : Span :=
  ⟨f s.start, f s.stop⟩

def Slice.moved (f : Nat → Nat) (s : Slice) : Slice :=
  ⟨s.span.moved f, s.text⟩

def Delimiter.moved (f : Nat → Nat) (d : Delimiter) : Delimiter :=
  ⟨d.span.moved f, d.trimLeft, d.trimRight⟩

def RawBody.moved (f : Nat → Nat) (b : RawBody) : RawBody :=
  ⟨b.slice.moved f, b.kind⟩

/-- The offset of all that is forgotten. -/
def nowhere (_ : Nat) : Nat :=
  0

/-! ## Tokens -/

namespace Token

mutual

def moved (f : Nat → Nat) : Token → Token
  | text s => text (s.moved f)
  | frontMatter span body => frontMatter (span.moved f) body
  | comment span body => comment (span.moved f) body
  | doctype span legacy => doctype (span.moved f) legacy
  | openTag span name attributes => openTag (span.moved f) (allMoved f name) (allMoved f attributes)
  | closeTag span name => closeTag (span.moved f) (allMoved f name)
  | voidElement span name attributes => voidElement (span.moved f) name (allMoved f attributes)
  | selfClosing span name attributes => selfClosing (span.moved f) (allMoved f name) (allMoved f attributes)
  | rawElement span name attributes body opener closer =>
    rawElement (span.moved f) name (allMoved f attributes) (body.moved nowhere) (opener.moved nowhere)
      (closer.moved nowhere)
  | drop d written markup => drop (d.moved f) written markup
  | rawTag span name markup body opener closer =>
    rawTag (span.moved f) name markup (body.moved nowhere) (opener.moved nowhere) (closer.moved nowhere)
  | blockOpen d name markup => blockOpen (d.moved f) name markup
  | blockClose d name => blockClose (d.moved f) name
  | tag d name markup => tag (d.moved f) name markup
  | attr span style name value => attr (span.moved f) style (allMoved f name) (allMoved f value)

def allMoved (f : Nat → Nat) : List Token → List Token
  | [] => []
  | t :: ts => moved f t :: allMoved f ts

end

variable {f g : Nat → Nat}

theorem allMoved_eq_map (ts : List Token) : allMoved f ts = ts.map (moved f) := by
  induction ts with
  | nil => rfl
  | cons t ts ih => rw [allMoved, ih, List.map_cons]

@[simp] theorem span_moved (t : Token) : (t.moved f).span = t.span.moved f := by
  cases t <;> rfl

@[simp] theorem nameParts_moved (t : Token) : (t.moved f).nameParts = t.nameParts.map (moved f) := by
  cases t <;> simp [moved, nameParts, allMoved_eq_map]

@[simp] theorem attributeParts_moved (t : Token) : (t.moved f).attributeParts = t.attributeParts.map (moved f) := by
  cases t <;> simp [moved, attributeParts, allMoved_eq_map]

@[simp] theorem valueParts_moved (t : Token) : (t.moved f).valueParts = t.valueParts.map (moved f) := by
  cases t <;> simp [moved, valueParts, allMoved_eq_map]

@[simp] theorem written_moved (t : Token) : (t.moved f).written = t.written := by
  cases t <;> rfl

@[simp] theorem isFragment_moved (t : Token) : (t.moved f).isFragment = t.isFragment := by
  cases t <;> rfl

@[simp] theorem nameOf_map_moved (ts : List Token) : nameOf (ts.map (moved f)) = nameOf ts := by
  simp [nameOf, Function.comp_def]

theorem attributeText?_map_moved (name : String) (ts : List Token) :
    attributeText? name (ts.map (moved f)) = attributeText? name ts := by
  unfold attributeText?
  rw [List.findSome?_map]
  congr 1
  funext t
  cases t with
  | attr span style fragments value =>
    simp only [Function.comp_apply, moved, allMoved_eq_map, nameOf_map_moved]
    rcases value with - | ⟨t, - | ⟨u, ts⟩⟩
    · rfl
    · cases t <;> rfl
    · cases t <;> rfl
  | _ => rfl

@[simp] theorem elementCodeKind_map_moved (name : String) (ts : List Token) :
    elementCodeKind name (ts.map (moved f)) = elementCodeKind name ts := by
  simp only [elementCodeKind, attributeText?_map_moved]

theorem PlainNames.moved {t : Token} (h : t.PlainNames) : (t.moved f).PlainNames := by
  induction h with
  | @mk t name _ _ ih ih' =>
    refine ⟨?_, ?_, ?_⟩
    · simpa using name
    · simpa using ih
    · simpa using ih'

theorem Everywhere.moved_congr {t : Token} (h : t.Everywhere fun u => u.span.moved f = u.span.moved g) :
    t.moved f = t.moved g := by
  induction h with
  | @mk t own _ _ _ ih ih' ih'' =>
    have hname : t.nameParts.map (Token.moved f) = t.nameParts.map (Token.moved g) := List.map_congr_left ih
    have hattributes : t.attributeParts.map (Token.moved f) = t.attributeParts.map (Token.moved g) :=
      List.map_congr_left ih'
    have hvalue : t.valueParts.map (Token.moved f) = t.valueParts.map (Token.moved g) := List.map_congr_left ih''
    cases t <;> simp_all [Token.moved, Slice.moved, Delimiter.moved, allMoved_eq_map, span, nameParts, attributeParts,
      valueParts]

mutual

theorem moved_moved (t : Token) : (t.moved g).moved f = t.moved (f ∘ g) := by
  cases t <;>
    simp only [moved, allMoved_allMoved, Slice.moved, Delimiter.moved, Span.moved, Function.comp_apply, nowhere]

theorem allMoved_allMoved (ts : List Token) : allMoved f (allMoved g ts) = allMoved (f ∘ g) ts := by
  cases ts with
  | nil => rfl
  | cons t ts => simp only [allMoved, moved_moved, allMoved_allMoved]

end

end Token

/-! ## Nodes -/

def Kind.moved (f : Nat → Nat) : Kind → Kind
  | element opener closer => element (opener.moved f) (closer.moved f)
  | rawElement name body opener closer =>
    rawElement name (body.moved nowhere) (opener.moved nowhere) (closer.moved nowhere)
  | tag name markup opener => tag name markup (opener.moved f)
  | block name markup opener closer => block name markup (opener.moved f) (closer.map (Delimiter.moved f))
  | branch name markup opener => branch name markup (opener.moved f)
  | rawTag name markup body opener closer =>
    rawTag name markup (body.moved nowhere) (opener.moved nowhere) (closer.moved nowhere)
  | drop written markup d => drop written markup (d.moved f)
  | kind => kind

namespace Node

variable {α : Type} {f g : Nat → Nat}

mutual

def moved (f : Nat → Nat) : Node α → Node α
  | ⟨info, span, kind, name, attributes, value, children⟩ =>
    ⟨info, span.moved f, kind.moved f, allMoved f name, allMoved f attributes, allMoved f value, allMoved f children⟩

def allMoved (f : Nat → Nat) : List (Node α) → List (Node α)
  | [] => []
  | n :: ns => moved f n :: allMoved f ns

end

theorem allMoved_eq_map (ns : List (Node α)) : allMoved f ns = ns.map (moved f) := by
  induction ns with
  | nil => rfl
  | cons n ns ih => rw [allMoved, ih, List.map_cons]

theorem moved_mk (info : α) (span : Span) (kind : Kind) (name attributes value children : List (Node α)) :
    moved f ⟨info, span, kind, name, attributes, value, children⟩ =
      ⟨info, span.moved f, kind.moved f, name.map (moved f), attributes.map (moved f), value.map (moved f),
        children.map (moved f)⟩ := by
  simp only [moved, allMoved_eq_map]

@[simp] theorem info_moved (n : Node α) : (n.moved f).info = n.info := by
  cases n
  rfl

@[simp] theorem span_moved (n : Node α) : (n.moved f).span = n.span.moved f := by
  cases n
  rfl

@[simp] theorem kind_moved (n : Node α) : (n.moved f).kind = n.kind.moved f := by
  cases n
  rfl

@[simp] theorem name_moved (n : Node α) : (n.moved f).name = n.name.map (moved f) := by
  cases n
  simp only [moved_mk]

@[simp] theorem attributes_moved (n : Node α) : (n.moved f).attributes = n.attributes.map (moved f) := by
  cases n
  simp only [moved_mk]

@[simp] theorem value_moved (n : Node α) : (n.moved f).value = n.value.map (moved f) := by
  cases n
  simp only [moved_mk]

@[simp] theorem children_moved (n : Node α) : (n.moved f).children = n.children.map (moved f) := by
  cases n
  simp only [moved_mk]

@[simp] theorem written_moved (n : Node α) : (n.moved f).written = n.written := by
  obtain ⟨info, span, kind, name, attributes, value, children⟩ := n
  cases kind <;> rfl

@[simp] theorem spelledName_moved (n : Node α) : (n.moved f).spelledName = n.spelledName := by
  simp [spelledName, Function.comp_def]

@[simp] theorem isText_moved (n : Node α) : (n.moved f).isText = n.isText := by
  obtain ⟨info, span, kind, name, attributes, value, children⟩ := n
  cases kind <;> rfl

@[simp] theorem remark?_moved (n : Node α) : (n.moved f).remark? = n.remark? := by
  obtain ⟨info, span, kind, name, attributes, value, children⟩ := n
  cases kind with
  | tag name markup opener =>
    simp only [remark?, moved, Kind.moved]
    split <;> simp_all
  | _ => rfl

theorem openerStop_moved (n : Node α) : (n.moved f).openerStop = f n.openerStop := by
  obtain ⟨info, span, kind, name, attributes, value, children⟩ := n
  cases kind <;> rfl

mutual

theorem preorder_moved (n : Node α) : (n.moved f).preorder = n.preorder.map (moved f) := by
  obtain ⟨info, span, kind, name, attributes, value, children⟩ := n
  simp only [preorder, moved, preorderOf_allMoved, List.map_cons, List.map_append]

theorem preorderOf_allMoved (ns : List (Node α)) : preorderOf (allMoved f ns) = (preorderOf ns).map (moved f) := by
  cases ns with
  | nil => rfl
  | cons n ns => simp only [allMoved, preorderOf, preorder_moved, preorderOf_allMoved, List.map_append]

end

end Node

/-! ## Derivations -/

def Phrase.moved (f : Nat → Nat) : Phrase → Phrase
  | sequence => sequence
  | item => item
  | branches name markup opener stop => branches name markup (opener.moved f) (f stop)

theorem Token.leafKind?_moved {f : Nat → Nat} {t : Token} : (t.moved f).leafKind? = t.leafKind?.map (Kind.moved f) := by
  cases t with
  | tag d name markup =>
    simp only [moved, leafKind?]
    split <;> rfl
  | _ => simp [moved, leafKind?, Kind.moved, allMoved_eq_map, RawBody.moved, Slice.moved]

section

variable {f : Nat → Nat} (hf : Monotone f)

include hf

theorem branchReach_moved (opener : Delimiter) (children : List (Node Unit)) :
    Node.branchReach (opener.moved f) (children.map (Node.moved f)) = f (Node.branchReach opener children) := by
  have hfold : ∀ stop, (children.map (Node.moved f)).foldl (fun stop n => max stop n.openerStop) (f stop) =
      f (children.foldl (fun stop n => max stop n.openerStop) stop) := by
    induction children with
    | nil => exact fun _ => rfl
    | cons n ns ih =>
      intro stop
      rw [List.map_cons, List.foldl_cons, Node.openerStop_moved, ← hf.map_max, ih, List.foldl_cons]
  exact hfold _

theorem branchOf_moved (name : Option String) (markup : Markup) (opener : Delimiter) (children : List (Node Unit))
    (next : Nat) :
    (Node.branchOf name markup opener children next).moved f =
      .branchOf name markup (opener.moved f) (children.map (Node.moved f)) (f next) := by
  simp only [Node.branchOf, Node.moved_mk, Kind.moved, List.map_nil, Span.moved, branchReach_moved hf, hf.map_max,
    hf.map_min]
  rfl

/-- **Moved tokens stand for the moved tree.** -/
theorem Derives.moved {phrase : Phrase} {ts : List Token} {ns : List (Node Unit)} (h : Derives phrase ts ns) :
    Derives (phrase.moved f) (ts.map (Token.moved f)) (ns.map (Node.moved f)) := by
  induction h with
  | nil => exact .nil
  | cons _ _ ih ih' =>
    rw [List.map_append, List.map_cons]
    exact .cons ih ih'
  | @leaf t kind name attributes value isLeaf _ _ _ ih ih' ih'' =>
    simp only [List.map_cons, List.map_nil, Node.moved_mk]
    rw [← Token.span_moved]
    refine .leaf ?_ ?_ ?_ ?_
    · rw [Token.leafKind?_moved, isLeaf, Option.map_some]
    · rwa [Token.nameParts_moved]
    · rwa [Token.attributeParts_moved]
    · rwa [Token.valueParts_moved]
  | element _ _ _ _ same ih ih' ih'' ih''' =>
    simp only [List.map_cons, List.map_append, List.map_nil, Node.moved_mk, Kind.moved, Token.moved,
      Token.allMoved_eq_map]
    exact .element ih ih' ih'' ih''' (by simpa using same)
  | block undivided _ ih =>
    simp only [List.map_cons, List.map_append, List.map_nil, Node.moved_mk, Kind.moved, Token.moved, Option.map_some]
    exact .block undivided ih
  | branched divided _ ih =>
    simp only [List.map_cons, List.map_append, List.map_nil, Node.moved_mk, Kind.moved, Token.moved, Option.map_some]
    exact .branched divided ih
  | lastBranch _ ih =>
    rw [List.map_cons, List.map_nil, branchOf_moved hf]
    exact .lastBranch ih
  | nextBranch starts _ _ ih ih' =>
    rw [List.map_append, List.map_cons, List.map_cons, branchOf_moved hf]
    exact .nextBranch starts ih ih'

end

end LiquidTemplate
