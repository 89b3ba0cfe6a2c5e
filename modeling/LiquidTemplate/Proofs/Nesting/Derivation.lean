import LiquidTemplate.Node.Nesting
import LiquidTemplate.Proofs.Peg.Values

/-!
# The grammar of nesting

Which lists of tokens are well nested, and which nodes they stand for, as a grammar over tokens: no state
and no stack. `Derives .sequence tokens nodes` says that the tokens are items one after the other and that
`nodes` are what these items stand for. An item is a token that stands for itself, an element or tag with
the items between its two ends, or a branched tag with its branches. The name, the attributes and the value
of a token are sequences of their own.

Names are matched by what their fragments spell. Tokens that were read from a template have names made of
texts and drops only (`plainNames_of_ofSource`).
-/

namespace LiquidTemplate

namespace Token

/-! ## Parts of a token -/

def nameParts : Token → List Token
  | openTag _ name _ | closeTag _ name | selfClosing _ name _ | attr _ _ name _ => name
  | _ => []

def attributeParts : Token → List Token
  | openTag _ _ attributes | voidElement _ _ attributes | selfClosing _ _ attributes
  | rawElement _ _ attributes _ _ _ => attributes
  | _ => []

def valueParts : Token → List Token
  | attr _ _ _ value => value
  | _ => []

/-- What a token is that stands for itself: it neither opens nor closes anything and starts no branch. -/
def leafKind? : Token → Option Kind
  | text s => some (.text s.text)
  | frontMatter _ body => some (.frontMatter body)
  | comment _ body => some (.comment body)
  | doctype _ legacy => some (.doctype legacy)
  | voidElement _ name _ => some (.voidElement name)
  | selfClosing _ _ _ => some .selfClosing
  | rawElement _ name attributes body opener closer =>
    some (.rawElement name ⟨body, elementCodeKind name attributes⟩ opener closer)
  | drop d written markup => some (.drop written markup d)
  | rawTag _ name markup body opener closer => some (.rawTag name markup ⟨body, tagCodeKind name⟩ opener closer)
  | tag d name markup => if isBranchStart name then none else some (.tag name markup d)
  | attr _ style _ _ => some (.attr style)
  | openTag _ _ _ | closeTag _ _ | blockOpen _ _ _ | blockClose _ _ => none

/-- The tokens that stand for themselves, with their kinds. -/
inductive IsLeaf : Token → Kind → Prop where
  | text (s) : IsLeaf (.text s) (.text s.text)
  | frontMatter (span body) : IsLeaf (.frontMatter span body) (.frontMatter body)
  | comment (span body) : IsLeaf (.comment span body) (.comment body)
  | doctype (span legacy) : IsLeaf (.doctype span legacy) (.doctype legacy)
  | voidElement (span name attributes) : IsLeaf (.voidElement span name attributes) (.voidElement name)
  | selfClosing (span name attributes) : IsLeaf (.selfClosing span name attributes) .selfClosing
  | rawElement (span name attributes body opener closer) :
      IsLeaf (.rawElement span name attributes body opener closer)
        (.rawElement name ⟨body, elementCodeKind name attributes⟩ opener closer)
  | drop (d written markup) : IsLeaf (.drop d written markup) (.drop written markup d)
  | rawTag (span name markup body opener closer) :
      IsLeaf (.rawTag span name markup body opener closer)
        (.rawTag name markup ⟨body, tagCodeKind name⟩ opener closer)
  | tag (d name markup) (starts : ¬ isBranchStart name = true) : IsLeaf (.tag d name markup) (.tag name markup d)
  | attr (span style name value) : IsLeaf (.attr span style name value) (.attr style)

theorem isLeaf_of_leafKind? {t : Token} {kind : Kind} (h : t.leafKind? = some kind) : t.IsLeaf kind := by
  cases t with
  | openTag | closeTag | blockOpen | blockClose => cases h
  | tag d name markup =>
    obtain ⟨starts, hkind⟩ := Option.ite_none_left_eq_some.1 h
    cases hkind
    exact .tag d name markup starts
  | _ =>
    cases h
    constructor

theorem tag_of_leafKind? {t : Token} {name : String} {markup : Markup} {opener : Delimiter}
    (h : t.leafKind? = some (.tag name markup opener)) : t = .tag opener name markup := by
  cases isLeaf_of_leafKind? h
  rfl

def isFragment : Token → Bool
  | text _ | drop _ _ _ => true
  | _ => false

/-- The names in a token are made of texts and drops only, also in the lists inside it. -/
inductive PlainNames : Token → Prop where
  | mk {t : Token} (name : ∀ u ∈ t.nameParts, u.isFragment = true)
      (attributes : ∀ u ∈ t.attributeParts, u.PlainNames) (value : ∀ u ∈ t.valueParts, u.PlainNames) :
      t.PlainNames

theorem PlainNames.of_isFragment {t : Token} (h : t.isFragment = true) : t.PlainNames := by
  cases t with
  | text | drop => exact ⟨by simp [nameParts], by simp [attributeParts], by simp [valueParts]⟩
  | _ => simp [isFragment] at h

end Token

/-! ## Branches -/

/-- Where the opening tag of a node ends; the end of the node itself if it has no opening tag. -/
def Node.openerStop {α : Type} (n : Node α) : Nat :=
  match n.kind with
  | .element opener _ => opener.stop
  | .block _ _ opener _ => opener.span.stop
  | _ => n.span.stop

/-- How far an open branch reaches: over its opener and the openings of its children. -/
def Node.branchReach (opener : Delimiter) (children : List (Node Unit)) : Nat :=
  children.foldl (fun stop n => max stop n.openerStop) opener.span.stop

/-- A branch that ends where the next one or the closing tag starts. -/
def Node.branchOf (name : Option String) (markup : Markup) (opener : Delimiter) (children : List (Node Unit))
    (next : Nat) : Node Unit :=
  { info := (),
    span := ⟨opener.span.start, max (min (branchReach opener children) next) opener.span.start⟩,
    kind := .branch name markup opener, children := children }

/-! ## Derivations -/

/-- What a list of tokens may be read as. -/
inductive Phrase where
  /-- Items one after the other. -/
  | sequence
  /-- One item. -/
  | item
  /-- The branches of a tag from an open one on, up to the offset where the closing tag starts. -/
  | branches (name : Option String) (markup : Markup) (opener : Delimiter) (stop : Nat)

/-- A list of tokens is a phrase that stands for a list of nodes. -/
inductive Derives : Phrase → List Token → List (Node Unit) → Prop where
  | nil : Derives .sequence [] []
  | cons {ts us : List Token} {n : Node Unit} {ns : List (Node Unit)} (first : Derives .item ts [n])
      (rest : Derives .sequence us ns) : Derives .sequence (ts ++ us) (n :: ns)
  | leaf {t : Token} {kind : Kind} {name attributes value : List (Node Unit)} (isLeaf : t.leafKind? = some kind)
      (names : Derives .sequence t.nameParts name) (items : Derives .sequence t.attributeParts attributes)
      (values : Derives .sequence t.valueParts value) :
      Derives .item [t] [⟨(), t.span, kind, name, attributes, value, []⟩]
  | element {opener closer : Span} {name attributes body closerName : List Token}
      {nameNodes attributeNodes children closerNodes : List (Node Unit)} (names : Derives .sequence name nameNodes)
      (items : Derives .sequence attributes attributeNodes) (inside : Derives .sequence body children)
      (closerNames : Derives .sequence closerName closerNodes)
      (same : Text.eqIgnoringCase (Token.nameOf name) (Token.nameOf closerName) = true) :
      Derives .item (.openTag opener name attributes :: (body ++ [.closeTag closer closerName]))
        [⟨(), ⟨opener.start, closer.stop⟩, .element opener closer, nameNodes, attributeNodes, [], children⟩]
  | block {opener closer : Delimiter} {name : String} {markup : Markup} {body : List Token}
      {children : List (Node Unit)} (undivided : isBranchedTag name = false)
      (inside : Derives .sequence body children) :
      Derives .item (.blockOpen opener name markup :: (body ++ [.blockClose closer name]))
        [⟨(), ⟨opener.span.start, closer.span.stop⟩, .block name markup opener (some closer), [], [], [], children⟩]
  | branched {opener closer : Delimiter} {name : String} {markup : Markup} {body : List Token}
      {branches : List (Node Unit)} (divided : isBranchedTag name = true)
      (inside : Derives (.branches none (.plain "") ⟨.point opener.span.stop, false, false⟩ closer.span.start)
        body branches) :
      Derives .item (.blockOpen opener name markup :: (body ++ [.blockClose closer name]))
        [⟨(), ⟨opener.span.start, closer.span.stop⟩, .block name markup opener (some closer), [], [], [], branches⟩]
  | lastBranch {name : Option String} {markup : Markup} {opener : Delimiter} {stop : Nat} {body : List Token}
      {children : List (Node Unit)} (inside : Derives .sequence body children) :
      Derives (.branches name markup opener stop) body [.branchOf name markup opener children stop]
  | nextBranch {name : Option String} {markup : Markup} {opener : Delimiter} {stop : Nat} {body rest : List Token}
      {children branches : List (Node Unit)} {nextName : String} {nextMarkup : Markup} {next : Delimiter}
      (starts : isBranchStart nextName = true) (inside : Derives .sequence body children)
      (others : Derives (.branches (some nextName) nextMarkup next stop) rest branches) :
      Derives (.branches name markup opener stop) (body ++ .tag next nextName nextMarkup :: rest)
        (.branchOf name markup opener children next.span.start :: branches)

theorem Derives.single {ts : List Token} {n : Node Unit} (h : Derives .item ts [n]) :
    Derives .sequence ts [n] := by
  simpa using Derives.cons h .nil

theorem Derives.append {ts us : List Token} {ns ms : List (Node Unit)} (h : Derives .sequence ts ns)
    (h' : Derives .sequence us ms) : Derives .sequence (ts ++ us) (ns ++ ms) := by
  generalize hp : Phrase.sequence = p at h
  induction h with
  | nil => simpa using h'
  | cons first rest _ ih =>
    rw [List.append_assoc]
    exact .cons first (ih hp)
  | leaf | element | block | branched | lastBranch | nextBranch => cases hp

theorem Derives.snoc {ts us : List Token} {ns : List (Node Unit)} {n : Node Unit} (h : Derives .sequence ts ns)
    (h' : Derives .item us [n]) : Derives .sequence (ts ++ us) (ns ++ [n]) :=
  h.append h'.single

end LiquidTemplate
