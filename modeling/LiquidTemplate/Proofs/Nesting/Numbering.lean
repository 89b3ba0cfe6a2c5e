import LiquidTemplate.Proofs.Nesting.Preorder
import LiquidTemplate.Proofs.Nesting.Tolerant

/-!
# Numbers in the order of reading

Each token starts some nodes: an opening tag its element and then what is written in it, a branched tag its own
node and its first branch, a closing tag none. Listed in preorder, the nodes of a document are the root and then
those that the tokens start, one token after the other (`Trails.origins`). So the number of a node says how many
nodes were started before it. The main statement is `numbered_of_parse`.
-/

namespace LiquidTemplate

/-! ## Origins -/

/-- Where a node starts, and what it is as long as nothing has closed it. -/
structure Origin where
  start : Nat
  kind : Kind

/-- What a node is before its closing tag is read. -/
def Kind.unclosed : Kind → Kind
  | element opener _ => element opener (.point opener.stop)
  | block name markup opener _ => block name markup opener none
  | kind => kind

def Node.origin {α : Type} (n : Node α) : Origin :=
  ⟨n.span.start, n.kind.unclosed⟩

namespace Token

/-- The nodes that a token starts, without those of the lists inside of it. -/
def ownOrigins : Token → List Origin
  | openTag span _ _ => [⟨span.start, .element span (.point span.stop)⟩]
  | blockOpen d name markup =>
    ⟨d.span.start, .block name markup d none⟩ ::
      if isBranchedTag name then [⟨d.span.stop, .branch none (.plain "") ⟨.point d.span.stop, false, false⟩⟩] else []
  | tag d name markup =>
    [⟨d.span.start, if isBranchStart name then .branch (some name) markup d else .tag name markup d⟩]
  | closeTag _ _ | blockClose _ _ => []
  | t => t.leafKind?.toList.map (⟨t.span.start, ·⟩)

mutual

def origins : Token → List Origin
  | openTag span name attributes =>
    ownOrigins (openTag span name attributes) ++ (originsOf name ++ originsOf attributes)
  | selfClosing span name attributes =>
    ownOrigins (selfClosing span name attributes) ++ (originsOf name ++ originsOf attributes)
  | voidElement span name attributes => ownOrigins (voidElement span name attributes) ++ originsOf attributes
  | rawElement span name attributes body opener closer =>
    ownOrigins (rawElement span name attributes body opener closer) ++ originsOf attributes
  | attr span style name value => ownOrigins (attr span style name value) ++ (originsOf name ++ originsOf value)
  | t => ownOrigins t

def originsOf : List Token → List Origin
  | [] => []
  | t :: ts => t.origins ++ originsOf ts

end

theorem originsOf_append (ts us : List Token) : originsOf (ts ++ us) = originsOf ts ++ originsOf us := by
  induction ts with
  | nil => rfl
  | cons t ts ih => rw [List.cons_append, originsOf, originsOf, ih, List.append_assoc]

theorem origins_of_leafKind? {t : Token} {kind : Kind} (h : t.leafKind? = some kind) :
    t.origins = ⟨t.span.start, kind.unclosed⟩ ::
      (originsOf t.nameParts ++ originsOf t.attributeParts ++ originsOf t.valueParts) := by
  cases isLeaf_of_leafKind? h with
  | tag _ _ _ starts =>
    simp [origins, ownOrigins, starts, Kind.unclosed, span, nameParts, attributeParts, valueParts, originsOf]
  | _ =>
    simp [origins, ownOrigins, leafKind?, Kind.unclosed, span, nameParts, attributeParts, valueParts, originsOf]

end Token

/-! ## Derived nodes -/

namespace Node

theorem map_origin_preorder {α : Type} (info : α) (span : Span) (kind : Kind)
    (name attributes value children : List (Node α)) :
    (preorder ⟨info, span, kind, name, attributes, value, children⟩).map origin =
      ⟨span.start, kind.unclosed⟩ :: ((preorderOf name).map origin ++ (preorderOf attributes).map origin ++
        (preorderOf value).map origin ++ (preorderOf children).map origin) := by
  simp only [preorder, origin, List.map_cons, List.map_append]

theorem map_origin_preorderOf_append {α : Type} (ns ms : List (Node α)) :
    (preorderOf (ns ++ ms)).map origin = (preorderOf ns).map origin ++ (preorderOf ms).map origin := by
  induction ns with
  | nil => rfl
  | cons n ns ih => simp only [List.cons_append, preorderOf, List.map_append, ih, List.append_assoc]

theorem map_origin_preorderOf_singleton {α : Type} (n : Node α) :
    (preorderOf [n]).map origin = n.preorder.map origin := by
  rw [preorderOf, preorderOf, List.append_nil]

end Node

/-- A branch that is open already was started before the tokens of its phrase. -/
def Phrase.origins : Phrase → List Origin
  | sequence | item => []
  | branches name markup opener _ => [⟨opener.span.start, .branch name markup opener⟩]

open Node Token in
theorem Derives.origins {phrase : Phrase} {ts : List Token} {ns : List (Node Unit)} (h : Derives phrase ts ns) :
    (preorderOf ns).map origin = phrase.origins ++ originsOf ts := by
  induction h with
  | nil => rfl
  | cons _ _ ih ih' =>
    simp only [Phrase.origins, List.nil_append, map_origin_preorderOf_singleton] at ih ih' ⊢
    rw [preorderOf, List.map_append, ih, ih', originsOf_append]
  | leaf isLeaf _ _ _ ih ih' ih'' =>
    simp only [Phrase.origins, List.nil_append] at ih ih' ih'' ⊢
    rw [map_origin_preorderOf_singleton, map_origin_preorder, ih, ih', ih'', originsOf, origins_of_leafKind? isLeaf]
    simp [preorderOf, originsOf]
  | element _ _ _ _ _ ih ih' ih'' _ =>
    simp only [Phrase.origins, List.nil_append] at ih ih' ih'' ⊢
    rw [map_origin_preorderOf_singleton, map_origin_preorder, ih, ih', ih'', originsOf, originsOf_append]
    simp [preorderOf, originsOf, Token.origins, ownOrigins, Kind.unclosed]
  | block undivided _ ih =>
    simp only [Phrase.origins, List.nil_append] at ih ⊢
    rw [map_origin_preorderOf_singleton, map_origin_preorder, ih, originsOf, originsOf_append]
    simp [preorderOf, originsOf, Token.origins, ownOrigins, Kind.unclosed, undivided]
  | branched divided _ ih =>
    simp only [Phrase.origins, List.nil_append] at ih ⊢
    rw [map_origin_preorderOf_singleton, map_origin_preorder, ih, originsOf, originsOf_append]
    simp [preorderOf, originsOf, Token.origins, ownOrigins, Kind.unclosed, divided, Span.point]
  | lastBranch _ ih =>
    simp only [Phrase.origins, List.nil_append] at ih ⊢
    rw [map_origin_preorderOf_singleton, branchOf, map_origin_preorder, ih]
    simp [preorderOf, Kind.unclosed]
  | nextBranch starts _ _ ih ih' =>
    simp only [Phrase.origins, List.nil_append] at ih ih' ⊢
    rw [preorderOf, List.map_append, branchOf, map_origin_preorder, ih, ih', originsOf_append, originsOf]
    simp [preorderOf, Token.origins, ownOrigins, Kind.unclosed, starts]

open Node Token in
theorem Trails.origins {ts : List Token} {ns : List (Node Unit)} (h : Trails ts ns) :
    (preorderOf ns).map origin = originsOf ts := by
  induction h with
  | closed items => exact items.origins
  | element before names items _ ih =>
    have hnames := names.origins
    have hitems := items.origins
    simp only [Phrase.origins, List.nil_append] at hnames hitems
    rw [map_origin_preorderOf_append, map_origin_preorderOf_singleton, map_origin_preorder, before.origins, hnames,
      hitems, ih, originsOf_append, originsOf]
    simp [preorderOf, Token.origins, ownOrigins, Kind.unclosed, Phrase.origins]
  | block before undivided _ ih =>
    rw [map_origin_preorderOf_append, map_origin_preorderOf_singleton, map_origin_preorder, before.origins, ih,
      originsOf_append, originsOf]
    simp [preorderOf, Token.origins, ownOrigins, Kind.unclosed, Phrase.origins, undivided]
  | @branched _ _ opener _ _ earlier _ ended _ branch branchMarkup start before divided continues _ ih =>
    -- without its children, the open branch is the last one behind the tokens before them
    have hearlier : (preorderOf ended).map origin ++ [⟨start.span.start, .branch branch branchMarkup start⟩] =
        ⟨opener.span.stop, .branch none (.plain "") ⟨.point opener.span.stop, false, false⟩⟩ :: originsOf earlier := by
      have hempty := (continues (@Derives.lastBranch _ _ _ 0 _ _ .nil)).origins
      rw [map_origin_preorderOf_append, map_origin_preorderOf_singleton, branchOf, map_origin_preorder,
        List.append_nil] at hempty
      exact hempty
    rw [map_origin_preorderOf_append, map_origin_preorderOf_singleton, map_origin_preorder, before.origins,
      map_origin_preorderOf_append, map_origin_preorderOf_singleton, openBranch, map_origin_preorder, ih,
      originsOf_append, originsOf, originsOf_append]
    have hbranches : ∀ inner,
        (preorderOf ended).map origin ++ ⟨start.span.start, .branch branch branchMarkup start⟩ :: inner =
        ⟨opener.span.stop, .branch none (.plain "") ⟨.point opener.span.stop, false, false⟩⟩ ::
          (originsOf earlier ++ inner) := fun inner => by
      rw [List.append_cons, hearlier, List.cons_append]
    simp [preorderOf, Token.origins, ownOrigins, Kind.unclosed, Phrase.origins, divided, hbranches]

/-! ## Numbers of a document -/

/-- A document whose nodes are numbered in preorder, which is the order in which tokens start them. -/
structure Numbered (d : Document Unit) (tokens : List Token) : Prop where
  /-- The walk from the root along the links meets all numbers in order. -/
  visits : Visits d.entries [0] (List.range d.size)
  numbers : d.entries.map Entry.number = List.range d.size
  /-- Every number but that of the root is in one list of links, at one place. -/
  links : (d.entries.flatMap Entry.links).Perm (List.range' 1 (d.size - 1))
  /-- A node is numbered before those that it holds. -/
  increasing : ∀ e ∈ d.entries, ∀ k ∈ e.links, e.number < k
  /-- The nodes after the root are those that the tokens start. -/
  origins : d.entries.map (·.node.origin) = ⟨0, .document⟩ :: Token.originsOf tokens

/-- **The nodes of a document are numbered in preorder**, and that is the order in which its tokens start them. -/
theorem numbered_of_parse {source : String} {strictness : Strictness} {d : Document Unit}
    (h : Document.parse source strictness = .ok d) :
    ∃ tokens, Token.ofSource source = .ok tokens ∧ Numbered d tokens := by
  obtain ⟨tokens, htokens⟩ := ofSource_of_parse h
  obtain ⟨nodes, htrails, rfl⟩ := trails_of_parse htokens h
  refine ⟨tokens, htokens, Document.visits_entries _, Document.map_number_entries _, Document.perm_links _,
    Node.lt_of_mem_links _ _ _ _ _, ?_⟩
  have hpreorder := congrArg (List.map Node.origin)
    (Node.map_node_entries (Document.ofNodes source nodes).root 0 none none none)
  rw [List.map_map] at hpreorder
  refine hpreorder.trans ?_
  rw [Document.ofNodes, Node.map_origin_preorder, htrails.origins]
  rfl

/-- A branched tag with an attribute in it, left open after its second branch. -/
theorem numbered_left_open :
    ∃ d tokens, Document.parse "\x7b% if a %\x7d<b c=\"d\">x</b>\x7b% else %\x7d<p>" .tolerant = .ok d ∧ d.size = 12 ∧
      Numbered d tokens := by
  obtain ⟨d, hd, hsize⟩ := exists_eq_ok (P := fun d : Document Unit => d.size == 12)
    (x := Document.parse "\x7b% if a %\x7d<b c=\"d\">x</b>\x7b% else %\x7d<p>" .tolerant) (by decide +kernel)
  obtain ⟨tokens, -, hnumbered⟩ := numbered_of_parse hd
  exact ⟨d, tokens, hd, by simpa using hsize, hnumbered⟩

end LiquidTemplate
