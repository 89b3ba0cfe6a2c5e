import Mathlib.Data.List.Chain
import LiquidTemplate.Proofs.Grammar.Tiling
import LiquidTemplate.Proofs.Nesting.Strict

/-!
# Reading loses nothing

Walked along its children, the tree of a template gives back the ranges it was read from: those of its leaves,
and those of the opening and closing tags of the nodes that have them (`Node.pieces`). For a template that is
well nested these are the ranges of its tokens, in order. So they do not overlap, and what is outside of them
is blank. The main statement is `pieces_of_parse`.
-/

namespace LiquidTemplate

/-! ## Blanks by byte -/

namespace Text

theorem dropBytes?_append_add (a b : List Char) (n : Nat) : dropBytes? (a ++ b) (byteSize a + n) = dropBytes? b n := by
  induction a with
  | nil => simp [byteSize]
  | cons c a ih =>
    have hpos := Char.utf8Size_pos c
    obtain ⟨m, hm⟩ : ∃ m, byteSize (c :: a) + n = m + 1 := ⟨byteSize (c :: a) + n - 1, by rw [byteSize]; omega⟩
    have hsize : m + 1 = c.utf8Size + (byteSize a + n) := by rw [← hm, byteSize, Nat.add_assoc]
    rw [List.cons_append, hm, dropBytes?, if_pos (by omega), hsize, Nat.add_sub_cancel_left, ih]

theorem blankAt_append_add (a b : List Char) (n : Nat) : blankAt (a ++ b) (byteSize a + n) = blankAt b n := by
  simp only [blankAt, charAt?, dropBytes?_append_add]

theorem utf8Size_of_isBlank {c : Char} (h : isBlank c = true) : c.utf8Size = 1 := by
  simp only [isBlank, Bool.or_eq_true, beq_iff_eq] at h
  obtain (((rfl | rfl) | rfl) | rfl) | rfl := h <;> decide

theorem blankAt_of_all_isBlank {gap : List Char} (hgap : gap.all isBlank = true) (rest : List Char) {n : Nat}
    (hn : n < byteSize gap) : blankAt (gap ++ rest) n = true := by
  induction gap generalizing n with
  | nil => cases hn
  | cons c gap ih =>
    obtain ⟨hc, hgap⟩ : isBlank c = true ∧ gap.all isBlank = true := by simpa using hgap
    cases n with
    | zero => simp [blankAt, charAt?, dropBytes?, hc]
    | succ n =>
      rw [byteSize, utf8Size_of_isBlank hc] at hn
      have hshift := blankAt_append_add [c] (gap ++ rest) n
      rw [byteSize, byteSize, utf8Size_of_isBlank hc, Nat.add_zero, Nat.add_comm] at hshift
      exact hshift.trans (ih hgap (by omega))

theorem blankAt_last {x : Char} (hx : isBlank x = false) (rest : List Char) :
    blankAt (x :: rest) (x.utf8Size - 1) = false := by
  cases hsize : x.utf8Size - 1 with
  | zero => simp [blankAt, charAt?, dropBytes?, hx]
  | succ n => simp [blankAt, charAt?, dropBytes?, show ¬ x.utf8Size ≤ n + 1 by omega]

theorem exists_of_opensText {cs : List Char} (h : opensText cs = true) :
    ∃ x rest, cs = x :: rest ∧ isBlank x = false := by
  have hfirst := (Bool.and_eq_true_iff.1 h).2
  cases cs with
  | nil => cases hfirst
  | cons x rest => exact ⟨x, rest, rfl, by simpa using hfirst⟩

end Text

/-! ## Tilings by byte -/

namespace Tiles

variable {offset : Nat} {chars tail : List Char} {ts : List Token}

theorem isAttribute_eq_false (h : Tiles offset chars tail ts) : ∀ t ∈ ts, t.isAttribute = false := by
  induction h with
  | nil => simp
  | cons _ _ _ item _ _ ih => exact List.forall_mem_cons.2 ⟨item, ih⟩

theorem blankAt_of_uncovered (h : Tiles offset chars [] ts) {k : Nat} (hk : k < Text.byteSize chars)
    (hout : ∀ t ∈ ts, ¬ (t.span.start ≤ offset + k ∧ offset + k < t.span.stop)) : Text.blankAt chars k = true := by
  generalize htail : ([] : List Char) = tail at h
  induction h generalizing k with
  | @nil offset gap tail blank =>
    subst htail
    exact Text.blankAt_of_all_isBlank blank [] (by simpa using hk)
  | @cons offset start gap w rest tail t ts blank starts place _ _ _ ih =>
    obtain ⟨houtside, hout⟩ := List.forall_mem_cons.1 hout
    simp only [place.1] at houtside
    by_cases hgap : k < Text.byteSize gap
    · exact Text.blankAt_of_all_isBlank blank _ hgap
    · simp only [Text.byteSize_append] at hk
      obtain ⟨j, rfl⟩ : ∃ j, k = Text.byteSize (gap ++ w) + j :=
        ⟨k - Text.byteSize (gap ++ w), by simp only [Text.byteSize_append]; omega⟩
      simp only [Text.byteSize_append] at hk hout
      rw [← List.append_assoc, Text.blankAt_append_add]
      refine ih (by omega) (fun u hu hcovers => hout u hu ?_) htail
      omega

theorem textBefore (h : Tiles offset chars tail ts) {t : Token} (ht : t ∈ ts) (htext : t.isText = true) :
    ∃ v w rest, chars = v ++ (w ++ rest) ∧ TextBefore t w rest ∧
      t.span = ⟨offset + Text.byteSize v, offset + Text.byteSize v + Text.byteSize w⟩ := by
  induction h with
  | nil => cases ht
  | @cons offset start gap w rest tail u ts _ starts place _ text _ ih =>
    rcases List.mem_cons.1 ht with rfl | ht
    · exact ⟨gap, w, rest, rfl, text htext, starts ▸ place.1⟩
    · obtain ⟨v, w', rest', rfl, hbefore, hspan⟩ := ih ht
      refine ⟨gap ++ w ++ v, w', rest', by simp only [List.append_assoc], hbefore, ?_⟩
      rw [hspan, starts]
      simp only [Text.byteSize_append, Nat.add_assoc]

theorem blankAt_text (h : Tiles 0 chars tail ts) {t : Token} (ht : t ∈ ts) (htext : t.isText = true) :
    Text.blankAt chars t.span.start = false ∧ Text.blankAt chars (t.span.stop - 1) = false := by
  obtain ⟨v, w, rest, rfl, hbefore, hspan⟩ := h.textBefore ht htext
  obtain ⟨u, x, rfl, hx⟩ := hbefore.ends
  have hpos := Char.utf8Size_pos x
  rw [hspan]
  constructor
  · obtain ⟨y, more, hy, hblank⟩ := Text.exists_of_opensText hbefore.opens
    have hshift := Text.blankAt_append_add v ((u ++ [x]) ++ rest) 0
    simp only [Nat.zero_add, Nat.add_zero] at hshift ⊢
    rw [hshift, hy]
    simp [Text.blankAt, Text.charAt?, Text.dropBytes?, hblank]
  · have hlast : 0 + Text.byteSize v + Text.byteSize (u ++ [x]) - 1 = Text.byteSize (v ++ u) + (x.utf8Size - 1) := by
      simp only [Text.byteSize_append, Text.byteSize]
      omega
    rw [hlast, List.append_assoc, ← List.append_assoc, Text.blankAt_append_add]
    exact Text.blankAt_last hx rest

theorem dropWhile_gap {gap cs : List Char} (hgap : gap.all Text.isBlank = true) (hopens : Text.opensText cs = true) :
    (gap ++ cs).dropWhile Text.isBlank = cs := by
  obtain ⟨x, rest, rfl, hx⟩ := Text.exists_of_opensText hopens
  rw [List.dropWhile_append_of_pos (List.all_eq_true.1 hgap), List.dropWhile_cons_of_neg (by simp [hx])]

/-- After the blanks behind a text, the next token is no text. -/
theorem isChain_text (h : Tiles offset chars tail ts) :
    ts.IsChain fun t u => ¬ (t.isText = true ∧ u.isText = true) := by
  induction h with
  | nil => exact .nil
  | @cons offset start gap w rest tail t ts _ _ _ _ text more ih =>
    cases more with
    | nil => exact .singleton _
    | @cons _ _ gap' w' rest' _ u us blank _ _ _ text' _ =>
      refine .cons_cons ?_ ih
      rintro ⟨ht, hu⟩
      have hlongest := (text ht).longest
      rw [dropWhile_gap blank (text' hu).opens, (text' hu).opens] at hlongest
      cases hlongest

end Tiles

/-! ## The pieces of a tree -/

/-- A range of the template, and whether it is a text. -/
structure Piece where
  span : Span
  isText : Bool
deriving DecidableEq, Repr

namespace Kind

/-- What a node over a range contributes before its children: its opening tag, or the range if it is a leaf. -/
def opening (span : Span) : Kind → List Piece
  | document | branch none _ _ | attr _ => []
  | text _ => [⟨span, true⟩]
  | element opener _ => [⟨opener, false⟩]
  | block _ _ opener _ | branch (some _) _ opener => [⟨opener.span, false⟩]
  | frontMatter _ | comment _ | doctype _ | voidElement _ | selfClosing | rawElement _ _ _ _ | tag _ _ _
  | rawTag _ _ _ _ _ | drop _ _ _ => [⟨span, false⟩]

/-- What a node contributes after its children: its closing tag. -/
def closing : Kind → List Piece
  | element _ closer => [⟨closer, false⟩]
  | block _ _ _ (some closer) => [⟨closer.span, false⟩]
  | _ => []

end Kind

namespace Node

variable {α : Type}

mutual

/-- The ranges that a tree was read from, along its children. -/
def pieces : Node α → List Piece
  | ⟨_, span, kind, _, _, _, children⟩ => kind.opening span ++ piecesOf children ++ kind.closing

def piecesOf : List (Node α) → List Piece
  | [] => []
  | n :: ns => n.pieces ++ piecesOf ns

end

end Node

def Token.piece (t : Token) : Piece :=
  ⟨t.span, t.isText⟩

theorem opening_of_leafKind? {t : Token} {kind : Kind} (h : t.leafKind? = some kind) (hitem : t.isAttribute = false) :
    kind.opening t.span = [t.piece] ∧ kind.closing = [] := by
  cases Token.isLeaf_of_leafKind? h with
  | attr => cases hitem
  | _ => exact ⟨rfl, rfl⟩

/-- What a phrase contributes before its tokens: the tag of a branch that is open already. -/
def Phrase.opening : Phrase → List Piece
  | sequence | item => []
  | branches name markup opener _ => (Kind.branch name markup opener).opening opener.span

theorem Node.piecesOf_branchOf {name : Option String} {markup : Markup} {opener : Delimiter}
    {children ns : List (Node Unit)} {next : Nat} :
    piecesOf (branchOf name markup opener children next :: ns) =
      (Kind.branch name markup opener).opening opener.span ++ piecesOf children ++ piecesOf ns := by
  cases name <;> simp [piecesOf, pieces, branchOf, Kind.opening, Kind.closing]

theorem Derives.pieces {phrase : Phrase} {ts : List Token} {ns : List (Node Unit)} (h : Derives phrase ts ns)
    (hitems : ∀ t ∈ ts, t.isAttribute = false) : Node.piecesOf ns = phrase.opening ++ ts.map Token.piece := by
  induction h with
  | nil => rfl
  | cons _ _ ih ih' =>
    obtain ⟨hfirst, hrest⟩ := List.forall_mem_append.1 hitems
    have hn := ih hfirst
    simp only [Node.piecesOf, List.append_nil, Phrase.opening, List.nil_append] at hn ih' ⊢
    rw [hn, ih' hrest, List.map_append]
  | leaf isLeaf =>
    obtain ⟨hopening, hclosing⟩ := opening_of_leafKind? isLeaf (hitems _ (List.mem_singleton_self _))
    simp [Node.piecesOf, Node.pieces, Phrase.opening, hopening, hclosing]
  | element _ _ _ _ _ _ _ ih _ =>
    have hbody := ih fun t ht => hitems t (by simp [ht])
    simp [Node.piecesOf, Node.pieces, Phrase.opening, Kind.opening, Kind.closing, Token.piece, Token.span, Token.isText,
      hbody]
  | block _ _ ih | branched _ _ ih =>
    have hbody := ih fun t ht => hitems t (by simp [ht])
    simp [Node.piecesOf, Node.pieces, Phrase.opening, Kind.opening, Kind.closing, Token.piece, Token.span, Token.isText,
      hbody]
  | lastBranch _ ih =>
    rw [Node.piecesOf_branchOf, ih hitems]
    simp [Node.piecesOf, Phrase.opening]
  | nextBranch _ _ _ ih ih' =>
    obtain ⟨hbody, hrest⟩ := List.forall_mem_append.1 hitems
    rw [Node.piecesOf_branchOf, ih hbody, ih' fun t ht => hrest t (List.mem_cons_of_mem _ ht)]
    simp [Phrase.opening, Kind.opening, Token.piece, Token.span, Token.isText]

theorem pieces_eq_tokens {source : String} {tokens : List Token} {d : Document Unit}
    (h : Token.ofSource source = .ok tokens) (hparse : Document.parse source .strict = .ok d)
    (hitems : ∀ t ∈ tokens, t.isAttribute = false) : d.root.pieces = tokens.map Token.piece := by
  obtain ⟨nodes, hderives, rfl⟩ := derives_of_parse h hparse
  have hnodes := hderives.pieces hitems
  simpa [Document.ofNodes, Node.pieces, Kind.opening, Kind.closing, Phrase.opening] using hnodes

/-- Ranges that hold all of a template but blanks. -/
structure Covers (source : String) (ps : List Piece) : Prop where
  nonempty : ∀ p ∈ ps, p.span.start < p.span.stop
  bounded : ∀ p ∈ ps, p.span.stop ≤ Text.byteSize source.toList
  /-- Each range ends before the next one starts. -/
  ordered : ps.Pairwise fun p q => p.span.stop ≤ q.span.start
  /-- A byte outside of all ranges is a space, tab, line feed, form feed or carriage return. -/
  blank : ∀ k < Text.byteSize source.toList, (∀ p ∈ ps, ¬ (p.span.start ≤ k ∧ k < p.span.stop)) →
    Text.blankAt source.toList k = true
  /-- Two texts never follow each other. -/
  apart : ps.IsChain fun p q => ¬ (p.isText = true ∧ q.isText = true)
  /-- No text starts or ends with a blank byte. -/
  tight : ∀ p ∈ ps, p.isText = true →
    Text.blankAt source.toList p.span.start = false ∧ Text.blankAt source.toList (p.span.stop - 1) = false

/-- **Reading a well nested template loses nothing**: the ranges its tree was read from hold all of it but blanks. -/
theorem pieces_of_parse {source : String} {d : Document Unit} (h : Document.parse source .strict = .ok d) :
    Covers source d.root.pieces := by
  obtain ⟨tokens, htokens⟩ := ofSource_of_parse h
  have htiles := Token.ofSource_tiles htokens
  rw [pieces_eq_tokens htokens h htiles.isAttribute_eq_false]
  have hinside := htiles.inside
  rw [Nat.zero_add] at hinside
  constructor
  case nonempty => exact List.forall_mem_map.2 fun t ht => (hinside.2 t ht).nonempty'
  case bounded => exact List.forall_mem_map.2 fun t ht => (hinside.1.bounds (List.mem_map_of_mem ht)).2.2
  case ordered => exact List.pairwise_map.2 (List.pairwise_map.1 hinside.1.pairwise)
  case blank =>
    intro k hk hout
    refine htiles.blankAt_of_uncovered hk fun t ht hcovers => hout t.piece (List.mem_map_of_mem ht) ?_
    rwa [Nat.zero_add] at hcovers
  case apart => exact (List.isChain_map Token.piece).2 htiles.isChain_text
  case tight => exact List.forall_mem_map.2 fun t ht htext => htiles.blankAt_text ht htext

/-- Front matter, an element around a branched tag, a drop and a text that ends in a wide character. -/
theorem covers_nested_template :
    ∃ d, Document.parse
        "---\nt\n---\n <p>\x7b% if a %\x7d x é \x7b% else %\x7d\x7b\x7b b \x7d\x7d\x7b% endif %\x7d</p>\n"
        .strict = .ok d ∧ d.root.pieces.length = 8 ∧
      Covers "---\nt\n---\n <p>\x7b% if a %\x7d x é \x7b% else %\x7d\x7b\x7b b \x7d\x7d\x7b% endif %\x7d</p>\n"
        d.root.pieces := by
  obtain ⟨d, hd, hlength⟩ := exists_eq_ok (P := fun d : Document Unit => d.root.pieces.length == 8)
    (x := Document.parse
      "---\nt\n---\n <p>\x7b% if a %\x7d x é \x7b% else %\x7d\x7b\x7b b \x7d\x7d\x7b% endif %\x7d</p>\n" .strict)
    (by decide +kernel)
  exact ⟨d, hd, by simpa using hlength, pieces_of_parse hd⟩

end LiquidTemplate
