import LiquidTemplate.Print.Gap
import LiquidTemplate.Proofs.Whitespace.Gaps

/-!
# White space between inline nodes

Two inline siblings without trim markers or a forced line break between them keep the white space that they had. Both
find that white space between them matters (`matters_of_inline`), each on its own side, so that the gap between them is
closed exactly if the source has nothing there. The main statement is `inline_gap`.
-/

namespace LiquidTemplate

namespace Node

/-- A node that is shown as part of a line: neither a block nor hidden, nor code of another language. -/
structure IsInline (n : Node Facts) : Prop where
  flows : n.info.display.isBlockLike = false
  shown : n.info.display ≠ .hidden
  plain : n.isScriptLike = false

instance (n : Node Facts) : Decidable n.IsInline :=
  decidable_of_iff (n.info.display.isBlockLike = false ∧ n.info.display ≠ .hidden ∧ n.isScriptLike = false)
    ⟨fun h => ⟨h.1, h.2.1, h.2.2⟩, fun h => ⟨h.flows, h.shown, h.plain⟩⟩

/-! ## What siblings know of each other -/

theorem exists_of_adjacent {source : List Char} {e : Enclosure} {ds : List (Node Display)}
    {prev : Option (Node Display)}
    {i : Nat} {p c : Node Facts} (hp : (withAllFacts source e prev ds)[i]? = some p)
    (hc : (withAllFacts source e prev ds)[i + 1]? = some c) :
    ∃ p' c' before after, p = withFacts source (some e) before (some c') p' ∧
      c = withFacts source (some e) (some p') after c' := by
  induction ds generalizing prev i with
  | nil => cases hp
  | cons n ns ih =>
    cases i with
    | succ i => exact ih hp hc
    | zero =>
      cases ns with
      | nil => cases hc
      | cons n' ns =>
        simp only [withAllFacts, List.getElem?_cons_zero, List.getElem?_cons_succ, Option.some.injEq] at hp hc
        exact ⟨n, n', prev, ns.head?, hp.symm, hc.symm⟩

theorem Annotates.adjacent {s : Sensitivity} {source : List Char} {m : Node Unit} {n p c : Node Facts} {i : Nat}
    (h : m.Annotates s source n) (hp : n.children[i]? = some p) (hc : n.children[i + 1]? = some c) :
    ∃ e p' c' before after, p = withFacts source (some e) before (some c') p' ∧
      c = withFacts source (some e) (some p') after c' := by
  obtain ⟨before, around, prev, next, rfl⟩ := h
  cases m
  exact ⟨_, exists_of_adjacent hp hc⟩

/-- White space next to a node matters if the node and its neighbour are shown in a line and no trim marker is there. -/
theorem sideMatters_of_inline {n m : Node Display} (hflows : n.info.isBlockLike = false) (hshown : n.info ≠ .hidden)
    (hplain : n.isScriptLike = false) (hflows' : m.info.isBlockLike = false) (hshown' : m.info ≠ .hidden)
    (e : Enclosure) (inside : Bool) : sideMatters (some e) (some m) false inside n = true := by
  have hopen : isOpenTo m = true := by simp [isOpenTo, hflows', hshown']
  simp only [sideMatters, hflows, hshown, hplain, hopen, decide_false, Bool.or_self, Option.isNone_some, Bool.false_and]
  cases e.keepsLayout <;> rfl

/-- **Both inline siblings find that white space between them matters**, if no trim marker is there. -/
theorem matters_of_inline {s : Sensitivity} {source : List Char} {m : Node Unit} {n p c : Node Facts} {i : Nat}
    (h : m.Annotates s source n) (hp : n.children[i]? = some p) (hc : n.children[i + 1]? = some c)
    (hinline : p.IsInline) (hinline' : c.IsInline) (hbreak : p.isLineBreak = false) (htrim : p.trimsAfter = false)
    (htrim' : c.trimsBefore = false) : p.info.trailingMatters = true ∧ c.info.leadingMatters = true := by
  obtain ⟨e, p', c', before, after, rfl, rfl⟩ := h.adjacent hp hc
  obtain ⟨hflows, hshown, hplain⟩ := hinline
  obtain ⟨hflows', hshown', hplain'⟩ := hinline'
  rw [info_withFacts] at hflows hshown hflows' hshown' ⊢
  rw [info_withFacts]
  have hplain : p'.isScriptLike = false := by simpa [isScriptLike] using hplain
  have hplain' : c'.isScriptLike = false := by simpa [isScriptLike] using hplain'
  have hbreak : p'.isLineBreak = false := by simpa [isLineBreak] using hbreak
  have htrim : p'.trimsAfter = false := by simpa [trimsAfter] using htrim
  have htrim' : c'.trimsBefore = false := by simpa [trimsBefore] using htrim'
  constructor
  · rw [factsOf, trailingMatters, hbreak, Option.any_some, htrim, htrim', Bool.not_false, Bool.true_and, Bool.or_self]
    rw [sideMatters_of_inline hflows hshown hplain hflows' hshown']
  · rw [factsOf, leadingMatters, Option.any_some, htrim, htrim', Bool.or_self]
    rw [sideMatters_of_inline hflows' hshown' hplain' hflows hshown]

end Node

/-! ## The gap -/

theorem Gap.between_of_matters (source : List Char) {p c : Node Facts} (separates : Bool)
    (hflows : p.info.display.isBlockLike = false) (hflows' : c.info.display.isBlockLike = false)
    (hmatters : p.info.trailingMatters = true) (hmatters' : c.info.leadingMatters = true) :
    (Text.sliceChars source ⟨p.span.stop, c.span.start⟩ = [] → between source separates p c = .glue) ∧
      (Text.sliceChars source ⟨p.span.stop, c.span.start⟩ ≠ [] →
        between source separates p c = .space ∨ between source separates p c = .hard ∨
          between source separates p c = .blank) := by
  constructor
  · intro hnil
    have hplain : plain source p c = .glue := by
      simp [plain, hnil, Text.countLineFeeds, hflows, hflows', hmatters, hmatters']
    rw [between, hplain]
  · intro hsome
    have hplain : plain source p c = .space ∨ plain source p c = .hard ∨ plain source p c = .blank := by
      unfold plain
      by_cases hmany : 1 < Text.countLineFeeds (Text.sliceChars source ⟨p.span.stop, c.span.start⟩)
      · exact .inr (.inr (if_pos hmany))
      · by_cases hone : Text.countLineFeeds (Text.sliceChars source ⟨p.span.stop, c.span.start⟩) = 1
        · exact .inr (.inl (by simp [hone]))
        · exact .inl (by simp [hmany, hone, hflows, hflows', hsome])
    rcases hplain with hplain | hplain | hplain
    · rw [between, hplain]
      cases separates
      · exact .inl rfl
      · exact .inr (.inl rfl)
    · rw [between, hplain]
      exact .inr (.inl rfl)
    · rw [between, hplain]
      exact .inr (.inr rfl)

/-- **Inline siblings keep exactly the white space that they had.** All that the source has between them is blank. If
there is nothing, they are glued, and otherwise there is a space or a line break between them, whatever they stand in
and however sensitive the format is to white space. -/
theorem inline_gap {source : String} {d : Document Unit} (h : Document.parse source .strict = .ok d) (s : Sensitivity)
    {n p c : Node Facts} {i : Nat} (hn : (d.annotate s).root.Reaches n) (hp : n.children[i]? = some p)
    (hc : n.children[i + 1]? = some c) (hbranch : p.kind.isBranch = false ∧ c.kind.isBranch = false)
    (hinline : p.IsInline ∧ c.IsInline) (hbreak : p.isLineBreak = false)
    (htrims : p.trimsAfter = false ∧ c.trimsBefore = false) :
    let between := Text.sliceChars source.toList ⟨p.span.stop, c.span.start⟩
    let gap := Gap.between source.toList n.separatesChildren p c
    (between.all Text.isBlank = true ∧ (between = [] ↔ p.span.stop = c.span.start)) ∧ (gap = .glue ↔ between = []) ∧
      (between ≠ [] → gap = .space ∨ gap = .hard ∨ gap = .blank) := by
  intro between gap
  have hroot := d.annotates_root s
  rw [source_of_parse h] at hroot
  have hfurnished := Document.furnished_gaps h
  obtain ⟨hgap, -⟩ := related_of_adjacent hfurnished hroot hn hp hc hbranch.1
  obtain ⟨m, hm, -⟩ := furnished_of_reaches hfurnished hroot hn
  obtain ⟨hmatters, hmatters'⟩ :=
    Node.matters_of_inline hm hp hc hinline.1 hinline.2 hbreak htrims.1 htrims.2
  obtain ⟨hglue, hother⟩ := Gap.between_of_matters source.toList n.separatesChildren hinline.1.flows
    hinline.2.flows hmatters hmatters'
  obtain ⟨hblank, hempty⟩ := hgap.sliceChars_eq
  refine ⟨⟨hblank, ?_⟩, ⟨fun hgap => ?_, hglue⟩, hother⟩
  · have hle := hgap.le
    rw [hempty]
    omega
  · by_contra hsome
    rcases hother hsome with hgap' | hgap' | hgap' <;> simp [gap, hgap'] at hgap

/-- The children of a node are two inline nodes that touch, and the node separates its children. -/
def Node.holdsTouchingPair (n : Node Facts) : Bool :=
  match n.children with
  | [p, c] =>
    n.separatesChildren && !p.kind.isBranch && !c.kind.isBranch && decide p.IsInline && decide c.IsInline &&
      !p.isLineBreak && !p.trimsAfter && !c.trimsBefore && p.span.stop == c.span.start
  | _ => false

/-- A drop and an element in a list, which would separate them if the source did. -/
theorem glued_in_list :
    ∃ d, Document.parse "<ul>\x7b\x7b a \x7d\x7d<b>c</b></ul>" .strict = .ok d ∧
      ∃ n ∈ (d.annotate .strict).root.children, n.separatesChildren = true ∧ ∃ p c, n.children = [p, c] ∧
        (p.IsInline ∧ c.IsInline) ∧
          Gap.between "<ul>\x7b\x7b a \x7d\x7d<b>c</b></ul>".toList n.separatesChildren p c = .glue := by
  obtain ⟨d, hd, hpair⟩ := exists_eq_ok
    (P := fun d : Document Unit => (d.annotate .strict).root.children.any Node.holdsTouchingPair)
    (x := Document.parse "<ul>\x7b\x7b a \x7d\x7d<b>c</b></ul>" .strict) (by decide +kernel)
  obtain ⟨n, hn, hpair⟩ := List.any_eq_true.1 hpair
  unfold Node.holdsTouchingPair at hpair
  split at hpair
  next p c hchildren =>
    simp only [Bool.and_eq_true, Bool.not_eq_true', decide_eq_true_eq, beq_iff_eq] at hpair
    obtain ⟨⟨⟨⟨⟨⟨⟨⟨hseparates, hbranch⟩, hbranch'⟩, hinline⟩, hinline'⟩, hbreak⟩, htrim⟩, htrim'⟩, hstop⟩ := hpair
    have hgap := inline_gap hd .strict (i := 0) (Node.Reaches.self.child hn) (by rw [hchildren]; rfl)
      (by rw [hchildren]; rfl) ⟨hbranch, hbranch'⟩ ⟨hinline, hinline'⟩ hbreak ⟨htrim, htrim'⟩
    exact ⟨d, hd, n, hn, hseparates, p, c, hchildren, ⟨hinline, hinline'⟩, hgap.2.1.2 (hgap.1.2.2 hstop)⟩
  next => cases hpair

end LiquidTemplate
