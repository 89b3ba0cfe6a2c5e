import LiquidTemplate.Print.Gap
import LiquidTemplate.Proofs.Print.InlineMoved
import LiquidTemplate.Proofs.Print.Lineage
import LiquidTemplate.Proofs.Text.Spacing

/-!
# Sources that differ in their blanks

Printing never reads the blanks between two nodes as they are. It asks whether there are any, and whether they hold no
line feed, one or more (`Text.runClass`). A `Respacing` takes one source to another in which all answers are the same:
it says where the offsets of the nodes go, and what printing can observe there. Under it the gaps between nodes, and
the containers that are forced to break, stay what they are (`isForced_twins`).
-/

namespace LiquidTemplate

/-! ## Respacings -/

/-- Where the offsets of one source go in another one, such that what is between two of them keeps its class, and what
can be seen next to one of them is the same. -/
structure Respacing (a b : List Char) where
  move : Nat → Nat
  /-- The offsets of nodes. -/
  anchor : Nat → Prop
  /-- The offsets of nodes that are not at the two ends of the source. -/
  inner : Nat → Prop
  monotone : Monotone move
  anchor_of_inner : ∀ i, inner i → anchor i
  lt_iff : ∀ i j, anchor i → anchor j → (move i < move j ↔ i < j)
  between : ∀ i j, anchor i → anchor j →
    Text.SameClass (Text.sliceChars a ⟨i, j⟩) (Text.sliceChars b ⟨move i, move j⟩)
  blankAt : ∀ i, inner i → Text.blankAt b (move i) = Text.blankAt a i
  blankBefore : ∀ i, inner i →
    (decide (0 < move i) && Text.blankAt b (move i - 1)) = (decide (0 < i) && Text.blankAt a (i - 1))
  lineFeedBefore : ∀ i, inner i → lineFeedBefore b (move i) = lineFeedBefore a i
  lineFeedAfter : ∀ i, inner i → lineFeedAfter b (move i) = lineFeedAfter a i

namespace Node

variable {a b : List Char} {r : Respacing a b} {s : Sensitivity}

def bodyEnds (n : Node Unit) : List Nat :=
  match n.kind with
  | .element opener closer => [opener.stop, closer.start]
  | .block _ _ opener closer => opener.span.stop :: (closer.map (·.span.start)).toList
  | .branch _ _ opener => [opener.span.stop, n.span.stop]
  | _ => []

/-- A node whose offsets a respacing covers. Its body and its children are not at the ends of the source. -/
structure Steady (r : Respacing a b) (m : Node Unit) : Prop where
  ends : m.span.EndsIn r.anchor
  body : ∀ i ∈ m.bodyEnds, r.inner i
  inside : ∀ c ∈ m.children, c.span.EndsIn r.inner

/-- A node whose body is printed as it stands: an element such as `pre`, or a `capture` tag. -/
def keepsLayout {α : Type} (n : Node α) : Bool :=
  match n.kind with
  | .element _ _ => Text.lower n.spelledName ∈ ["pre", "listing", "xmp", "textarea", "plaintext"]
  | .tag name _ _ | .block name _ _ _ => name = "capture"
  | _ => false

theorem keepsLayout_eq {α : Type} (n : Node α) : n.keepsLayout =
    match n.kind with
    | .element _ _ | .tag _ _ _ | .block _ _ _ _ => n.whiteSpace.isPreLike
    | _ => false := by
  unfold keepsLayout whiteSpace
  cases n.kind with
  | element opener closer =>
    simp only [elementWhiteSpace]
    generalize Text.lower n.spelledName = name
    have hlists : name ∈ ["pre", "listing", "xmp", "textarea", "plaintext"] ↔
        name ∈ ["pre", "listing", "xmp"] ∨ name ∈ ["textarea", "plaintext"] :=
      List.mem_append (s := ["pre", "listing", "xmp"])
    by_cases hpre : name ∈ ["pre", "listing", "xmp"]
    · rw [if_pos hpre, decide_eq_true (hlists.2 (.inl hpre))]
      rfl
    · by_cases hwrap : name ∈ ["textarea", "plaintext"]
      · rw [if_neg hpre, if_pos hwrap, decide_eq_true (hlists.2 (.inr hwrap))]
        rfl
      · rw [if_neg hpre, if_neg hwrap, decide_eq_false fun h => (hlists.1 h).elim hpre hwrap]
        split <;> rfl
  | tag name markup opener => by_cases hname : name = "capture" <;> simp [hname, WhiteSpace.isPreLike]
  | block name markup opener closer => by_cases hname : name = "capture" <;> simp [hname, WhiteSpace.isPreLike]
  | _ => rfl

/-! ## Facts -/

section

variable {m : Node Unit} {n n' : Node Facts}

theorem hasDanglingIn_moved (h : m.Steady r) : (m.moved r.move).hasDanglingIn b = m.hasDanglingIn a := by
  have hbody := h.body
  obtain ⟨info, span, kind, name, attributes, value, children⟩ := m
  have hempty : (children.map (moved r.move)).isEmpty = children.isEmpty := List.isEmpty_map
  have hlt {i j : Nat} (hi : r.inner i) (hj : r.inner j) : decide (r.move i < r.move j) = decide (i < j) :=
    decide_eq_decide.2 (r.lt_iff i j (r.anchor_of_inner i hi) (r.anchor_of_inner j hj))
  rw [moved_mk]
  cases kind with
  | element opener closer =>
    have hopener : r.inner opener.stop := hbody _ (by simp [bodyEnds])
    have hcloser : r.inner closer.start := hbody _ (by simp [bodyEnds])
    simp only [hasDanglingIn, Kind.moved, Span.moved, hempty, hlt hopener hcloser, r.blankAt _ hopener]
  | block tagName markup opener closer =>
    cases closer with
    | none => simp only [hasDanglingIn, Kind.moved, Option.map_none, hempty]
    | some closer =>
      have hopener : r.inner opener.span.stop := hbody _ (by simp [bodyEnds])
      have hcloser : r.inner closer.span.start := hbody _ (by simp [bodyEnds])
      simp only [hasDanglingIn, Kind.moved, Option.map_some, Delimiter.moved, Span.moved, hempty, hlt hopener hcloser,
        r.blankAt _ hopener]
  | branch branchName markup opener =>
    have hstop : r.inner span.stop := hbody _ (by simp [bodyEnds])
    simp only [hasDanglingIn, Kind.moved, Span.moved, hempty, r.blankAt _ hstop]
  | _ => simp only [hasDanglingIn, Kind.moved, hempty]

theorem hasLeadingIn_moved (h : m.Steady r) (hspan : m.span.EndsIn r.inner) :
    (m.moved r.move).hasLeadingIn b = m.hasLeadingIn a := by
  have hbody := h.body
  obtain ⟨info, span, kind, name, attributes, value, children⟩ := m
  rw [moved_mk]
  cases kind with
  | branch branchName markup opener => exact r.blankAt _ (hbody _ (by simp [bodyEnds]))
  | _ => exact r.blankBefore _ hspan.1

theorem hasTrailingIn_moved (hspan : m.span.EndsIn r.inner) :
    (m.moved r.move).hasTrailingIn b = m.hasTrailingIn a := by
  simp only [hasTrailingIn, span_moved, Span.moved, r.blankAt _ hspan.2]

theorem Twins.hasDangling_eq (ht : Twins s r.move a b m n n') (h : m.Steady r) :
    n'.info.hasDangling = n.info.hasDangling := by
  rw [ht.annotates_moved.hasDangling, ht.annotates.hasDangling, hasDanglingIn_moved h]

/-- The facts of a node that does not stand at an end of the source are kept. -/
theorem Twins.info_inner (ht : Twins s r.move a b m n n') (h : m.Steady r) (hspan : m.span.EndsIn r.inner) :
    n'.info = n.info := by
  have hleading : n'.info.hasLeading = n.info.hasLeading := by
    rw [ht.annotates_moved.hasLeading, ht.annotates.hasLeading, hasLeadingIn_moved h hspan]
  have htrailing : n'.info.hasTrailing = n.info.hasTrailing := by
    rw [ht.annotates_moved.hasTrailing, ht.annotates.hasTrailing, hasTrailingIn_moved hspan]
  have hinfo := ht.info_eq
  rwa [hleading, htrailing, ht.hasDangling_eq h] at hinfo

end

/-! ## Gaps -/

theorem gap_twins {p m : Node Unit} {q q' n n' : Node Facts} (hq : Twins s r.move a b p q q')
    (hn : Twins s r.move a b m n n') (hp : p.span.EndsIn r.anchor) (hm : m.span.EndsIn r.anchor) (separates : Bool) :
    Gap.between b separates q' n' = Gap.between a separates q n := by
  have hclass : Text.SameClass (Text.sliceChars a ⟨q.span.stop, n.span.start⟩)
      (Text.sliceChars b ⟨q'.span.stop, n'.span.start⟩) := by
    rw [hq.span, hn.span, hq.span_moved, hn.span_moved]
    exact r.between _ _ hp.2 hm.1
  have hempty := hclass.isEmpty_eq
  have hfeeds := hclass.feeds_eq
  have hplain : Gap.plain b q' n' = Gap.plain a q n := by
    unfold Gap.plain
    simp only [← hempty, hq.display_eq, hn.display_eq, hq.trailingMatters_eq, hn.leadingMatters_eq]
    generalize Text.countLineFeeds (Text.sliceChars a ⟨q.span.stop, n.span.start⟩) = i at hfeeds ⊢
    generalize Text.countLineFeeds (Text.sliceChars b ⟨q'.span.stop, n'.span.start⟩) = j at hfeeds ⊢
    have hmany : (1 < j) = (1 < i) := propext ⟨fun _ => by omega, fun _ => by omega⟩
    have hone : decide (j = 1) = decide (i = 1) := decide_eq_decide.2 ⟨fun _ => by omega, fun _ => by omega⟩
    simp only [hmany, hone]
  simp only [Gap.between, hplain]

theorem anyHardGap_twins {ms : List (Node Unit)} {ns ns' : List (Node Facts)} (h : AllTwins s r.move a b ms ns ns')
    (hms : ∀ m ∈ ms, m.span.EndsIn r.anchor) (separates : Bool) :
    anyHardGap b separates ns' = anyHardGap a separates ns := by
  induction h with
  | nil => rfl
  | cons first rest ih =>
    obtain ⟨hfirst, hms⟩ := List.forall_mem_cons.1 hms
    cases rest with
    | nil => rfl
    | cons second _ =>
      rw [anyHardGap, anyHardGap, ih hms, gap_twins first second hfirst (hms _ List.mem_cons_self)]

theorem keepsOwnLine_twins {ms : List (Node Unit)} {ns ns' : List (Node Facts)} (h : AllTwins s r.move a b ms ns ns')
    (hms : ∀ m ∈ ms, m.span.EndsIn r.inner) : keepsOwnLine b ns' = keepsOwnLine a ns := by
  cases h with
  | nil => rfl
  | cons first rest =>
    cases rest with
    | nil =>
      have hspan := hms _ List.mem_cons_self
      simp only [keepsOwnLine, first.isText_eq, first.span, first.span_moved, Span.moved, r.lineFeedBefore _ hspan.1,
        r.lineFeedAfter _ hspan.2, first.trailingMatters_eq]
    | cons => rfl

/-! ## Forced containers -/

section

variable {m : Node Unit} {n n' : Node Facts}

theorem Twins.separatesChildren_eq (h : Twins s r.move a b m n n') : n'.separatesChildren = n.separatesChildren := by
  rw [separatesChildren, separatesChildren, h.kind, h.kind_moved, h.spelledName_eq, h.display_eq]
  cases m.kind <;> rfl

theorem Twins.isPageBody_eq (h : Twins s r.move a b m n n') : n'.isPageBody = n.isPageBody := by
  rw [isPageBody, isPageBody, h.kind, h.kind_moved, h.spelledName_eq]
  cases m.kind <;> rfl

theorem Twins.isBranched_eq (h : Twins s r.move a b m n n') : n'.isBranched = n.isBranched := by
  rw [isBranched, isBranched, h.kind, h.kind_moved]
  cases m.kind <;> rfl

theorem AllTwins.length_eq {ms : List (Node Unit)} {ns ns' : List (Node Facts)} (h : AllTwins s r.move a b ms ns ns') :
    ns'.length = ns.length := by
  induction h with
  | nil => rfl
  | cons _ _ ih => rw [List.length_cons, List.length_cons, ih]

theorem AllTwins.isEmpty_eq {ms : List (Node Unit)} {ns ns' : List (Node Facts)} (h : AllTwins s r.move a b ms ns ns') :
    ns'.isEmpty = ns.isEmpty := by
  cases h <;> rfl

theorem Twins.isDividedCase_eq (h : Twins s r.move a b m n n') : n'.isDividedCase = n.isDividedCase := by
  rw [isDividedCase, isDividedCase, h.kind, h.kind_moved, h.children.length_eq]
  cases m.kind <;> rfl

theorem breaksIf_twins (h : Twins s r.move a b m n n') (hlayout : m.keepsLayout = false) (forced : Bool) :
    n'.breaksIf b forced = n.breaksIf a forced := by
  have hkeeps : n.info.keepsLayout = m.whiteSpace.isPreLike := h.annotates.keepsLayout
  rw [breaksIf, breaksIf, h.kind, h.kind_moved, h.keepsLayout_eq, hkeeps]
  cases hkind : m.kind with
  | element opener closer =>
    have hspace : m.whiteSpace.isPreLike = false := by simpa only [keepsLayout_eq, hkind] using hlayout
    simp only [Kind.moved, hspace, Bool.false_eq_true, if_false]
  | tag name markup opener =>
    have hspace : m.whiteSpace.isPreLike = false := by simpa only [keepsLayout_eq, hkind] using hlayout
    cases markup <;> simp only [Kind.moved, hspace, Bool.false_and]
  | block name markup opener closer =>
    have hspace : m.whiteSpace.isPreLike = false := by simpa only [keepsLayout_eq, hkind] using hlayout
    cases markup <;> simp only [Kind.moved, hspace, Bool.false_eq_true, if_false]
  | drop written markup d => cases markup <;> rfl
  | _ => rfl

end

theorem isForced_eq (source : List Char) (n : Node Facts) : n.isForced source =
    if n.isBranched then n.isDividedCase || anyForced source n.children
    else if n.isPageBody then !n.children.isEmpty
    else
      (n.separatesChildren && !n.children.isEmpty) || anyHardGap source n.separatesChildren n.children ||
        anyBreaks source n.children || keepsOwnLine source n.children := by
  cases n
  rw [isForced]

/-- What is known of the nodes that are reached through children. -/
structure Calm (r : Respacing a b) (m : Node Unit) : Prop where
  steady : m.Steady r
  layout : m.keepsLayout = false

/-- **The containers that are forced to break stay the same.** -/
theorem isForced_twins {m : Node Unit} (hm : m.Through (Calm r)) {n n' : Node Facts} (h : Twins s r.move a b m n n') :
    n'.isForced b = n.isForced a := by
  induction hm generalizing n n' with
  | @mk m own below ih =>
    -- each child breaks or is forced as before, so some child is
    have hforced : ∀ {ms ns ns'}, AllTwins s r.move a b ms ns ns' → (∀ c ∈ ms, c ∈ m.children) →
        anyForced b ns' = anyForced a ns ∧ anyBreaks b ns' = anyBreaks a ns := by
      intro ms ns ns' hns hms
      induction hns with
      | nil => exact ⟨rfl, rfl⟩
      | cons first _ ihs =>
        obtain ⟨hc, hms⟩ := List.forall_mem_cons.1 hms
        obtain ⟨hrest, hrest'⟩ := ihs hms
        have hfirst := ih _ hc first
        have hbreaks := breaksIf_twins first (below _ hc).own.layout
        exact ⟨by rw [anyForced, anyForced, hfirst, hrest], by rw [anyBreaks, anyBreaks, hfirst, hrest', hbreaks]⟩
    obtain ⟨hanyForced, hanyBreaks⟩ := hforced h.children fun _ hc => hc
    have hinner := own.steady.inside
    have hanchor : ∀ c ∈ m.children, c.span.EndsIn r.anchor := fun c hc =>
      ⟨r.anchor_of_inner _ (hinner c hc).1, r.anchor_of_inner _ (hinner c hc).2⟩
    simp only [isForced_eq, h.isBranched_eq, h.isDividedCase_eq, h.isPageBody_eq, h.separatesChildren_eq,
      h.children.isEmpty_eq, hanyForced, hanyBreaks, anyHardGap_twins h.children hanchor,
      keepsOwnLine_twins h.children hinner]

end Node

end LiquidTemplate
