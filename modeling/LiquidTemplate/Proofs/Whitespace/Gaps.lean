import LiquidTemplate.Proofs.Grammar.Edges
import LiquidTemplate.Proofs.Nesting.Rooms
import LiquidTemplate.Proofs.Whitespace.Twins

/-!
# Facts about white space and the gaps of the source

The facts about a node look at one byte next to it. They tell what is in the whole gap between the node and what stands
next to it, because a template consists of words with blanks between them (`Text.IsGap`), one word for each token. The
main statement, `facts_tell_gaps`, is about all nodes of a well nested template that are reached through children.
-/

namespace LiquidTemplate

/-! ## Gaps of a text -/

namespace Text

/-- From one offset to another one there are blanks only, with no further blanks on their two sides. -/
def IsGap (source : List Char) (a b : Nat) : Prop :=
  ∃ u v w, source = u ++ (v ++ w) ∧ a = byteSize u ∧ b = byteSize u + byteSize v ∧ v.all isBlank = true ∧
    u.getLast?.any isBlank = false ∧ w.head?.any isBlank = false

theorem blankAt_zero (cs : List Char) : blankAt cs 0 = cs.head?.any isBlank := by
  cases cs <;> simp [blankAt, charAt?, dropBytes?]

namespace IsGap

variable {source : List Char} {a b : Nat}

theorem le (h : IsGap source a b) : a ≤ b := by
  obtain ⟨u, v, w, -, rfl, rfl, -⟩ := h
  exact Nat.le_add_right _ _

theorem sliceChars_eq (h : IsGap source a b) :
    (sliceChars source ⟨a, b⟩).all isBlank = true ∧ (sliceChars source ⟨a, b⟩ = [] ↔ ¬ a < b) := by
  obtain ⟨u, v, w, rfl, rfl, rfl, hv, -, -⟩ := h
  have hslice : sliceChars (u ++ (v ++ w)) ⟨byteSize u, byteSize u + byteSize v⟩ = v := by
    rw [sliceChars, slice?_append, Option.getD_some]
  rw [hslice]
  refine ⟨hv, ?_⟩
  rw [← List.isEmpty_iff, ← byteSize_eq_zero_iff]
  omega

theorem blankAt_start (h : IsGap source a b) : blankAt source a = decide (a < b) := by
  obtain ⟨u, v, w, rfl, rfl, rfl, hv, -, hw⟩ := h
  have hshift := blankAt_append_add u (v ++ w) 0
  rw [Nat.add_zero] at hshift
  rw [hshift]
  cases v with
  | nil => rw [List.nil_append, blankAt_zero, hw, byteSize, Nat.add_zero, decide_eq_false (Nat.lt_irrefl _)]
  | cons c v =>
    obtain ⟨n, hn⟩ := exists_byteSize_cons c v
    rw [blankAt_of_all_isBlank hv w (by omega), decide_eq_true (by omega)]

theorem blankAt_before (h : IsGap source a b) : (decide (0 < b) && blankAt source (b - 1)) = decide (a < b) := by
  obtain ⟨u, v, w, rfl, rfl, rfl, hv, hu, -⟩ := h
  cases v with
  | cons c v =>
    obtain ⟨n, hn⟩ := exists_byteSize_cons c v
    have hblank : blankAt (u ++ (c :: v ++ w)) (byteSize u + n) = true := by
      rw [blankAt_append_add, blankAt_of_all_isBlank hv w (by omega)]
    rw [hn, show byteSize u + (n + 1) - 1 = byteSize u + n by omega, hblank, decide_eq_true (by omega),
      decide_eq_true (by omega), Bool.and_true]
  | nil =>
    rw [byteSize, Nat.add_zero, decide_eq_false (Nat.lt_irrefl _), List.nil_append]
    rcases List.eq_nil_or_concat' u with rfl | ⟨init, x, rfl⟩
    · rfl
    · have hx : isBlank x = false := by simpa using hu
      have hpos := Char.utf8Size_pos x
      have hlast : byteSize (init ++ [x]) - 1 = byteSize init + (x.utf8Size - 1) := by
        rw [byteSize_append, byteSize, byteSize]
        omega
      rw [hlast, List.append_assoc, List.singleton_append, blankAt_append_add, blankAt_last hx, Bool.and_false]

end IsGap

end Text

theorem Tiles.strung {source : List Char} {offset : Nat} {chars : List Char} {ts : List Token} {before : List Char}
    (h : Tiles offset chars [] ts) (hsource : source = before ++ chars) (hoffset : offset = Text.byteSize before)
    (hbefore : before.getLast?.any Text.isBlank = false)
    (hwords : ∀ t ∈ ts, Text.IsWord (Text.sliceChars source t.span)) :
    Strung (Text.IsGap source) offset (ts.map Token.span) (Text.byteSize source) := by
  generalize htail : ([] : List Char) = tail at h
  induction h generalizing before with
  | @nil offset gap tail blank =>
    subst htail hsource hoffset
    exact ⟨before, gap, [], rfl, rfl, by simp, blank, hbefore, rfl⟩
  | @cons offset start gap w rest tail t ts blank starts place _ _ _ ih =>
    subst hoffset
    obtain ⟨hword, hwords⟩ := List.forall_mem_cons.1 hwords
    have hspan : t.span = ⟨Text.byteSize (before ++ gap), Text.byteSize (before ++ gap) + Text.byteSize w⟩ := by
      rw [place.1, starts, Text.byteSize_append]
    have hw : Text.sliceChars source t.span = w := by
      rw [hsource, hspan, ← List.append_assoc, Text.sliceChars, Text.slice?_append, Option.getD_some]
    rw [hw] at hword
    obtain ⟨x, v, hfirst, hx⟩ := hword.first
    obtain ⟨v', y, hlast, hy⟩ := hword.last
    refine ⟨⟨before, gap, w ++ rest, hsource, rfl, ?_, blank, hbefore, ?_⟩, ?_, ?_⟩
    · rw [hspan, Text.byteSize_append]
    · rw [hfirst]
      exact hx
    · rw [hspan]
      exact Nat.le_add_right _ _
    · have hstop : t.span.stop = start + Text.byteSize w := by rw [place.1]
      rw [hstop]
      refine @ih (before ++ (gap ++ w)) ?_ ?_ ?_ hwords htail
      · rw [hsource, List.append_assoc, List.append_assoc]
      · rw [starts, Text.byteSize_append, Text.byteSize_append, Nat.add_assoc]
      · rw [hlast, ← List.append_assoc, ← List.append_assoc, List.getLast?_concat]
        exact hy

/-- **The rooms of a well nested template have gaps** between what stands in them. -/
theorem Document.furnished_gaps {source : String} {d : Document Unit} (h : Document.parse source .strict = .ok d) :
    d.root.Furnished (Text.IsGap source.toList) := by
  obtain ⟨tokens, htokens⟩ := ofSource_of_parse h
  have hstrung := @Tiles.strung _ _ _ _ [] (Token.ofSource_tiles htokens) rfl rfl rfl (isWord_of_ofSource htokens)
  exact furnished_of_parse (fun _ _ hgap => hgap.le) htokens h hstrung

/-! ## Rooms of annotated nodes -/

namespace Node

variable {s : Sensitivity} {source : List Char} {R : Nat → Nat → Prop} {m : Node Unit} {n : Node Facts}

namespace Annotates

theorem hasDangling_eq (h : m.Annotates s source n) : n.info.hasDangling = n.hasDanglingIn source := by
  have hnil : n.children.isEmpty = m.children.isEmpty := by
    rw [Bool.eq_iff_iff, List.isEmpty_iff_length_eq_zero, List.isEmpty_iff_length_eq_zero, h.children.length_eq]
  rw [h.hasDangling, hasDanglingIn, hasDanglingIn, h.kind, h.span, hnil]

theorem map_span {ms : List (Node Unit)} {ns : List (Node Facts)} (h : List.Forall₂ (Annotates s source) ms ns) :
    ns.map Node.span = ms.map Node.span := by
  induction h with
  | nil => rfl
  | cons first _ ih => rw [List.map_cons, List.map_cons, first.span, ih]

theorem branchOpener_eq (h : m.Annotates s source n) : n.branchOpener = m.branchOpener := by
  rw [branchOpener, branchOpener, h.kind, h.span]

theorem exists_of_mem_branchRooms {stop : Nat} {ms : List (Node Unit)} {ns : List (Node Facts)}
    (h : List.Forall₂ (Annotates s source) ms ns) :
    ∀ q ∈ branchRooms stop ns, ∃ r ∈ branchRooms stop ms, r.holder.Annotates s source q.holder ∧ q.span = r.span := by
  induction h with
  | nil => simp [branchRooms]
  | @cons b c bs cs first rest ih =>
    have hnext : cs.head?.map (fun next => next.branchOpener.start) =
        bs.head?.map fun next => next.branchOpener.start := by
      cases rest with
      | nil => rfl
      | cons second _ => simp only [List.head?_cons, Option.map_some, second.branchOpener_eq]
    refine List.forall_mem_cons.2 ⟨⟨_, List.mem_cons_self, first, ?_⟩, fun q hq => ?_⟩
    · simp only [hnext, first.branchOpener_eq]
    · obtain ⟨r, hr, hrooms⟩ := ih q hq
      exact ⟨r, List.mem_cons_of_mem _ hr, hrooms⟩

theorem exists_room (h : m.Annotates s source n) {q : Room Facts} (hq : q ∈ n.rooms) :
    ∃ r ∈ m.rooms, r.holder.Annotates s source q.holder ∧ q.span = r.span := by
  unfold rooms at hq ⊢
  rw [h.kind, h.span] at hq
  split at hq
  next span hroom =>
    obtain rfl := List.mem_singleton.1 hq
    exact ⟨_, List.mem_singleton_self _, h, rfl⟩
  next stop hroom hstop => exact exists_of_mem_branchRooms h.children q hq
  next => cases hq

end Annotates

end Node

theorem Room.Filled.annotated {s : Sensitivity} {source : List Char} {R : Nat → Nat → Prop} {r : Room Unit}
    {q : Room Facts} (hfilled : r.Filled R) (hannotates : r.holder.Annotates s source q.holder)
    (hspan : q.span = r.span) : q.Filled R where
  delimited := by
    have hdelimited := hfilled.delimited
    have hnil : q.holder.children = [] ↔ r.holder.children = [] := by
      rw [← List.length_eq_zero_iff, ← List.length_eq_zero_iff, hannotates.children.length_eq]
    unfold Delimited at hdelimited ⊢
    rw [hannotates.kind, hannotates.span, hspan, hnil]
    exact hdelimited
  strung := by
    rw [Node.Annotates.map_span hannotates.children, hspan]
    exact hfilled.strung
  undivided c hc := by
    obtain ⟨m, hm, hmc⟩ := Node.Annotates.exists_of_mem hannotates.children hc
    rw [hmc.kind]
    exact hfilled.undivided m hm

/-! ## Nodes that are reached -/

section

open Node

variable {s : Sensitivity} {source : List Char} {R : Nat → Nat → Prop} {bare : Node Unit} {root n : Node Facts}

/-- A node that is reached had all its rooms filled before it was annotated, or it is a branch and holds a room. -/
theorem furnished_of_reaches (hfurnished : bare.Furnished R) (hroot : bare.Annotates s source root)
    (h : root.Reaches n) :
    ∃ m : Node Unit, m.Annotates s source n ∧
      (m.Furnished R ∨ (n.kind.isBranch = true ∧ ∃ p q, root.Reaches p ∧ q ∈ p.rooms ∧ q.holder = n) ∧
        ∀ c ∈ m.children, c.Furnished R) := by
  induction h with
  | self => exact ⟨bare, hroot, .inl hfurnished⟩
  | @child p c parent mem ih =>
    obtain ⟨m, hm, hcases⟩ := ih
    obtain ⟨k, hk, hkc⟩ := Annotates.exists_of_mem hm.children mem
    refine ⟨k, hkc, ?_⟩
    rcases hcases with ⟨hown, -, hinside⟩ | ⟨-, hchildren⟩
    · rcases hown with ⟨hnil, -⟩ | ⟨span, hroom⟩ | ⟨-, stop, hstop, hbranches⟩
      · rw [hnil] at hk
        cases hk
      · rw [rooms_of_room? hroom, List.forall_mem_singleton] at hinside
        exact .inl (hinside k hk)
      · -- a branch, which holds a room of its tag before and after
        have hbranch : c.kind.isBranch = true := by
          rw [hkc.kind]
          exact hbranches k hk
        obtain ⟨r, hr, rfl⟩ := exists_branchRoom stop hk
        obtain ⟨q, hq, hholder⟩ := exists_branchRoom stop mem
        rw [← rooms_of_branchStop? hstop] at hr
        rw [← rooms_of_branchStop? (by rw [hm.kind, hstop])] at hq
        exact .inr ⟨⟨hbranch, p, q, parent, hq, hholder⟩, hinside r hr⟩
    · exact .inl (hchildren k hk)

theorem filled_of_reaches (hfurnished : bare.Furnished R) (hroot : bare.Annotates s source root) (h : root.Reaches n)
    {q : Room Facts} (hq : q ∈ n.rooms) : q.Filled R ∧ ∃ m : Node Unit, m.Annotates s source q.holder := by
  obtain ⟨m, hm, hcases⟩ := furnished_of_reaches hfurnished hroot h
  obtain ⟨r, hr, hannotates, hspan⟩ := hm.exists_room hq
  refine ⟨?_, r.holder, hannotates⟩
  rcases hcases with ⟨-, hfilled, -⟩ | ⟨⟨hbranch, -⟩, -⟩
  · exact (hfilled r hr).annotated hannotates hspan
  · -- a branch has no rooms of its own
    rw [rooms_of_isBranch hbranch] at hq
    cases hq

/-- A node that is reached has no children, or it holds a room, or its children are branches. -/
theorem cases_of_reaches (hfurnished : bare.Furnished R) (hroot : bare.Annotates s source root) (h : root.Reaches n) :
    (n.children = [] ∧ n.kind.hasRoom = false) ∨ (∃ p, root.Reaches p ∧ ∃ q ∈ p.rooms, q.holder = n) ∨
      (n.kind.hasRoom = false ∧ ∀ b ∈ n.children, b.kind.isBranch = true) := by
  obtain ⟨m, hm, hcases⟩ := furnished_of_reaches hfurnished hroot h
  rcases hcases with ⟨hown, -, -⟩ | ⟨⟨-, p, q, hp, hq, hholder⟩, -⟩
  · rw [HasOwnRooms, ← hm.kind, ← hm.span] at hown
    rcases hown with ⟨hnil, hroom⟩ | ⟨span, hroom⟩ | ⟨hroom, stop, -, hbranches⟩
    · have hchildren := hm.children
      rw [hnil, List.forall₂_nil_left_iff] at hchildren
      exact .inl ⟨hchildren, hroom⟩
    · exact .inr (.inl ⟨n, h, ⟨n, span⟩, by rw [rooms_of_room? hroom]; exact List.mem_singleton_self _, rfl⟩)
    · refine .inr (.inr ⟨hroom, fun b hb => ?_⟩)
      obtain ⟨k, hk, hkb⟩ := Annotates.exists_of_mem hm.children hb
      rw [hkb.kind]
      exact hbranches k hk
  · exact .inr (.inl ⟨p, hp, q, hq, hholder⟩)

theorem related_of_adjacent (hfurnished : bare.Furnished R) (hroot : bare.Annotates s source root) (h : root.Reaches n)
    {i : Nat} {p c : Node Facts} (hp : n.children[i]? = some p) (hc : n.children[i + 1]? = some c)
    (hbranch : p.kind.isBranch = false) : R p.span.stop c.span.start ∧ c.kind.isBranch = false := by
  have hmem := List.mem_of_getElem? hp
  rcases cases_of_reaches hfurnished hroot h with ⟨hnil, -⟩ | ⟨m, hm, q, hq, rfl⟩ | ⟨-, hbranches⟩
  · rw [hnil] at hmem
    cases hmem
  · obtain ⟨hfilled, -⟩ := filled_of_reaches hfurnished hroot hm hq
    refine ⟨hfilled.strung.adjacent (i := i) ?_ ?_, hfilled.undivided c (List.mem_of_getElem? hc)⟩
    · rw [List.getElem?_map, hp, Option.map_some]
    · rw [List.getElem?_map, hc, Option.map_some]
  · rw [hbranches p hmem] at hbranch
    cases hbranch

end

/-! ## What the facts tell -/

/-- The facts about the nodes at the ends of a room, or about its holder, tell the gaps there. -/
structure Room.TellsGaps (r : Room Facts) : Prop where
  first : ∀ c, r.holder.children.head? = some c → c.info.hasLeading = decide (r.span.start < c.span.start)
  last : ∀ c, r.holder.children.getLast? = some c → c.info.hasTrailing = decide (c.span.stop < r.span.stop)
  /-- Without children, all of the room is a gap. The root has no delimiters. -/
  dangling : r.holder.kind ≠ .document → r.holder.children = [] →
    r.holder.info.hasDangling = decide (r.span.start < r.span.stop)

namespace Node

variable {source : List Char} {n : Node Facts} {a b : Nat}

theorem KnowsSource.hasLeading (h : n.KnowsSource source) (hbranch : n.kind.isBranch = false)
    (hgap : Text.IsGap source a n.span.start) : n.info.hasLeading = decide (a < n.span.start) := by
  have hbefore : n.hasLeadingIn source = (decide (0 < n.span.start) && Text.blankAt source (n.span.start - 1)) := by
    rw [hasLeadingIn]
    cases hkind : n.kind with
    | branch name markup opener =>
      rw [hkind] at hbranch
      cases hbranch
    | _ => rfl
  rw [h.1, hbefore, hgap.blankAt_before]

theorem KnowsSource.hasTrailing (h : n.KnowsSource source) (hgap : Text.IsGap source n.span.stop b) :
    n.info.hasTrailing = decide (n.span.stop < b) := by
  rw [h.2, hasTrailingIn, hgap.blankAt_start]

end Node

namespace Room

open Node

variable {s : Sensitivity} {source : List Char} {r : Room Facts} {m : Node Unit}

theorem Filled.hasDanglingIn_eq (h : r.Filled (Text.IsGap source)) (hroot : r.holder.kind ≠ .document)
    (hnil : r.holder.children = []) : r.holder.hasDanglingIn source = decide (r.span.start < r.span.stop) := by
  obtain ⟨hdelimited, hstrung, -⟩ := h
  rw [hnil] at hstrung
  have hblank : Text.blankAt source r.span.start = decide (r.span.start < r.span.stop) :=
    Text.IsGap.blankAt_start hstrung
  rw [hasDanglingIn, hnil, List.isEmpty_nil, Bool.true_and]
  unfold Delimited at hdelimited
  split at hdelimited
  next name markup opener hkind => simp only [hkind, hdelimited.2 hnil, hblank]
  next =>
    -- the other rooms are between the two delimiters that are looked at
    unfold Kind.room? at hdelimited
    split at hdelimited
    next hkind => exact (hroot hkind).elim
    next opener closer hkind =>
      have hspan : r.span = ⟨opener.stop, closer.start⟩ := (Option.some.inj hdelimited).symm
      rw [hspan] at hblank ⊢
      simp only [hkind, hblank, Bool.and_self]
    next name markup opener closer hkind =>
      have hspan : r.span = ⟨opener.span.stop, closer.span.start⟩ :=
        (Option.some.inj (Option.ite_none_left_eq_some.1 hdelimited).2).symm
      rw [hspan] at hblank ⊢
      simp only [hkind, hblank, Bool.and_self]
    next => cases hdelimited

/-- **The facts tell the gaps of a room** whose children stand in a row of gaps. -/
theorem Filled.tellsGaps (h : r.Filled (Text.IsGap source)) (hannotates : m.Annotates s source r.holder) :
    r.TellsGaps := by
  have hknows {c : Node Facts} (hc : c ∈ r.holder.children) : c.KnowsSource source := by
    obtain ⟨k, -, hkc⟩ := Annotates.exists_of_mem hannotates.children hc
    exact hkc.knowsSource
  constructor
  · intro c hc
    have hmem := List.mem_of_head? hc
    have hgap := h.strung.first (s := c.span) (by rw [List.head?_map, hc, Option.map_some])
    exact (hknows hmem).hasLeading (h.undivided c hmem) hgap
  · intro c hc
    have hgap := h.strung.last (s := c.span) (by rw [List.getLast?_map, hc, Option.map_some])
    exact (hknows (List.mem_of_getLast? hc)).hasTrailing hgap
  · intro hroot hnil
    rw [hannotates.hasDangling_eq]
    exact h.hasDanglingIn_eq hroot hnil

end Room

/-- **Facts about white space agree with the gaps of the source.** In a well nested template two siblings that are no
branches both know whether there is white space between them, the first and the last child of an element, tag or branch
know of it on the side of the delimiter there, and without children the node itself knows of it between its
delimiters. -/
theorem facts_tell_gaps {source : String} {d : Document Unit} (h : Document.parse source .strict = .ok d)
    (s : Sensitivity) :
    (∀ n, (d.annotate s).root.Reaches n → ∀ (i : Nat) (p c : Node Facts), n.children[i]? = some p →
      n.children[i + 1]? = some c → p.kind.isBranch = false → c.kind.isBranch = false →
        p.info.hasTrailing = decide (p.span.stop < c.span.start) ∧
          c.info.hasLeading = decide (p.span.stop < c.span.start)) ∧
    (∀ n, (d.annotate s).root.Reaches n → ∀ r ∈ n.rooms, r.TellsGaps) ∧
    ∀ n, (d.annotate s).root.Reaches n → n.kind.hasRoom = true →
      ∃ p, (d.annotate s).root.Reaches p ∧ ∃ r ∈ p.rooms, r.holder = n := by
  have hfurnished := Document.furnished_gaps h
  have hroot := d.annotates_root s
  rw [source_of_parse h] at hroot
  refine ⟨fun n hn i p c hp hc hbranch hbranch' => ?_, fun n hn r hr => ?_, fun n hn hroom => ?_⟩
  · obtain ⟨hgap, -⟩ := related_of_adjacent hfurnished hroot hn hp hc hbranch
    have hknows {k : Node Facts} (hk : k ∈ n.children) : k.KnowsSource source.toList := by
      obtain ⟨m, hm, -⟩ := furnished_of_reaches hfurnished hroot (hn.child hk)
      exact hm.knowsSource
    exact ⟨(hknows (List.mem_of_getElem? hp)).hasTrailing hgap,
      (hknows (List.mem_of_getElem? hc)).hasLeading hbranch' hgap⟩
  · obtain ⟨hfilled, m, hm⟩ := filled_of_reaches hfurnished hroot hn hr
    exact hfilled.tellsGaps hm
  · rcases cases_of_reaches hfurnished hroot hn with ⟨-, hnone⟩ | hholds | ⟨hnone, -⟩
    · rw [hnone] at hroom
      cases hroom
    · exact hholds
    · rw [hnone] at hroom
      cases hroom

/-- The room of a branch without children, with something in it. -/
def Room.isDangling (r : Room Facts) : Bool :=
  r.holder.kind.isBranch && r.holder.children.isEmpty && decide (r.span.start < r.span.stop)

/-- A branch with nothing but white space in it, between two tags of its `if`. -/
theorem dangling_in_branch :
    ∃ d, Document.parse "<p>\x7b% if a %\x7db\x7b% else %\x7d\n\x7b% endif %\x7d</p>" .strict = .ok d ∧
      ∃ p ∈ (d.annotate .css).root.children, ∃ n ∈ p.children, ∃ r ∈ n.rooms, r.holder.kind.isBranch = true ∧
        r.span.start < r.span.stop ∧ r.holder.info.hasDangling = true := by
  obtain ⟨d, hd, hrooms⟩ := exists_eq_ok
    (P := fun d : Document Unit =>
      (d.annotate .css).root.children.any fun p => p.children.any fun n => n.rooms.any Room.isDangling)
    (x := Document.parse "<p>\x7b% if a %\x7db\x7b% else %\x7d\n\x7b% endif %\x7d</p>" .strict) (by decide +kernel)
  simp only [List.any_eq_true, Room.isDangling, Bool.and_eq_true, decide_eq_true_eq, List.isEmpty_iff] at hrooms
  obtain ⟨p, hp, n, hn, r, hr, ⟨hbranch, hnil⟩, hspan⟩ := hrooms
  have htells := (facts_tell_gaps hd .css).2.1 n ((Node.Reaches.self.child hp).child hn) r hr
  refine ⟨d, hd, p, hp, n, hn, r, hr, hbranch, hspan, ?_⟩
  rw [htells.dangling (fun hkind => by simp [hkind, Kind.isBranch] at hbranch) hnil, decide_eq_true hspan]

end LiquidTemplate
