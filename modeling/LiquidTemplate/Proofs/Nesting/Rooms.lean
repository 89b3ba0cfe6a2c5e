import LiquidTemplate.Proofs.Nesting.Branches
import LiquidTemplate.Proofs.Nesting.Formed

/-!
# Rooms between delimiters

The children of an element, a tag or a branch stand between two delimiters: the opening one, and the one that comes
next, which closes the node or starts another branch. `Node.rooms` reads these places off the tree. In a template that
is well nested the children fill a room from end to end: what relates each token of the template to the next one also
relates the delimiters and the children in every room (`Document.furnished_of_parse`).
-/

namespace LiquidTemplate

/-! ## Ranges in a row -/

/-- Ranges one after the other between two offsets, with `R` from where one ends to where the next one starts. -/
def Strung (R : Nat → Nat → Prop) : Nat → List Span → Nat → Prop
  | a, [], b => R a b
  | a, s :: ss, b => R a s.start ∧ s.start ≤ s.stop ∧ Strung R s.stop ss b

namespace Strung

variable {R : Nat → Nat → Prop} {a b : Nat} {ss ss' : List Span} {s s' : Span}

theorem append_cons_iff :
    Strung R a (ss ++ s :: ss') b ↔ Strung R a ss s.start ∧ s.start ≤ s.stop ∧ Strung R s.stop ss' b := by
  induction ss generalizing a with
  | nil => rfl
  | cons r ss ih => simp only [List.cons_append, Strung, ih, and_assoc]

theorem le (hR : ∀ i j, R i j → i ≤ j) (h : Strung R a ss b) : a ≤ b := by
  induction ss generalizing a with
  | nil => exact hR a b h
  | cons s ss ih =>
    obtain ⟨hfirst, hs, hrest⟩ := h
    exact Nat.le_trans (hR _ _ hfirst) (Nat.le_trans hs (ih hrest))

theorem adjacent {i : Nat} (h : Strung R a ss b) (hs : ss[i]? = some s) (hs' : ss[i + 1]? = some s') :
    R s.stop s'.start := by
  induction ss generalizing a i with
  | nil => cases hs
  | cons r ss ih =>
    obtain ⟨-, -, hrest⟩ := h
    cases i with
    | succ i => exact ih hrest hs hs'
    | zero =>
      obtain rfl : r = s := by simpa using hs
      cases ss with
      | nil => cases hs'
      | cons r' ss =>
        obtain rfl : r' = s' := by simpa using hs'
        exact hrest.1

theorem first (h : Strung R a ss b) (hs : ss.head? = some s) : R a s.start := by
  cases ss with
  | nil => cases hs
  | cons r ss =>
    obtain rfl : r = s := by simpa using hs
    exact h.1

theorem last (h : Strung R a ss b) (hs : ss.getLast? = some s) : R s.stop b := by
  obtain ⟨init, rfl⟩ := List.getLast?_eq_some_iff.1 hs
  exact (append_cons_iff.1 h).2.2

end Strung

/-! ## Rooms -/

namespace Kind

def isBranch : Kind → Bool
  | branch _ _ _ => true
  | _ => false

/-- The children of such a node stand between two delimiters. -/
def hasRoom : Kind → Bool
  | element _ _ | branch _ _ _ => true
  | block name _ _ _ => !isBranchedTag name
  | _ => false

/-- From the end of the opening delimiter of a node over a range to the start of its closing one. The root has all of
the template between them. -/
def room? (span : Span) : Kind → Option Span
  | document => some span
  | element opener closer => some ⟨opener.stop, closer.start⟩
  | block name _ opener (some closer) =>
    if isBranchedTag name then none else some ⟨opener.span.stop, closer.span.start⟩
  | _ => none

def branchStop? : Kind → Option Nat
  | block name _ _ (some closer) => if isBranchedTag name then some closer.span.start else none
  | _ => none

end Kind

/-- A node whose children stand between two delimiters, with the range from the end of the first one to the start of
the second one. -/
structure Room (α : Type) where
  holder : Node α
  span : Span

namespace Node

variable {α : Type}

def branchOpener (n : Node α) : Span :=
  match n.kind with
  | .branch _ _ opener => opener.span
  | _ => n.span

/-- The rooms of branches, each up to the next branch and the last one up to the closing tag. -/
def branchRooms (stop : Nat) : List (Node α) → List (Room α)
  | [] => []
  | b :: bs =>
    ⟨b, b.branchOpener.stop, (bs.head?.map fun next => next.branchOpener.start).getD stop⟩ :: branchRooms stop bs

/-- The rooms between the delimiters of a node: one for its children, or one for each branch. -/
def rooms (n : Node α) : List (Room α) :=
  match n.kind.room? n.span, n.kind.branchStop? with
  | some span, _ => [⟨n, span⟩]
  | none, some stop => branchRooms stop n.children
  | none, none => []

/-- A node is reached from another one through children. -/
inductive Reaches (root : Node α) : Node α → Prop where
  | self : Reaches root root
  | child {n c : Node α} (parent : Reaches root n) (mem : c ∈ n.children) : Reaches root c

theorem map_holder_branchRooms (stop : Nat) (bs : List (Node α)) : (branchRooms stop bs).map Room.holder = bs := by
  induction bs with
  | nil => rfl
  | cons b bs ih => rw [branchRooms, List.map_cons, ih]

theorem exists_branchRoom (stop : Nat) {b : Node α} {bs : List (Node α)} (h : b ∈ bs) :
    ∃ r ∈ branchRooms stop bs, r.holder = b := by
  rw [← map_holder_branchRooms stop bs] at h
  exact List.mem_map.1 h

theorem rooms_of_isBranch {n : Node α} (h : n.kind.isBranch = true) : n.rooms = [] := by
  unfold Kind.isBranch at h
  split at h
  next hkind => simp only [rooms, hkind, Kind.room?, Kind.branchStop?]
  next => cases h

theorem rooms_of_room? {n : Node α} {span : Span} (h : n.kind.room? n.span = some span) : n.rooms = [⟨n, span⟩] := by
  rw [rooms, h]

theorem rooms_of_branchStop? {n : Node α} {stop : Nat} (h : n.kind.branchStop? = some stop) :
    n.rooms = branchRooms stop n.children := by
  have hnone : n.kind.room? n.span = none := by
    unfold Kind.branchStop? at h
    split at h
    next hkind =>
      obtain ⟨hname, -⟩ := Option.ite_none_right_eq_some.1 h
      rw [hkind, Kind.room?, if_pos hname]
    next => cases h
  rw [rooms, hnone, h]

end Node

/-- The range of a room is told by the delimiters of its holder. -/
def Room.Delimited {α : Type} (r : Room α) : Prop :=
  match r.holder.kind with
  | .branch _ _ opener => r.span.start = opener.span.stop ∧ (r.holder.children = [] → r.holder.span.stop = r.span.start)
  | _ => r.holder.kind.room? r.holder.span = some r.span

/-- A room with children in a row. -/
structure Room.Filled {α : Type} (R : Nat → Nat → Prop) (r : Room α) : Prop where
  delimited : r.Delimited
  strung : Strung R r.span.start (r.holder.children.map Node.span) r.span.stop
  undivided : ∀ c ∈ r.holder.children, c.kind.isBranch = false

/-- The children of a node stand in its own room, or they are branches with a room each. -/
def Node.HasOwnRooms (n : Node Unit) : Prop :=
  (n.children = [] ∧ n.kind.hasRoom = false) ∨ (∃ span, n.kind.room? n.span = some span) ∨
    (n.kind.hasRoom = false ∧ ∃ stop, n.kind.branchStop? = some stop ∧ ∀ b ∈ n.children, b.kind.isBranch = true)

/-- All rooms from a node on are filled. -/
inductive Node.Furnished (R : Nat → Nat → Prop) : Node Unit → Prop where
  | mk {n : Node Unit} (own : n.HasOwnRooms) (filled : ∀ r ∈ n.rooms, r.Filled R)
      (inside : ∀ r ∈ n.rooms, ∀ c ∈ r.holder.children, c.Furnished R) : n.Furnished R

namespace Node

variable {R : Nat → Nat → Prop} {n : Node Unit}

theorem furnished_leaf {t : Token} {kind : Kind} (h : t.leafKind? = some kind)
    (name attributes value : List (Node Unit)) :
    Furnished R ⟨(), t.span, kind, name, attributes, value, []⟩ := by
  have hnone (span : Span) : kind.room? span = none ∧ kind.branchStop? = none ∧ kind.hasRoom = false := by
    cases Token.isLeaf_of_leafKind? h <;> exact ⟨rfl, rfl, rfl⟩
  obtain ⟨hroom, hstop, hkind⟩ := hnone t.span
  have hrooms : rooms (⟨(), t.span, kind, name, attributes, value, []⟩ : Node Unit) = [] := by
    rw [rooms, hroom, hstop]
  exact .mk (.inl ⟨rfl, hkind⟩) (by simp [hrooms]) (by simp [hrooms])

theorem furnished_of_room {span : Span} (hroom : n.kind.room? n.span = some span)
    (hstrung : Strung R span.start (n.children.map Node.span) span.stop)
    (hundivided : ∀ c ∈ n.children, c.kind.isBranch = false)
    (hchildren : ∀ c ∈ n.children, c.Furnished R) : n.Furnished R := by
  have hdelimited : Room.Delimited ⟨n, span⟩ := by
    unfold Room.Delimited
    split
    next hkind =>
      simp only at hkind
      rw [hkind] at hroom
      cases hroom
    next => exact hroom
  refine .mk (.inr (.inl ⟨span, hroom⟩)) ?_ ?_
  · rw [rooms_of_room? hroom, List.forall_mem_singleton]
    exact ⟨hdelimited, hstrung, hundivided⟩
  · rw [rooms_of_room? hroom, List.forall_mem_singleton]
    exact hchildren

end Node

/-! ## Rooms of derived nodes -/

/-- What is known of the nodes that a phrase stands for, if its tokens stand in a row with further ranges. -/
def Phrase.Fills (R : Nat → Nat → Prop) (spans : List Span) (ns : List (Node Unit)) : Phrase → Prop
  | sequence | item => ∀ a b rest, Strung R a (spans ++ rest) b →
    Strung R a (ns.map Node.span ++ rest) b ∧ ∀ n ∈ ns, n.Furnished R
  | branches _ _ opener stop => ∀ b closer rest, closer.start = stop → opener.span.start ≤ opener.span.stop →
    Strung R opener.span.stop (spans ++ closer :: rest) b →
      closer.start ≤ closer.stop ∧ Strung R closer.stop rest b ∧
        ∀ r ∈ Node.branchRooms stop ns, r.Filled R ∧ r.holder.kind.isBranch = true ∧
          ∀ c ∈ r.holder.children, c.Furnished R

namespace Derives

open Node

variable {R : Nat → Nat → Prop}

theorem undivided {ts : List Token} {ns : List (Node Unit)} (h : Derives .sequence ts ns) :
    ∀ n ∈ ns, n.kind.isBranch = false := by
  intro n hn
  obtain ⟨us, hitem⟩ := h.isDerived_of_mem n hn
  cases hitem with
  | leaf isLeaf => exact (openerStop_of_leafKind? isLeaf [] [] [] []).2
  | element | block | branched => rfl

theorem filled_branchOf (hR : ∀ i j, R i j → i ≤ j) {name : Option String} {markup : Markup} {opener : Delimiter}
    {children : List (Node Unit)} {next : Nat} (hopener : opener.span.start ≤ opener.span.stop)
    (hstrung : Strung R opener.span.stop (children.map Node.span) next)
    (hundivided : ∀ c ∈ children, c.kind.isBranch = false) :
    Room.Filled R ⟨branchOf name markup opener children next, opener.span.stop, next⟩ where
  delimited := by
    refine ⟨rfl, fun hnil => ?_⟩
    obtain rfl : children = [] := hnil
    have hle : opener.span.stop ≤ next := hR _ _ hstrung
    show max (min opener.span.stop next) opener.span.start = opener.span.stop
    rw [Nat.min_eq_left hle, Nat.max_eq_left hopener]
  strung := hstrung
  undivided := hundivided

/-- **The nodes of a phrase fill their rooms.** -/
theorem fills (hR : ∀ i j, R i j → i ≤ j) {phrase : Phrase} {ts : List Token} {ns : List (Node Unit)}
    (h : Derives phrase ts ns) : phrase.Fills R (ts.map Token.span) ns := by
  induction h with
  | nil => exact fun a b rest hstrung => ⟨hstrung, by simp⟩
  | cons _ _ ih ih' =>
    intro a b rest hstrung
    rw [List.map_append, List.append_assoc] at hstrung
    obtain ⟨⟨hgap, hspan, hrest⟩, hfirst⟩ := ih a b _ hstrung
    obtain ⟨hrest, hothers⟩ := ih' _ b rest hrest
    exact ⟨⟨hgap, hspan, hrest⟩, List.forall_mem_cons.2 ⟨hfirst _ (List.mem_singleton_self _), hothers⟩⟩
  | @leaf t kind name attributes value isLeaf =>
    intro a b rest hstrung
    exact ⟨hstrung, List.forall_mem_singleton.2 (furnished_leaf isLeaf name attributes value)⟩
  | @element opener closer name attributes body closerName _ _ children _ _ _ inside _ _ _ _ ih _ =>
    intro a b rest hstrung
    simp only [List.map_cons, List.map_append, List.cons_append, List.append_assoc, List.map_nil, List.nil_append,
      Token.span, Strung] at hstrung
    obtain ⟨hgap, hopener, hbody⟩ := hstrung
    obtain ⟨hbody, hchildren⟩ := ih _ b _ hbody
    obtain ⟨hbody, hcloser, hrest⟩ := Strung.append_cons_iff.1 hbody
    have hspan : opener.start ≤ closer.stop := Nat.le_trans hopener (Nat.le_trans (hbody.le hR) hcloser)
    refine ⟨⟨hgap, hspan, hrest⟩, List.forall_mem_singleton.2 ?_⟩
    exact furnished_of_room rfl hbody inside.undivided hchildren
  | @block opener closer name markup body children undivided inside ih =>
    intro a b rest hstrung
    simp only [List.map_cons, List.map_append, List.cons_append, List.append_assoc, List.map_nil, List.nil_append,
      Token.span, Strung] at hstrung
    obtain ⟨hgap, hopener, hbody⟩ := hstrung
    obtain ⟨hbody, hchildren⟩ := ih _ b _ hbody
    obtain ⟨hbody, hcloser, hrest⟩ := Strung.append_cons_iff.1 hbody
    have hspan : opener.span.start ≤ closer.span.stop := Nat.le_trans hopener (Nat.le_trans (hbody.le hR) hcloser)
    refine ⟨⟨hgap, hspan, hrest⟩, List.forall_mem_singleton.2 ?_⟩
    have hroom : (Kind.block name markup opener (some closer)).room? ⟨opener.span.start, closer.span.stop⟩ =
        some ⟨opener.span.stop, closer.span.start⟩ := by simp [Kind.room?, undivided]
    exact furnished_of_room hroom hbody inside.undivided hchildren
  | @branched opener closer name markup body branches divided inside ih =>
    intro a b rest hstrung
    simp only [List.map_cons, List.map_append, List.cons_append, List.append_assoc, List.map_nil, List.nil_append,
      Token.span, Strung] at hstrung
    obtain ⟨hgap, hopener, hbody⟩ := hstrung
    have hinside : opener.span.stop ≤ closer.span.start := (Strung.append_cons_iff.1 hbody).1.le hR
    obtain ⟨hcloser, hrest, hbranches⟩ := ih b closer.span rest rfl (Nat.le_refl _) hbody
    refine ⟨⟨hgap, Nat.le_trans hopener (Nat.le_trans hinside hcloser), hrest⟩, List.forall_mem_singleton.2 ?_⟩
    have hstop : (Kind.block name markup opener (some closer)).branchStop? = some closer.span.start := if_pos divided
    have hrooms := rooms_of_branchStop?
      (n := ⟨(), ⟨opener.span.start, closer.span.stop⟩, _, [], [], [], branches⟩) hstop
    refine .mk (.inr (.inr ⟨by simp [Kind.hasRoom, divided], _, hstop, fun c hc => ?_⟩)) ?_ ?_
    · obtain ⟨r, hr, rfl⟩ := exists_branchRoom closer.span.start hc
      exact (hbranches r hr).2.1
    · rw [hrooms]
      exact fun r hr => (hbranches r hr).1
    · rw [hrooms]
      exact fun r hr => (hbranches r hr).2.2
  | @lastBranch name markup opener stop body children inside ih =>
    intro b closer rest hstop hopener hstrung
    obtain ⟨hstrung, hchildren⟩ := ih _ b _ hstrung
    obtain ⟨hbody, hcloser, hrest⟩ := Strung.append_cons_iff.1 hstrung
    rw [hstop] at hbody
    refine ⟨hcloser, hrest, List.forall_mem_singleton.2 ⟨?_, rfl, hchildren⟩⟩
    exact filled_branchOf hR hopener hbody inside.undivided
  | @nextBranch name markup opener stop body others children branches nextName nextMarkup next _ inside later ih ih' =>
    intro b closer rest hstop hopener hstrung
    simp only [List.map_append, List.map_cons, List.append_assoc, List.cons_append, Token.span] at hstrung
    obtain ⟨hstrung, hchildren⟩ := ih _ b _ hstrung
    obtain ⟨hbody, hnext, hothers⟩ := Strung.append_cons_iff.1 hstrung
    obtain ⟨hcloser, hrest, hbranches⟩ := ih' b closer rest hstop hnext hothers
    obtain ⟨second, more, rfl, hsecond, -⟩ := later.branches_shape
    have hstart : second.branchOpener = next.span := by simp [branchOpener, hsecond]
    refine ⟨hcloser, hrest, List.forall_mem_cons.2 ⟨⟨?_, rfl, hchildren⟩, hbranches⟩⟩
    have hroom : ((second :: more).head?.map fun next => next.branchOpener.start).getD stop = next.span.start := by
      simp [hstart]
    rw [hroom]
    exact filled_branchOf hR hopener hbody inside.undivided

end Derives

/-- **Every room of a well nested template is filled**: what relates its tokens also relates what is in a room. -/
theorem Document.furnished_of_parse {R : Nat → Nat → Prop} (hR : ∀ i j, R i j → i ≤ j) {source : String}
    {tokens : List Token} {d : Document Unit} (htokens : Token.ofSource source = .ok tokens)
    (hparse : Document.parse source .strict = .ok d)
    (hstrung : Strung R 0 (tokens.map Token.span) (Text.byteSize source.toList)) : d.root.Furnished R := by
  obtain ⟨nodes, hderives, rfl⟩ := derives_of_parse htokens hparse
  obtain ⟨hstrung, hnodes⟩ := hderives.fills hR 0 (Text.byteSize source.toList) [] (by rwa [List.append_nil])
  rw [List.append_nil] at hstrung
  exact Node.furnished_of_room rfl hstrung hderives.undivided hnodes

end LiquidTemplate
