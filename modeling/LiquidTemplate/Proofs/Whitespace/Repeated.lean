import LiquidTemplate.Proofs.Whitespace.Annotated
import LiquidTemplate.Proofs.Whitespace.Passes

/-!
# Annotation repeated

Annotation only decorates: without its facts, an annotated document is the document before (`Document.bare_annotate`).
The rows of an annotated document are what the passes write (`Document.settledRow_rows`), so annotation in place ends in
them, whatever facts it starts from. The main statement is `Document.annotations_eq_last`.
-/

namespace LiquidTemplate

namespace Node

variable {α β : Type}

/-! ## Faces

The facts about a node, given those of its neighbours, need no more of a node than its face. -/

def leaf (f : α → β) (n : Node α) : Node β :=
  { info := f n.info, span := n.span, kind := n.kind }

/-- A node with nothing below its members. -/
def face (f : α → β) (n : Node α) : Node β :=
  { info := f n.info, span := n.span, kind := n.kind,
    name := n.name.map (leaf f), attributes := n.attributes.map (leaf f),
    value := n.value.map (leaf f), children := n.children.map (leaf f) }

section

variable (f : α → β) (n : Node α)

theorem spelledName_face : (n.face f).spelledName = n.spelledName := by
  simp only [spelledName, face, List.map_map]
  rfl

theorem displayAfter_face (s : Sensitivity) (prev : Option (Node α)) :
    (n.face f).displayAfter s (prev.map (face f)) = n.displayAfter s prev := by
  have hremark : (prev.map (face f)).bind remark? = prev.bind remark? := by
    cases prev <;> rfl
  simp only [displayAfter, hremark, spelledName_face]
  rfl

theorem whiteSpace_face : (n.face f).whiteSpace = n.whiteSpace := by
  simp only [whiteSpace, spelledName_face]
  rfl

theorem hasDanglingIn_face (source : List Char) : (n.face f).hasDanglingIn source = n.hasDanglingIn source := by
  simp [hasDanglingIn, face]

theorem trimsLast_face (around : Option Enclosure) (next : Option (Node α)) :
    (n.face f).trimsLast around (next.map (face f)) = n.trimsLast around next := by
  cases next <;> rfl

end

section

variable (n : Node Display) (around : Option Enclosure)

theorem leadingMatters_face (prev : Option (Node Display)) :
    (n.face id).leadingMatters around (prev.map (face id)) = n.leadingMatters around prev := by
  cases prev <;> rfl

theorem trailingMatters_face (next : Option (Node Display)) :
    (n.face id).trailingMatters around (next.map (face id)) = n.trailingMatters around next := by
  cases next <;> rfl

theorem danglingMatters_face (next : Option (Node Display)) :
    (n.face id).danglingMatters around (next.map (face id)) = n.danglingMatters around next := by
  rw [danglingMatters, trimsLast_face]
  rfl

end

/-! ## Annotated trees keep their shape -/

theorem map_leaf_withAllFacts {f : Facts → β} {g : Display → β} (hf : ∀ facts, f facts = g facts.display)
    (source : List Char) (around : Enclosure) (prev : Option (Node Display)) (ns : List (Node Display)) :
    (withAllFacts source around prev ns).map (leaf f) = ns.map (leaf g) := by
  induction ns generalizing prev with
  | nil => rfl
  | cons n ns ih =>
    rw [withAllFacts, List.map_cons, List.map_cons, ih]
    cases n
    exact congrArg (· :: _) (by simp [withFacts, leaf, hf, factsOf])

theorem face_withFacts {f : Facts → β} {g : Display → β} (hf : ∀ facts, f facts = g facts.display)
    (source : List Char) (around : Option Enclosure) (prev next : Option (Node Display)) (n : Node Display) :
    (n.withFacts source around prev next).face f = n.face g := by
  cases n
  simp only [withFacts, face, map_leaf_withAllFacts hf, hf, factsOf]

theorem map_leaf_withDisplays (s : Sensitivity) (prev : Option (Node α)) (ns : List (Node α)) :
    (withDisplays s prev ns).map (leaf fun _ => ()) = ns.map (leaf fun _ => ()) := by
  induction ns generalizing prev with
  | nil => rfl
  | cons n ns ih =>
    rw [withDisplays, List.map_cons, List.map_cons, ih]
    cases n
    rfl

theorem face_withDisplay (s : Sensitivity) (prev : Option (Node α)) (n : Node α) :
    (n.withDisplay s prev).face (fun _ => ()) = n.face fun _ => () := by
  cases n
  simp only [withDisplay, face, map_leaf_withDisplays]

/-! ## Bare trees -/

mutual

/-- A tree without what its nodes carry. -/
def bare : Node α → Node Unit
  | ⟨_, span, kind, name, attributes, value, children⟩ =>
    { info := (), span := span, kind := kind, name := bares name, attributes := bares attributes,
      value := bares value, children := bares children }

def bares : List (Node α) → List (Node Unit)
  | [] => []
  | n :: ns => n.bare :: bares ns

end

mutual

theorem bare_eq_self (n : Node Unit) : n.bare = n := by
  cases n
  simp only [bare, bares_eq_self]

theorem bares_eq_self (ns : List (Node Unit)) : bares ns = ns := by
  cases ns with
  | nil => rfl
  | cons n ns => simp only [bares, bare_eq_self, bares_eq_self]

end

mutual

theorem size_bare (n : Node α) : n.bare.size = n.size := by
  cases n
  simp only [bare, size, sizes_bares]

theorem sizes_bares (ns : List (Node α)) : sizes (bares ns) = sizes ns := by
  cases ns with
  | nil => rfl
  | cons n ns => simp only [bares, sizes, size_bare, sizes_bares]

end

mutual

theorem bare_withDisplay (s : Sensitivity) (prev : Option (Node α)) (n : Node α) :
    (n.withDisplay s prev).bare = n.bare := by
  cases n
  simp only [withDisplay, bare, bares_withDisplays]

theorem bares_withDisplays (s : Sensitivity) (prev : Option (Node α)) (ns : List (Node α)) :
    bares (withDisplays s prev ns) = bares ns := by
  cases ns with
  | nil => rfl
  | cons n ns => simp only [withDisplays, bares, bare_withDisplay, bares_withDisplays]

end

mutual

theorem bare_withFacts (source : List Char) (around : Option Enclosure) (prev next : Option (Node Display))
    (n : Node Display) : (n.withFacts source around prev next).bare = n.bare := by
  cases n
  simp only [withFacts, bare, bares_withAllFacts]

theorem bares_withAllFacts (source : List Char) (around : Enclosure) (prev : Option (Node Display))
    (ns : List (Node Display)) : bares (withAllFacts source around prev ns) = bares ns := by
  cases ns with
  | nil => rfl
  | cons n ns => simp only [withAllFacts, bares, bare_withFacts, bares_withAllFacts]

end

theorem face_bare (n : Node α) : n.bare.face (fun _ => ()) = n.face fun _ => () := by
  have hleaves (ns : List (Node α)) : (bares ns).map (leaf fun _ => ()) = ns.map (leaf fun _ => ()) := by
    induction ns with
    | nil => rfl
    | cons n ns ih =>
      rw [bares, List.map_cons, List.map_cons, ih]
      cases n
      rfl
  cases n
  simp only [bare, face, hleaves]

theorem displayAfter_bare (s : Sensitivity) (prev : Option (Node α)) (n : Node α) :
    n.bare.displayAfter s (prev.map bare) = n.displayAfter s prev := by
  have hprev : (prev.map bare).map (face fun _ => ()) = prev.map (face fun _ => ()) := by
    cases prev with
    | none => rfl
    | some prev => exact congrArg some prev.face_bare
  rw [← displayAfter_face fun _ => (), hprev, face_bare, displayAfter_face]

mutual

theorem withDisplay_bare (s : Sensitivity) (prev : Option (Node α)) (n : Node α) :
    n.bare.withDisplay s (prev.map bare) = n.withDisplay s prev := by
  have hdisplay := displayAfter_bare s prev n
  obtain ⟨info, span, kind, name, attributes, value, children⟩ := n
  have hname := withDisplays_bares s none name
  have hattributes := withDisplays_bares s none attributes
  have hvalue := withDisplays_bares s none value
  have hchildren := withDisplays_bares s none children
  rw [Option.map_none] at hname hattributes hvalue hchildren
  rw [bare] at hdisplay
  simp only [bare, withDisplay, hdisplay, hname, hattributes, hvalue, hchildren]

theorem withDisplays_bares (s : Sensitivity) (prev : Option (Node α)) (ns : List (Node α)) :
    withDisplays s (prev.map bare) (bares ns) = withDisplays s prev ns := by
  cases ns with
  | nil => rfl
  | cons n ns =>
    rw [bares, withDisplays, withDisplays, withDisplay_bare s prev n, ← withDisplays_bares s (some n) ns,
      Option.map_some]

end

end Node

namespace Document

variable {α : Type}

def bare (d : Document α) : Document Unit :=
  ⟨d.source, d.root.bare⟩

/-- **Annotation only decorates.** -/
theorem bare_annotate (s : Sensitivity) (d : Document α) : (d.annotate s).bare = d.bare := by
  rw [annotate, bare, bare, Node.bare_withFacts, Node.bare_withDisplay]

theorem annotate_bare (s : Sensitivity) (d : Document α) : d.bare.annotate s = d.annotate s := by
  have hdisplay := d.root.withDisplay_bare s none
  rw [Option.map_none] at hdisplay
  simp only [annotate, bare, hdisplay]

theorem annotate_annotate (s s' : Sensitivity) (d : Document α) : (d.annotate s).annotate s' = d.annotate s' := by
  rw [← annotate_bare s' (d.annotate s), bare_annotate, annotate_bare]

end Document

/-! ## Rows of a tree -/

section

variable {α : Type}

def Entry.freshRow (e : Entry α) : Row :=
  { span := e.node.span, kind := e.node.kind, name := e.name, attributes := e.attributes, value := e.value,
    children := e.children }

def Entry.row (e : Entry Facts) : Row :=
  { e.freshRow with
    place := ⟨e.parent, e.prev, e.next⟩, firstChild := e.children.head?, lastChild := e.children.getLast?,
    facts := e.node.info }

namespace Node

theorem numbers_bares (start : Nat) (ns : List (Node α)) : numbers start (bares ns) = numbers start ns := by
  induction ns generalizing start with
  | nil => rfl
  | cons n ns ih => rw [bares, numbers, numbers, size_bare, ih]

mutual

theorem freshRow_entries_bare (n : Node α) (k : Nat) (parent prev next : Option Nat) :
    (n.bare.entries k parent prev next).map Entry.freshRow = (n.entries k parent prev next).map Entry.freshRow := by
  cases n
  simp only [bare, entries, List.map_cons, List.map_append, sizes_bares, freshRow_entriesFrom_bares]
  simp only [Entry.freshRow, numbers_bares]

theorem freshRow_entriesFrom_bares (ns : List (Node α)) (start parent : Nat) (prev : Option Nat) :
    (entriesFrom start parent prev (bares ns)).map Entry.freshRow =
      (entriesFrom start parent prev ns).map Entry.freshRow := by
  cases ns with
  | nil => rfl
  | cons n ns =>
    have hempty : (bares ns).isEmpty = ns.isEmpty := by cases ns <;> rfl
    simp only [bares, entriesFrom, List.map_append, size_bare, hempty, freshRow_entries_bare,
      freshRow_entriesFrom_bares]

end

end Node

namespace Document

def freshRows (d : Document α) : Table :=
  d.entries.map Entry.freshRow

def rows (d : Document Facts) : Table :=
  d.entries.map Entry.row

theorem map_core_rows (d : Document Facts) : d.rows.map Row.core = d.freshRows := by
  rw [rows, List.map_map]
  rfl

theorem freshRows_annotate (s : Sensitivity) (d : Document α) : (d.annotate s).freshRows = d.freshRows := by
  have hbare {γ : Type} (d : Document γ) : d.bare.freshRows = d.freshRows :=
    d.root.freshRow_entries_bare 0 none none none
  rw [← hbare, bare_annotate, hbare]

end Document

/-! ## Rows in a table -/

namespace Node

def rowAt (n : Node Facts) (k : Nat) (place : Place) : Row :=
  let attributesStart := k + 1 + sizes n.name
  let valueStart := attributesStart + sizes n.attributes
  let children := numbers (valueStart + sizes n.value) n.children
  { span := n.span, kind := n.kind, name := numbers (k + 1) n.name,
    attributes := numbers attributesStart n.attributes, value := numbers valueStart n.value, children := children,
    place := place, firstChild := children.head?, lastChild := children.getLast?, facts := n.info }

section

variable {β : Type} {listing : List (Entry Facts)} {n : Node Facts} {ns : List (Node Facts)} {start k : Nat}
  {parent prev next : Option Nat}

theorem getElem?_rows (held : n.entries k parent prev next <+: listing.drop k) :
    (listing.map Entry.row)[k]? = some (n.rowAt k ⟨parent, prev, next⟩) := by
  cases n
  rw [List.getElem?_map, (prefix_drop_cons held).1]
  rfl

theorem members_numbers (f : Facts → β) {parent : Nat}
    (held : entriesFrom start parent prev ns <+: listing.drop start) :
    Table.members f (listing.map Entry.row) (numbers start ns) = ns.map (leaf f) := by
  induction ns generalizing start prev with
  | nil => rfl
  | cons n ns ih =>
    obtain ⟨hfirst, hothers⟩ := prefix_drop_siblings held
    rw [List.map_cons, ← ih hothers, numbers, Table.members, List.filterMap_cons, getElem?_rows hfirst]
    rfl

theorem face_rowAt (f : Facts → β) (held : n.entries k parent prev next <+: listing.drop k) (place : Place) :
    Table.face f (listing.map Entry.row) (n.rowAt k place) = n.face f := by
  obtain ⟨hname, hattributes, hvalue, hchildren⟩ := prefix_drop_members held
  simp only [Table.face, rowAt, face, members_numbers f hname, members_numbers f hattributes, members_numbers f hvalue,
    members_numbers f hchildren]

theorem faceAt_rows (f : Facts → β) (held : n.entries k parent prev next <+: listing.drop k) :
    Table.faceAt f (listing.map Entry.row) k = some (n.face f) := by
  rw [Table.faceAt, getElem?_rows held, Option.map_some, face_rowAt f held]

theorem head?_numbers (start : Nat) (ns : List (Node α)) :
    (numbers start ns).head? = if ns.isEmpty then none else some start := by
  cases ns <;> rfl

theorem placed_numbers {parent : Nat} (held : entriesFrom start parent prev ns <+: listing.drop start) :
    Table.Placed (listing.map Entry.row) parent prev (numbers start ns) := by
  induction ns generalizing start prev with
  | nil => trivial
  | cons n ns ih =>
    obtain ⟨hfirst, hothers⟩ := prefix_drop_siblings held
    refine ⟨?_, ih hothers⟩
    rw [getElem?_rows hfirst, Option.map_some, head?_numbers]
    rfl

end

mutual

theorem placed_entries {listing : List (Entry Facts)} (n : Node Facts) {k : Nat} {parent prev next : Option Nat}
    (held : n.entries k parent prev next <+: listing.drop k) :
    ∀ e ∈ n.entries k parent prev next, ∀ ms ∈ e.row.collections,
      Table.Placed (listing.map Entry.row) e.number none ms := by
  obtain ⟨hname, hattributes, hvalue, hchildren⟩ := prefix_drop_members held
  obtain ⟨info, span, kind, name, attributes, value, children⟩ := n
  simp only [entries, List.forall_mem_cons, List.forall_mem_append]
  refine ⟨?_, ⟨⟨placed_entriesFrom name hname, placed_entriesFrom attributes hattributes⟩,
    placed_entriesFrom value hvalue⟩, placed_entriesFrom children hchildren⟩
  simp only [Row.collections, List.forall_mem_cons, List.not_mem_nil, false_implies, implies_true, and_true]
  exact ⟨placed_numbers hname, placed_numbers hattributes, placed_numbers hvalue, placed_numbers hchildren⟩

theorem placed_entriesFrom {listing : List (Entry Facts)} (ns : List (Node Facts)) {start parent : Nat}
    {prev : Option Nat} (held : entriesFrom start parent prev ns <+: listing.drop start) :
    ∀ e ∈ entriesFrom start parent prev ns, ∀ ms ∈ e.row.collections,
      Table.Placed (listing.map Entry.row) e.number none ms := by
  cases ns with
  | nil => exact nofun
  | cons n ns =>
    obtain ⟨hfirst, hothers⟩ := prefix_drop_siblings held
    rw [entriesFrom, List.forall_mem_append]
    exact ⟨placed_entries n hfirst, placed_entriesFrom ns hothers⟩

end

end Node

namespace Document

theorem number_of_getElem? {d : Document α} {k : Nat} {e : Entry α} (he : d.entries[k]? = some e) : e.number = k := by
  have hnumber : (d.entries.map Entry.number)[k]? = some e.number := by
    rw [List.getElem?_map, he, Option.map_some]
  rw [map_number_entries, List.getElem?_eq_some_iff] at hnumber
  obtain ⟨hk, hnumber⟩ := hnumber
  rw [← hnumber, List.getElem_range]

theorem linked_rows (d : Document Facts) : Table.Linked d.rows where
  placed k r hr := by
    rw [rows, List.getElem?_map, Option.map_eq_some_iff] at hr
    obtain ⟨e, he, rfl⟩ := hr
    rw [← number_of_getElem? he]
    exact d.root.placed_entries (List.prefix_refl d.entries) e (List.mem_of_getElem? he)
  ends r hr := by
    obtain ⟨e, -, rfl⟩ := List.mem_map.1 hr
    rfl
  held k hk hzero := by
    have hlength : d.rows.length = d.size := by
      rw [rows, List.length_map, ← List.length_map (f := Entry.number), map_number_entries, List.length_range]
    have hmem : k ∈ d.entries.flatMap Entry.links := by
      rw [d.perm_links.mem_iff, List.mem_range'_1]
      omega
    obtain ⟨e, he, hlink⟩ := List.mem_flatMap.1 hmem
    obtain ⟨j, hj⟩ := List.getElem?_of_mem he
    refine ⟨j, e.row, by rw [rows, List.getElem?_map, hj, Option.map_some], ?_⟩
    simpa [Row.collections, Entry.row, Entry.freshRow, Entry.links] using hlink

end Document

/-! ## The rows of an annotated document are settled -/

namespace Node

/-- What a node is annotated from is what the rows say that its place names. -/
structure Fits (table : Table) (k : Nat) (place : Place) (before : Option (Node α)) (around : Option Enclosure)
    (prev next : Option (Node Display)) : Prop where
  before_eq : place.prev.bind (table.faceAt Facts.forget) = before.map (face fun _ => ())
  prev_eq : place.prev.bind (table.faceAt Facts.display) = prev.map (face id)
  next_eq : place.next.bind (table.faceAt Facts.display) = next.map (face id)
  around_eq : place.parent.bind table.enclosureAt = around
  parent_lt : ∀ p ∈ place.parent, p < k
  isNone_around : around.isNone = decide (k = 0)

/-- A row is the row of a node that is annotated with these facts. -/
structure IsRow (table : Table) (r : Row) (place : Place) (facts : Facts) (n : Node Display) : Prop where
  place_eq : r.place = place
  facts_eq : r.facts = facts
  forget_eq : table.face Facts.forget r = n.face fun _ => ()
  display_eq : table.face Facts.display r = n.face id

section

variable {table : Table} {source : List Char} {s : Sensitivity} {before : Option (Node α)} {around : Option Enclosure}
  {prev next : Option (Node Display)} {k : Nat} {place : Place} {n : Node Display} {r : Row}

theorem IsRow.settled {m : Node α} (hn : n = m.withDisplay s before)
    (h : IsRow table r place (n.factsOf source around prev next) n)
    (fits : Fits table k place before around prev next) : Table.SettledRow source s table r := by
  obtain ⟨hplace, hfacts, hforget, hdisplay⟩ := h
  obtain ⟨span, kind, name, attributes, value, children, place, firstChild, lastChild, facts⟩ := r
  subst hplace hfacts
  constructor
  · have hbefore : n.face (fun _ => ()) = m.face fun _ => () := hn ▸ m.face_withDisplay s before
    have hown : n.info = m.displayAfter s before := hn ▸ m.info_withDisplay s before
    rw [Table.setDisplay, hforget, hbefore, fits.before_eq, displayAfter_face, ← hown]
    rfl
  · rw [Table.setWhiteSpace, hforget, whiteSpace_face]
    rfl
  · simp only [Table.setPresence, hforget, hasDanglingIn_face]
    rfl
  · simp only [Table.setMatters, hdisplay, fits.around_eq, fits.prev_eq, fits.next_eq, leadingMatters_face,
      trailingMatters_face, danglingMatters_face]
    rfl

/-- Its members read off such a row what they are annotated from. -/
theorem IsRow.enclosureAt (hr : table[k]? = some r) (h : IsRow table r place (n.factsOf source around prev next) n)
    (fits : Fits table k place before around prev next) :
    Table.enclosureAt table k = some (n.enclosure around next) := by
  have haround : (place.parent.bind fun p => if _ : p < k then Table.enclosureAt table p else none) = around := by
    rw [← fits.around_eq]
    exact Option.bind_congr fun p hp => dif_pos (fits.parent_lt p hp)
  rw [Table.enclosureAt, hr, Option.map_some]
  simp only [h.place_eq, h.facts_eq, h.display_eq, haround, fits.next_eq, trimsLast_face, ← fits.isNone_around]
  rfl

end

section

variable {listing : List (Entry Facts)} {source : List Char} {around : Option Enclosure}
  {prev next : Option (Node Display)} {k : Nat} {place : Place} {n : Node Display}

theorem face_forget_withFacts (source : List Char) (around : Option Enclosure) (prev next : Option (Node Display))
    (n : Node Display) : (n.withFacts source around prev next).face Facts.forget = n.face fun _ => () :=
  face_withFacts (by exact fun _ => rfl) source around prev next n

theorem face_display_withFacts (source : List Char) (around : Option Enclosure) (prev next : Option (Node Display))
    (n : Node Display) : (n.withFacts source around prev next).face Facts.display = n.face id :=
  face_withFacts (by exact fun _ => rfl) source around prev next n

theorem isRow_rowAt
    (held : (n.withFacts source around prev next).entries k place.parent place.prev place.next <+: listing.drop k) :
    IsRow (listing.map Entry.row) ((n.withFacts source around prev next).rowAt k place) place
      (n.factsOf source around prev next) n where
  place_eq := rfl
  facts_eq := n.info_withFacts source around prev next
  forget_eq := (face_rowAt Facts.forget held place).trans (n.face_forget_withFacts source around prev next)
  display_eq := (face_rowAt Facts.display held place).trans (n.face_display_withFacts source around prev next)

end

theorem fits_sibling {listing : List (Entry Facts)} {source : List Char} {s : Sensitivity} {around : Enclosure}
    {m : Node α} {ms : List (Node α)} {before : Option (Node α)} {prev : Option (Node Display)}
    {start after parent : Nat} {kprev : Option Nat} {table : Table} (htable : listing.map Entry.row = table)
    (hothers : entriesFrom after parent (some start)
      (withAllFacts source around (some (m.withDisplay s before)) (withDisplays s (some m) ms)) <+: listing.drop after)
    (hbefore : kprev.bind (table.faceAt Facts.forget) = before.map (face fun _ => ()))
    (hprev : kprev.bind (table.faceAt Facts.display) = prev.map (face id))
    (hparent : parent < start) (haround : table.enclosureAt parent = some around) :
    Fits table start ⟨some parent, kprev,
        if (withAllFacts source around (some (m.withDisplay s before)) (withDisplays s (some m) ms)).isEmpty then none
        else some after⟩ before (some around) prev (withDisplays s (some m) ms).head? where
  before_eq := hbefore
  prev_eq := hprev
  next_eq := by
    subst htable
    cases ms with
    | nil => rfl
    | cons m' ms =>
      obtain ⟨hnext, -⟩ := prefix_drop_siblings hothers
      exact (faceAt_rows Facts.display hnext).trans (congrArg some (face_display_withFacts _ _ _ _ _))
  around_eq := haround
  parent_lt p hp := by
    cases hp
    exact hparent
  isNone_around := (decide_eq_false (Nat.ne_of_gt (Nat.zero_lt_of_lt hparent))).symm

mutual

theorem settledRow_entries {listing : List (Entry Facts)} {source : List Char} {s : Sensitivity}
    {around : Option Enclosure} {prev next : Option (Node Display)} {before : Option (Node α)} (m : Node α)
    {k : Nat} {place : Place} (fits : Fits (listing.map Entry.row) k place before around prev next)
    (held : ((m.withDisplay s before).withFacts source around prev next).entries k place.parent place.prev place.next
      <+: listing.drop k) :
    ∀ e ∈ ((m.withDisplay s before).withFacts source around prev next).entries k place.parent place.prev place.next,
      Table.SettledRow source s (listing.map Entry.row) e.row := by
  -- The node itself is settled by what fits it. Its members find their neighbours next to them, and it around them.
  have hrow := isRow_rowAt held
  have hsettled := hrow.settled rfl fits
  have hinside := hrow.enclosureAt (getElem?_rows held) fits
  obtain ⟨hname, hattributes, hvalue, hchildren⟩ := prefix_drop_members held
  obtain ⟨info, span, kind, name, attributes, value, children⟩ := m
  simp only [withDisplay, withFacts, entries, List.forall_mem_cons, List.forall_mem_append]
  exact ⟨hsettled, ⟨⟨settledRow_entriesFrom name hname rfl rfl (by omega) hinside,
    settledRow_entriesFrom attributes hattributes rfl rfl (by omega) hinside⟩,
    settledRow_entriesFrom value hvalue rfl rfl (by omega) hinside⟩,
    settledRow_entriesFrom children hchildren rfl rfl (by omega) hinside⟩

theorem settledRow_entriesFrom {listing : List (Entry Facts)} {source : List Char} {s : Sensitivity}
    {around : Enclosure} {prev : Option (Node Display)} {before : Option (Node α)} (ms : List (Node α))
    {start parent : Nat} {kprev : Option Nat}
    (held : entriesFrom start parent kprev (withAllFacts source around prev (withDisplays s before ms)) <+:
      listing.drop start)
    (hbefore : kprev.bind (Table.faceAt Facts.forget (listing.map Entry.row)) = before.map (face fun _ => ()))
    (hprev : kprev.bind (Table.faceAt Facts.display (listing.map Entry.row)) = prev.map (face id))
    (hparent : parent < start)
    (haround : Table.enclosureAt (listing.map Entry.row) parent = some around) :
    ∀ e ∈ entriesFrom start parent kprev (withAllFacts source around prev (withDisplays s before ms)),
      Table.SettledRow source s (listing.map Entry.row) e.row := by
  cases ms with
  | nil => exact nofun
  | cons m ms =>
    rw [withDisplays, withAllFacts] at held ⊢
    obtain ⟨hfirst, hothers⟩ := prefix_drop_siblings held
    have hforget := faceAt_rows Facts.forget hfirst
    have hdisplay := faceAt_rows Facts.display hfirst
    rw [face_forget_withFacts, face_withDisplay] at hforget
    rw [face_display_withFacts] at hdisplay
    have fits := fits_sibling rfl hothers hbefore hprev hparent haround
    rw [entriesFrom, List.forall_mem_append]
    exact ⟨settledRow_entries m fits hfirst,
      settledRow_entriesFrom ms hothers hforget hdisplay (Nat.lt_add_right _ hparent) haround⟩

end

end Node

/-- **The rows of an annotated document are what the passes write.** -/
theorem Document.settledRow_rows (s : Sensitivity) (d : Document α) :
    ∀ r ∈ (d.annotate s).rows, Table.SettledRow d.source.toList s (d.annotate s).rows r := by
  have fits : Node.Fits (d.annotate s).rows 0 ⟨none, none, none⟩ (none : Option (Node α)) none none none :=
    ⟨rfl, rfl, rfl, rfl, nofun, rfl⟩
  intro r hr
  obtain ⟨e, he, rfl⟩ := List.mem_map.1 hr
  exact d.root.settledRow_entries fits (List.prefix_refl (d.annotate s).entries) e he

namespace Document

/-- A table of the nodes of a document, with any facts and any links but those of the root. -/
structure IsTable (d : Document α) (t : Table) : Prop where
  core_eq : t.map Row.core = d.freshRows
  root_eq : (t.map Row.place)[0]? = some ⟨none, none, none⟩

theorem isTable_freshRows (d : Document α) : d.IsTable d.freshRows where
  core_eq := by
    rw [freshRows, List.map_map]
    rfl
  root_eq := by
    obtain ⟨source, info, span, kind, name, attributes, value, children⟩ := d
    rfl

theorem isTable_rows (s : Sensitivity) (d : Document α) : d.IsTable (d.annotate s).rows where
  core_eq := by rw [map_core_rows, freshRows_annotate]
  root_eq := by
    obtain ⟨source, info, span, kind, name, attributes, value, children⟩ := d
    rfl

/-- **Annotation in place gives the annotated document**, whatever was known before. -/
theorem IsTable.annotate_eq {d : Document α} {t : Table} (h : d.IsTable t) (s : Sensitivity) :
    Table.annotate d.source.toList t s = (d.annotate s).rows :=
  Table.annotate_eq (linked_rows _) (d.settledRow_rows s) (h.core_eq.trans (d.isTable_rows s).core_eq.symm)
    (h.root_eq.trans (d.isTable_rows s).root_eq.symm)

theorem IsTable.foldl_annotate {d : Document α} {t : Table} (h : d.IsTable t) (first : Sensitivity)
    (later : List Sensitivity) :
    (first :: later).foldl (Table.annotate d.source.toList) t = (d.annotate (later.getLastD first)).rows := by
  induction later generalizing first t with
  | nil => exact h.annotate_eq first
  | cons s later ih =>
    rw [List.foldl_cons, h.annotate_eq first, ih (d.isTable_rows first), List.getLastD_cons]

theorem foldl_annotate (d : Document α) (first : Sensitivity) (later : List Sensitivity) :
    later.foldl (fun d s => d.annotate s) (d.annotate first) = d.annotate (later.getLastD first) := by
  induction later generalizing first with
  | nil => rfl
  | cons s later ih => rw [List.foldl_cons, annotate_annotate, ih, List.getLastD_cons]

/-- **Annotation forgets all earlier annotations and only decorates.** Run one after another in place, annotations leave
what the last of them writes into a fresh table, which is the annotated document. The rows keep their kinds, their
ranges and their members, and without its facts the annotated document is the document itself. -/
theorem annotations_eq_last (d : Document Unit) (first : Sensitivity) (later : List Sensitivity) :
    let last := later.getLastD first
    let once := Table.annotate d.source.toList d.freshRows last
    (first :: later).foldl (Table.annotate d.source.toList) d.freshRows = once ∧
      later.foldl (fun d s => d.annotate s) (d.annotate first) = d.annotate last ∧
      once = (d.annotate last).rows ∧ once.map Row.core = d.freshRows ∧ (d.annotate last).bare = d := by
  intro last once
  have honce : once = (d.annotate last).rows := d.isTable_freshRows.annotate_eq last
  refine ⟨?_, d.foldl_annotate first later, honce, ?_, ?_⟩
  · rw [honce]
    exact d.isTable_freshRows.foldl_annotate first later
  · rw [honce]
    exact (d.isTable_rows last).core_eq
  · rw [bare_annotate, bare, Node.bare_eq_self]

end Document

end

end LiquidTemplate
