import Mathlib.Data.List.Nodup
import LiquidTemplate.Proofs.Whitespace.Repeated

/-!
# Links mirror the tree

The first pass of annotation writes for each row in which row it is listed, and between which others. A row is listed
at one place only, so that nothing is written over: `Table.Mirrors` says that the links of a table are those of its
lists. The argument is about a table whose rows stand where their lists say (`Table.Linked`) and are listed once; the
main statement is `Document.mirrors_annotate`.
-/

namespace LiquidTemplate

inductive Collection where
  | name
  | attributes
  | value
  | children
deriving DecidableEq, Repr, Inhabited

namespace Collection

/-- The lists of a row are looked at in this order. -/
def rank : Collection → Nat
  | name => 0
  | attributes => 1
  | value => 2
  | children => 3

theorem rank_injective {c c' : Collection} (h : c.rank = c'.rank) : c = c' := by
  cases c <;> cases c' <;> first | rfl | cases h

end Collection

/-- A place in a list of a row. -/
structure Slot where
  owner : Nat
  collection : Collection
  index : Nat
deriving DecidableEq, Repr, Inhabited

def Row.collection (r : Row) : Collection → List Nat
  | .name => r.name
  | .attributes => r.attributes
  | .value => r.value
  | .children => r.children

namespace Row

theorem collections_getElem? (r : Row) (c : Collection) : r.collections[c.rank]? = some (r.collection c) := by
  cases c <;> rfl

theorem collection_mem (r : Row) (c : Collection) : r.collection c ∈ r.collections :=
  List.mem_of_getElem? (r.collections_getElem? c)

theorem exists_collection {r : Row} {k : Nat} (h : k ∈ r.collections.flatten) : ∃ c, k ∈ r.collection c := by
  obtain ⟨ms, hms, hk⟩ := List.mem_flatten.1 h
  simp only [collections, List.mem_cons, List.not_mem_nil, or_false] at hms
  rcases hms with rfl | rfl | rfl | rfl
  · exact ⟨.name, hk⟩
  · exact ⟨.attributes, hk⟩
  · exact ⟨.value, hk⟩
  · exact ⟨.children, hk⟩

theorem collection_disjoint {r : Row} (hnodup : r.collections.flatten.Nodup) {c c' : Collection}
    (hlt : c.rank < c'.rank) : (r.collection c).Disjoint (r.collection c') := by
  obtain ⟨hi, hc⟩ := List.getElem?_eq_some_iff.1 (r.collections_getElem? c)
  obtain ⟨hj, hc'⟩ := List.getElem?_eq_some_iff.1 (r.collections_getElem? c')
  have hpairs := List.pairwise_iff_getElem.1 (List.nodup_flatten.1 hnodup).2 _ _ hi hj hlt
  rwa [hc, hc'] at hpairs

theorem collection_unique {r : Row} (hnodup : r.collections.flatten.Nodup) {c c' : Collection} {k : Nat}
    (h : k ∈ r.collection c) (h' : k ∈ r.collection c') : c = c' := by
  apply Collection.rank_injective
  rcases Nat.lt_trichotomy c.rank c'.rank with hlt | heq | hgt
  · exact (collection_disjoint hnodup hlt h h').elim
  · exact heq
  · exact (collection_disjoint hnodup hgt h' h).elim

end Row

namespace Table

def numberAt (t : Table) (s : Slot) : Option Nat :=
  t[s.owner]?.bind fun r => (r.collection s.collection)[s.index]?

def numberBefore (t : Table) (s : Slot) : Option Nat :=
  match s.index with
  | 0 => none
  | i + 1 => t.numberAt { s with index := i }

def numberAfter (t : Table) (s : Slot) : Option Nat :=
  t.numberAt { s with index := s.index + 1 }

/-- The links of a table are those of its lists. -/
structure Mirrors (t : Table) : Prop where
  /-- The first row is in no list and has no links to others around it. -/
  root : t[0]?.map Row.place = some ⟨none, none, none⟩ ∧ ∀ s, t.numberAt s ≠ some 0
  /-- Every other row is in one list of one row, at one place. -/
  slot : ∀ k, 0 < k → k < t.length → ∃! s, t.numberAt s = some k
  /-- A row is linked to the row that lists it and to its neighbours in the list. -/
  place : ∀ s k, t.numberAt s = some k →
    t[k]?.map Row.place = some ⟨some s.owner, t.numberBefore s, t.numberAfter s⟩
  /-- Links to the two sides are the same links. -/
  sides : ∀ (a b : Nat) (r q : Row), t[a]? = some r → t[b]? = some q →
    (r.place.next = some b ↔ q.place.prev = some a)
  ends : ∀ r ∈ t, r.firstChild = r.children.head? ∧ r.lastChild = r.children.getLast?

theorem Placed.getElem? {t : Table} {parent : Nat} {prev : Option Nat} {ms : List Nat} (h : t.Placed parent prev ms)
    {i m : Nat} (hm : ms[i]? = some m) :
    t[m]?.map Row.place = some ⟨some parent, if i = 0 then prev else ms[i - 1]?, ms[i + 1]?⟩ := by
  induction ms generalizing prev i with
  | nil => simp at hm
  | cons m' ms ih =>
    obtain ⟨hfirst, hrest⟩ := h
    cases i with
    | zero =>
      obtain rfl : m' = m := by simpa using hm
      rw [hfirst, List.head?_eq_getElem?]
      rfl
    | succ i =>
      rw [ih hrest (by simpa using hm)]
      -- the number before the second one is the first one
      cases i <;> simp

section

variable {t : Table} {s s' : Slot} {k : Nat}

theorem exists_of_numberAt (h : t.numberAt s = some k) :
    ∃ r, t[s.owner]? = some r ∧ (r.collection s.collection)[s.index]? = some k :=
  Option.bind_eq_some_iff.1 h

namespace Linked

theorem place (hlinked : Linked t) (h : t.numberAt s = some k) :
    t[k]?.map Row.place = some ⟨some s.owner, t.numberBefore s, t.numberAfter s⟩ := by
  obtain ⟨r, hr, hk⟩ := exists_of_numberAt h
  obtain ⟨owner, collection, index⟩ := s
  rw [(hlinked.placed owner r hr _ (r.collection_mem collection)).getElem? hk]
  have hnumber (i : Nat) : t.numberAt ⟨owner, collection, i⟩ = (r.collection collection)[i]? := by
    rw [numberAt, hr, Option.bind_some]
  cases index <;> simp [numberBefore, numberAfter, hnumber]

/-- Two slots with the same number are in the same row, because that row is the one it is linked to. -/
theorem slot_unique (hlinked : Linked t) (hnodup : ∀ r ∈ t, r.collections.flatten.Nodup)
    (h : t.numberAt s = some k) (h' : t.numberAt s' = some k) : s' = s := by
  have hplace := (hlinked.place h).symm.trans (hlinked.place h')
  have howner : s.owner = s'.owner := by simpa using congrArg (fun p => p.bind Place.parent) hplace
  obtain ⟨r, hr, hk⟩ := exists_of_numberAt h
  obtain ⟨r', hr', hk'⟩ := exists_of_numberAt h'
  obtain rfl : r = r' := by rw [howner, hr'] at hr; exact (Option.some.inj hr).symm
  have hrow := hnodup r (List.mem_of_getElem? hr)
  have hcollection := r.collection_unique hrow (List.mem_of_getElem? hk) (List.mem_of_getElem? hk')
  obtain ⟨owner, collection, index⟩ := s
  obtain ⟨owner', collection', index'⟩ := s'
  simp only at howner hcollection hk hk'
  subst howner hcollection
  have hlist := (List.nodup_flatten.1 hrow).1 _ (r.collection_mem collection)
  have hindex : index = index' := by
    obtain ⟨hlt, -⟩ := List.getElem?_eq_some_iff.1 hk
    exact (List.getElem?_inj hlt hlist).1 (hk.trans hk'.symm)
  rw [hindex]

theorem exists_slot (hlinked : Linked t) (hpos : 0 < k) (hk : k < t.length) : ∃ s, t.numberAt s = some k := by
  obtain ⟨j, r, hr, hmem⟩ := hlinked.held k hk (Nat.ne_of_gt hpos)
  obtain ⟨c, hc⟩ := r.exists_collection hmem
  obtain ⟨i, hi⟩ := List.getElem?_of_mem hc
  exact ⟨⟨j, c, i⟩, by rw [numberAt, hr, Option.bind_some, hi]⟩

theorem exists_slot_of_place (hlinked : Linked t) (hroot : t[0]?.map Row.place = some ⟨none, none, none⟩) {r : Row}
    (hr : t[k]? = some r) (hside : r.place ≠ ⟨none, none, none⟩) : ∃ s, t.numberAt s = some k := by
  refine hlinked.exists_slot (Nat.pos_of_ne_zero ?_) (List.getElem?_eq_some_iff.1 hr).1
  rintro rfl
  rw [hr, Option.map_some, Option.some.injEq] at hroot
  exact hside hroot

theorem sides (hlinked : Linked t) (hroot : t[0]?.map Row.place = some ⟨none, none, none⟩) {a b : Nat} {r q : Row}
    (ha : t[a]? = some r) (hb : t[b]? = some q) : r.place.next = some b ↔ q.place.prev = some a := by
  constructor
  · intro hnext
    obtain ⟨s, hs⟩ := hlinked.exists_slot_of_place hroot ha fun h => by simp [h] at hnext
    have hplace := hlinked.place hs
    rw [ha, Option.map_some, Option.some.injEq] at hplace
    rw [hplace] at hnext
    have hplace' := hlinked.place hnext
    rw [hb, Option.map_some, Option.some.injEq] at hplace'
    rw [hplace']
    exact hs
  · intro hprev
    obtain ⟨⟨owner, collection, index⟩, hs⟩ := hlinked.exists_slot_of_place hroot hb fun h => by simp [h] at hprev
    have hplace := hlinked.place hs
    rw [hb, Option.map_some, Option.some.injEq] at hplace
    rw [hplace] at hprev
    -- something is before the slot, so it is not the first one of its list
    cases index with
    | zero => cases hprev
    | succ i =>
      have hplace' := hlinked.place (s := ⟨owner, collection, i⟩) hprev
      rw [ha, Option.map_some, Option.some.injEq] at hplace'
      rw [hplace']
      exact hs

/-- **The links of a table mirror its lists** if its rows stand where these say and are listed once. -/
theorem mirrors (hlinked : Linked t) (hroot : t[0]?.map Row.place = some ⟨none, none, none⟩)
    (hnodup : ∀ r ∈ t, r.collections.flatten.Nodup) : t.Mirrors where
  root := by
    refine ⟨hroot, fun s hs => ?_⟩
    have hplace := hlinked.place hs
    rw [hroot] at hplace
    simp at hplace
  slot k hpos hk := by
    obtain ⟨s, hs⟩ := hlinked.exists_slot hpos hk
    exact ⟨s, hs, fun s' hs' => hlinked.slot_unique hnodup hs hs'⟩
  place _ _ := hlinked.place
  sides _ _ _ _ := hlinked.sides hroot
  ends r hr := Prod.mk.inj (hlinked.ends r hr)

end Linked

end

end Table

namespace Document

theorem nodup_collections_rows (d : Document Facts) : ∀ r ∈ d.rows, r.collections.flatten.Nodup := by
  intro r hr
  obtain ⟨e, he, rfl⟩ := List.mem_map.1 hr
  have hlinks : (d.entries.flatMap Entry.links).Nodup := d.perm_links.nodup_iff.2 List.nodup_range'
  have hflatten : e.row.collections.flatten = e.links := by
    simp [Row.collections, Entry.row, Entry.freshRow, Entry.links]
  rw [hflatten]
  exact (List.nodup_flatMap.1 hlinks).1 e he

/-- **The links between the nodes of a document mirror its tree.** After annotation in place the first node has no links
around it, and every other node is in one list of one node, to which it is linked as well as to its neighbours in that
list. The lists are those of the document before, and the links those of the annotated document. -/
theorem mirrors_annotate (d : Document Unit) (s : Sensitivity) :
    let t := Table.annotate d.source.toList d.freshRows s
    t = (d.annotate s).entries.map Entry.row ∧ t.length = d.size ∧ t.map Row.core = d.freshRows ∧ t.Mirrors := by
  intro t
  have hrows : t = (d.annotate s).rows := d.isTable_freshRows.annotate_eq s
  have hcore : t.map Row.core = d.freshRows := by
    rw [hrows]
    exact (d.isTable_rows s).core_eq
  have hlength : t.length = d.size := by
    have hnumbers := congrArg List.length d.map_number_entries
    rw [List.length_map, List.length_range] at hnumbers
    rw [← hnumbers, ← List.length_map (f := Row.core), hcore, freshRows, List.length_map]
  have hmirrors : (d.annotate s).rows.Mirrors := by
    have hroot := (d.isTable_rows s).root_eq
    rw [List.getElem?_map] at hroot
    exact (d.annotate s).linked_rows.mirrors hroot (d.annotate s).nodup_collections_rows
  exact ⟨hrows, hlength, hcore, hrows ▸ hmirrors⟩

end Document

end LiquidTemplate
