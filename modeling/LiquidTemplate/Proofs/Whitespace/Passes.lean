import LiquidTemplate.Proofs.Nesting.Preorder
import LiquidTemplate.Whitespace.Facts

/-!
# Annotation in passes

A document can also be kept as a table with one row for each node, and be annotated in place. One pass over the rows
writes the links between them, four more write the facts. A step of a pass changes one row and reads others through
the links: what it reads may have been written by an earlier pass, or be left over from an earlier run.

A pass whose steps read only what none of them writes does the same to all rows (`ReadsOnly.sweep_eq_map`), and the
four passes that write facts are of this kind. The pass that writes the links settles a row once it has come to the row
that holds it (`map_linked_linkAll`). So where a run ends does not depend on what was left over (`annotate_eq`).
-/

namespace LiquidTemplate

/-! ## Tables -/

/-- Where a node stands: inside which node, and between which others. -/
structure Place where
  parent : Option Nat := none
  prev : Option Nat := none
  next : Option Nat := none
deriving DecidableEq, Repr, Inhabited

/-- A node as a table holds it, with its members by number. -/
structure Row where
  span : Span
  kind : Kind
  name : List Nat
  attributes : List Nat
  value : List Nat
  children : List Nat
  place : Place := {}
  firstChild : Option Nat := none
  lastChild : Option Nat := none
  facts : Facts := default
deriving Repr, Inhabited

abbrev Table := List Row

/-- For steps that read no facts. -/
def Facts.forget (_ : Facts) : Unit :=
  ()

namespace Row

def leaf {β : Type} (f : Facts → β) (r : Row) : Node β :=
  { info := f r.facts, span := r.span, kind := r.kind }

/-- A row as it is before any pass. -/
def core (r : Row) : Row :=
  { r with place := {}, firstChild := none, lastChild := none, facts := default }

/-- What the first pass writes, and what no pass does. -/
def linked (r : Row) : Row :=
  { r with facts := default }

/-- What is written before the last pass and read by it. -/
def styled (r : Row) : Row :=
  { r with facts := { (default : Facts) with display := r.facts.display, whiteSpace := r.facts.whiteSpace } }

def ends (r : Row) : Option Nat × Option Nat :=
  (r.firstChild, r.lastChild)

def collections (r : Row) : List (List Nat) :=
  [r.name, r.attributes, r.value, r.children]

end Row

namespace Table

variable {β : Type}

def members (f : Facts → β) (t : Table) (ks : List Nat) : List (Node β) :=
  ks.filterMap fun k => t[k]?.map (Row.leaf f)

/-- The node of a row, with nothing below its members. -/
def face (f : Facts → β) (t : Table) (r : Row) : Node β :=
  { info := f r.facts, span := r.span, kind := r.kind,
    name := t.members f r.name, attributes := t.members f r.attributes,
    value := t.members f r.value, children := t.members f r.children }

def faceAt (f : Facts → β) (t : Table) (k : Nat) : Option (Node β) :=
  t[k]?.map (t.face f)

/-! ## The passes -/

/-- Writes the places of the members of a collection. -/
def placeMembers (parent : Nat) (prev : Option Nat) : List Nat → Table → Table
  | [], t => t
  | m :: ms, t =>
    placeMembers parent (some m) ms (t.modify m fun r => { r with place := ⟨some parent, prev, ms.head?⟩ })

/-- Writes the links of a row to its first and last child, and those of its members to it and to each other. -/
def linkAt (t : Table) (k : Nat) : Table :=
  match t[k]? with
  | none => t
  | some row =>
    (row.collections.foldl (fun t ms => placeMembers k none ms t) t).modify k fun r =>
      { r with firstChild := row.children.head?, lastChild := row.children.getLast? }

def linkAll (t : Table) : Table :=
  (List.range t.length).foldl linkAt t

/-- A pass over all rows: a step changes a row and reads the table as the steps before have left it. -/
def sweep (step : Table → Row → Row) (t : Table) : Table :=
  (List.range t.length).foldl (fun t k => t.modify k (step t)) t

def setDisplay (s : Sensitivity) (t : Table) (r : Row) : Row :=
  { r with facts.display := (t.face Facts.forget r).displayAfter s (r.place.prev.bind (t.faceAt Facts.forget)) }

def setWhiteSpace (t : Table) (r : Row) : Row :=
  { r with facts.whiteSpace := (t.face Facts.forget r).whiteSpace }

def setPresence (source : List Char) (t : Table) (r : Row) : Row :=
  let n := t.face Facts.forget r
  { r with
    facts.hasLeading := n.hasLeadingIn source
    facts.hasTrailing := n.hasTrailingIn source
    facts.hasDangling := n.hasDanglingIn source }

/-- What the members of a node need to know about it, read off its row and those around it. -/
def enclosureAt (t : Table) (k : Nat) : Option Enclosure :=
  t[k]?.map fun r =>
    let n := t.face Facts.display r
    let around := r.place.parent.bind fun p => if _ : p < k then enclosureAt t p else none
    { isRoot := k = 0, display := r.facts.display, keepsLayout := r.facts.keepsLayout,
      trimsLeft := n.trimsFirst around,
      trimsRight := n.trimsLast around (r.place.next.bind (t.faceAt Facts.display)) }
termination_by k

def setMatters (t : Table) (r : Row) : Row :=
  let n := t.face Facts.display r
  let around := r.place.parent.bind t.enclosureAt
  let prev := r.place.prev.bind (t.faceAt Facts.display)
  let next := r.place.next.bind (t.faceAt Facts.display)
  { r with
    facts.leadingMatters := n.leadingMatters around prev
    facts.trailingMatters := n.trailingMatters around next
    facts.danglingMatters := n.danglingMatters around next }

/-- Annotation in place: the passes in order. -/
def annotate (source : List Char) (t : Table) (s : Sensitivity) : Table :=
  sweep setMatters (sweep (setPresence source) (sweep setWhiteSpace (sweep (setDisplay s) (linkAll t))))

/-! ## Passes that read what they do not write -/

theorem map_modify_eq {c : Row → β} {f : Row → Row} (h : ∀ r, c (f r) = c r) (t : Table) (k : Nat) :
    (t.modify k f).map c = t.map c := by
  refine List.ext_getElem? fun i => ?_
  rw [List.getElem?_map, List.getElem?_modify, List.getElem?_map]
  by_cases hk : k = i
  · simp [hk, Function.comp_def, h]
  · simp [hk]

/-- The steps of a pass read only what `keep` keeps, and do not write it. -/
structure ReadsOnly (keep : Row → Row) (step : Table → Row → Row) : Prop where
  reads : ∀ t r, step (t.map keep) r = step t r
  keeps : ∀ t r, keep (step t r) = keep r

namespace ReadsOnly

variable {keep : Row → Row} {step : Table → Row → Row}

theorem congr (h : ReadsOnly keep step) {t t' : Table} (ht : t.map keep = t'.map keep) : step t = step t' := by
  funext r
  rw [← h.reads t, ht, h.reads]

theorem getElem?_foldl (h : ReadsOnly keep step) {ks : List Nat} (hks : ks.Nodup) (t : Table) (i : Nat) :
    (ks.foldl (fun t k => t.modify k (step t)) t)[i]? = if i ∈ ks then t[i]?.map (step t) else t[i]? := by
  induction ks generalizing t with
  | nil => simp
  | cons k ks ih =>
    obtain ⟨hk, hks⟩ := List.nodup_cons.1 hks
    have hstep : step (t.modify k (step t)) = step t := h.congr (map_modify_eq (h.keeps t) t k)
    rw [List.foldl_cons, ih hks, hstep, List.getElem?_modify]
    by_cases hi : k = i
    · subst hi
      simp [hk]
    · simp [hi, Ne.symm hi]

/-- **Such a pass does the same to all rows**, although each of its steps changes the table. -/
theorem sweep_eq_map (h : ReadsOnly keep step) (t : Table) : sweep step t = t.map (step t) := by
  refine List.ext_getElem? fun i => ?_
  rw [sweep, h.getElem?_foldl List.nodup_range, List.getElem?_map]
  by_cases hi : i < t.length
  · rw [if_pos (List.mem_range.2 hi)]
  · rw [if_neg (mt List.mem_range.1 hi), List.getElem?_eq_none (Nat.le_of_not_lt hi), Option.map_none]

theorem map_keep_sweep (h : ReadsOnly keep step) (t : Table) : (sweep step t).map keep = t.map keep := by
  rw [h.sweep_eq_map, List.map_map]
  exact List.map_congr_left fun r _ => h.keeps t r

end ReadsOnly

theorem face_map {f : Facts → β} {keep : Row → Row} (hface : ∀ t r, face f t (keep r) = face f t r)
    (hleaf : ∀ r, (keep r).leaf f = r.leaf f) (t : Table) :
    face f (t.map keep) = face f t ∧ faceAt f (t.map keep) = faceAt f t := by
  have hmembers : members f (t.map keep) = members f t := by
    funext ks
    simp only [members, List.getElem?_map, Option.map_map, Function.comp_def, hleaf]
  have htable : face f (t.map keep) = face f t := by
    funext r
    simp only [face, hmembers]
  refine ⟨htable, funext fun k => ?_⟩
  simp only [faceAt, htable, List.getElem?_map, Option.map_map, Function.comp_def, hface]

theorem face_map_linked (t : Table) : face Facts.forget (t.map Row.linked) = face Facts.forget t ∧
    faceAt Facts.forget (t.map Row.linked) = faceAt Facts.forget t :=
  @face_map _ Facts.forget Row.linked (fun _ _ => rfl) (fun _ => rfl) t

theorem face_map_styled (t : Table) : face Facts.display (t.map Row.styled) = face Facts.display t ∧
    faceAt Facts.display (t.map Row.styled) = faceAt Facts.display t :=
  @face_map _ Facts.display Row.styled (fun _ _ => rfl) (fun _ => rfl) t

theorem readsOnly_setDisplay (s : Sensitivity) : ReadsOnly Row.linked (setDisplay s) where
  reads t r := by simp only [setDisplay, face_map_linked]
  keeps _ _ := rfl

theorem readsOnly_setWhiteSpace : ReadsOnly Row.linked setWhiteSpace where
  reads t r := by simp only [setWhiteSpace, face_map_linked]
  keeps _ _ := rfl

theorem readsOnly_setPresence (source : List Char) : ReadsOnly Row.linked (setPresence source) where
  reads t r := by simp only [setPresence, face_map_linked]
  keeps _ _ := rfl

theorem enclosureAt_map_styled (t : Table) (k : Nat) : enclosureAt (t.map Row.styled) k = enclosureAt t k := by
  induction k using Nat.strongRecOn with
  | _ k ih =>
    have haround (parent : Option Nat) :
        (parent.bind fun p => if _ : p < k then enclosureAt (t.map Row.styled) p else none) =
          parent.bind fun p => if _ : p < k then enclosureAt t p else none := by
      refine Option.bind_congr fun p _ => ?_
      split
      next hp => exact ih p hp
      next => rfl
    rw [enclosureAt, enclosureAt, List.getElem?_map, Option.map_map]
    simp only [face_map_styled, haround]
    rfl

theorem readsOnly_setMatters : ReadsOnly Row.styled setMatters where
  reads t r := by simp only [setMatters, face_map_styled, funext (enclosureAt_map_styled t)]
  keeps _ _ := rfl

/-! ## Links -/

/-- The rows of a collection stand inside a row and one after another. -/
def Placed (table : Table) (parent : Nat) : Option Nat → List Nat → Prop
  | _, [] => True
  | prev, m :: ms =>
    table[m]?.map Row.place = some ⟨some parent, prev, ms.head?⟩ ∧ Placed table parent (some m) ms

/-- The links of all rows are as their collections say, and each row but the first is in a collection. -/
structure Linked (table : Table) : Prop where
  placed : ∀ (k : Nat) (r : Row), table[k]? = some r → ∀ ms ∈ r.collections, table.Placed k none ms
  ends : ∀ r ∈ table, r.ends = (r.children.head?, r.children.getLast?)
  held : ∀ k < table.length, k ≠ 0 → ∃ (j : Nat) (r : Row), table[j]? = some r ∧ k ∈ r.collections.flatten

/-- Two tables agree on the row `k`, as far as `c` tells. -/
def AgreesAt (c : Row → β) (table t : Table) (k : Nat) : Prop :=
  (t.map c)[k]? = (table.map c)[k]?

section

variable {table t : Table} {k : Nat}

theorem map_foldl_placeMembers {c : Row → β} (hc : ∀ r p, c { r with place := p } = c r) (parent : Nat)
    (cs : List (List Nat)) (t : Table) :
    (cs.foldl (fun t ms => placeMembers parent none ms t) t).map c = t.map c := by
  have hmembers (ms : List Nat) (prev : Option Nat) (t : Table) :
      (placeMembers parent prev ms t).map c = t.map c := by
    induction ms generalizing prev t with
    | nil => rfl
    | cons m ms ih => rw [placeMembers, ih, map_modify_eq (by exact fun r => hc r _)]
  induction cs generalizing t with
  | nil => rfl
  | cons ms cs ih => rw [List.foldl_cons, ih, hmembers]

/-- A write of what the table has at that row settles the row and unsettles nothing. -/
theorem agreesAt_modify {c : Row → β} {f : Row → Row} {b : β} (hf : ∀ r, c (f r) = b) {m : Nat}
    (hlength : t.length = table.length) (hb : table[m]?.map c = some b) (h : AgreesAt c table t k ∨ k = m) :
    AgreesAt c table (t.modify m f) k := by
  unfold AgreesAt at h ⊢
  rw [List.getElem?_map, List.getElem?_modify, List.getElem?_map] at *
  by_cases hk : m = k
  · subst hk
    obtain ⟨r, hr, rfl⟩ := Option.map_eq_some_iff.1 hb
    have hm : m < t.length := hlength ▸ (List.getElem?_eq_some_iff.1 hr).1
    simp [hr, hm, hf]
  · simpa [hk, Ne.symm hk] using h

theorem agreesAt_placeMembers {parent : Nat} {prev : Option Nat} {ms : List Nat}
    (hlength : t.length = table.length) (hplaced : table.Placed parent prev ms)
    (h : AgreesAt Row.place table t k ∨ k ∈ ms) : AgreesAt Row.place table (placeMembers parent prev ms t) k := by
  induction ms generalizing prev t with
  | nil => exact h.resolve_right List.not_mem_nil
  | cons m ms ih =>
    refine ih (by rwa [List.length_modify]) hplaced.2 ?_
    rw [List.mem_cons, ← or_assoc] at h
    exact h.imp_left (agreesAt_modify (by exact fun _ => rfl) hlength hplaced.1)

theorem agreesAt_foldl_placeMembers {parent : Nat} {cs : List (List Nat)} (hlength : t.length = table.length)
    (hplaced : ∀ ms ∈ cs, table.Placed parent none ms) (h : AgreesAt Row.place table t k ∨ k ∈ cs.flatten) :
    AgreesAt Row.place table (cs.foldl (fun t ms => placeMembers parent none ms t) t) k := by
  induction cs generalizing t with
  | nil => exact h.resolve_right List.not_mem_nil
  | cons ms cs ih =>
    obtain ⟨hms, hcs⟩ := List.forall_mem_cons.1 hplaced
    have hlength' : (placeMembers parent none ms t).length = table.length := by
      have hkept := congrArg List.length (map_foldl_placeMembers (fun _ _ => rfl) parent [ms] t (c := Row.core))
      rw [List.length_map, List.length_map] at hkept
      exact hkept.trans hlength
    refine ih hlength' hcs ?_
    rw [List.flatten_cons, List.mem_append, ← or_assoc] at h
    exact h.imp_left (agreesAt_placeMembers hlength hms)

/-! From here on, `t` has the rows of `table` as they are before any pass. -/

theorem length_eq_of_core (hcore : t.map Row.core = table.map Row.core) : t.length = table.length := by
  simpa using congrArg List.length hcore

theorem linkAt_eq (hcore : t.map Row.core = table.map Row.core) {j : Nat} {r : Row} (hr : table[j]? = some r) :
    linkAt t j = (r.collections.foldl (fun t ms => placeMembers j none ms t) t).modify j fun row =>
      { row with firstChild := r.children.head?, lastChild := r.children.getLast? } := by
  have hj : (t.map Row.core)[j]? = some r.core := by rw [hcore, List.getElem?_map, hr, Option.map_some]
  rw [List.getElem?_map, Option.map_eq_some_iff] at hj
  obtain ⟨row, hrow, hsame⟩ := hj
  have hcollections : row.collections = r.collections := congrArg (fun r => r.collections) hsame
  have hchildren : row.children = r.children := congrArg (fun r => r.children) hsame
  rw [linkAt, hrow, ← hcollections, ← hchildren]

theorem map_core_linkAt (t : Table) (j : Nat) : (linkAt t j).map Row.core = t.map Row.core := by
  unfold linkAt
  split
  · rfl
  · rw [map_modify_eq (by exact fun _ => rfl), map_foldl_placeMembers fun _ _ => rfl]

theorem agreesAt_place_linkAt (hlinked : Linked table) {j : Nat} {r : Row} (hcore : t.map Row.core = table.map Row.core)
    (hr : table[j]? = some r) (h : AgreesAt Row.place table t k ∨ k ∈ r.collections.flatten) :
    AgreesAt Row.place table (linkAt t j) k := by
  rw [AgreesAt, linkAt_eq hcore hr, map_modify_eq (by exact fun _ => rfl)]
  exact agreesAt_foldl_placeMembers (length_eq_of_core hcore) (hlinked.placed j r hr) h

theorem agreesAt_ends_linkAt (hlinked : Linked table) {j : Nat} {r : Row} (hcore : t.map Row.core = table.map Row.core)
    (hr : table[j]? = some r) (h : AgreesAt Row.ends table t k ∨ k = j) : AgreesAt Row.ends table (linkAt t j) k := by
  have hends : table[j]?.map Row.ends = some (r.children.head?, r.children.getLast?) := by
    rw [hr, Option.map_some, hlinked.ends r (List.mem_of_getElem? hr)]
  have hkept := map_foldl_placeMembers (fun _ _ => rfl) j r.collections t (c := Row.ends)
  rw [linkAt_eq hcore hr]
  refine agreesAt_modify (by exact fun _ => rfl) ?_ hends (h.imp_left fun h => ?_)
  · rw [← length_eq_of_core hcore]
    simpa using congrArg List.length hkept
  · rwa [AgreesAt, hkept]

/-- What a step settles for one row, the run settles for all rows that it comes to. -/
theorem agreesAt_foldl_linkAt {c : Row → β} {S : Row → Nat → Prop}
    (hstep : ∀ {t : Table} {j : Nat} {r : Row}, t.map Row.core = table.map Row.core → table[j]? = some r →
      AgreesAt c table t k ∨ S r j → AgreesAt c table (linkAt t j) k)
    {ks : List Nat} (hks : ∀ j ∈ ks, j < table.length) (hcore : t.map Row.core = table.map Row.core)
    (h : AgreesAt c table t k ∨ ∃ j ∈ ks, ∃ r, table[j]? = some r ∧ S r j) :
    AgreesAt c table (ks.foldl linkAt t) k := by
  induction ks generalizing t with
  | nil => exact h.resolve_right (by simp)
  | cons j ks ih =>
    obtain ⟨hj, hks⟩ := List.forall_mem_cons.1 hks
    refine ih hks ((map_core_linkAt t j).trans hcore) ?_
    have hr := List.getElem?_eq_getElem hj
    rcases h with h | ⟨j', hj', r, hr', hsettles⟩
    · exact .inl (hstep hcore hr (.inl h))
    · rcases List.mem_cons.1 hj' with rfl | hj'
      · exact .inl (hstep hcore hr' (.inr hsettles))
      · exact .inr ⟨j', hj', r, hr', hsettles⟩

theorem map_core_linkAll (t : Table) : (linkAll t).map Row.core = t.map Row.core := by
  unfold linkAll
  generalize List.range t.length = ks
  induction ks generalizing t with
  | nil => rfl
  | cons j ks ih => rw [List.foldl_cons, ih, map_core_linkAt]

theorem agreesAt_of_le {c : Row → β} (hlength : t.length = table.length) (hk : table.length ≤ k) :
    AgreesAt c table t k := by
  rw [AgreesAt, List.getElem?_eq_none (by simpa using hlength ▸ hk), List.getElem?_eq_none (by simpa using hk)]

theorem agreesAt_linked (hcore : AgreesAt Row.core table t k) (hplace : AgreesAt Row.place table t k)
    (hends : AgreesAt Row.ends table t k) : AgreesAt Row.linked table t k := by
  unfold AgreesAt at *
  rw [List.getElem?_map, List.getElem?_map] at *
  cases ht : t[k]? with
  | none =>
    rw [ht, Option.map_none] at hcore
    rw [Option.map_none, Option.map_eq_none_iff.1 hcore.symm, Option.map_none]
  | some row =>
    rw [ht, Option.map_some] at hcore hplace hends
    obtain ⟨r, hr, hcore⟩ := Option.map_eq_some_iff.1 hcore.symm
    rw [hr, Option.map_some, Option.some.injEq] at hplace hends
    have hlinked (r : Row) :
        r.linked = { r.core with place := r.place, firstChild := r.ends.1, lastChild := r.ends.2 } := rfl
    rw [hr, Option.map_some, Option.map_some, hlinked, hlinked, hcore, hplace, hends]

/-- **The first pass links the rows whatever their links were before**, except for the place of the first row. -/
theorem map_linked_linkAll (hlinked : Linked table) (hcore : t.map Row.core = table.map Row.core)
    (hroot : AgreesAt Row.place table t 0) : (linkAll t).map Row.linked = table.map Row.linked := by
  have hlength := length_eq_of_core hcore
  have hcore' : (linkAll t).map Row.core = table.map Row.core := (map_core_linkAll t).trans hcore
  have hrange (j : Nat) : j ∈ List.range t.length ↔ j < table.length := hlength ▸ List.mem_range
  refine List.ext_getElem? fun k => ?_
  rcases Nat.lt_or_ge k table.length with hk | hk
  · refine agreesAt_linked (congrArg (·[k]?) hcore') ?_ ?_
    · refine agreesAt_foldl_linkAt (agreesAt_place_linkAt hlinked) (fun j => (hrange j).1) hcore ?_
        (S := fun r _ => k ∈ r.collections.flatten)
      by_cases hzero : k = 0
      · exact .inl (hzero ▸ hroot)
      · obtain ⟨j, r, hr, hmem⟩ := hlinked.held k hk hzero
        exact .inr ⟨j, (hrange j).2 (List.getElem?_eq_some_iff.1 hr).1, r, hr, hmem⟩
    · refine agreesAt_foldl_linkAt (agreesAt_ends_linkAt hlinked) (fun j => (hrange j).1) hcore ?_
        (S := fun _ j => k = j)
      exact .inr ⟨k, (hrange k).2 hk, _, List.getElem?_eq_getElem hk, rfl⟩
  · exact agreesAt_of_le (length_eq_of_core hcore') hk

/-! ## Runs -/

/-- No pass changes a row of the table any more. -/
structure SettledRow (source : List Char) (s : Sensitivity) (table : Table) (r : Row) : Prop where
  display : setDisplay s table r = r
  whiteSpace : setWhiteSpace table r = r
  presence : setPresence source table r = r
  matters : setMatters table r = r

def restyled (source : List Char) (s : Sensitivity) (table : Table) (r : Row) : Row :=
  setPresence source table (setWhiteSpace table (setDisplay s table r))

theorem ReadsOnly.sweep_congr {keep : Row → Row} {step : Table → Row → Row} (h : ReadsOnly keep step)
    (ht : t.map keep = table.map keep) : sweep step t = t.map (step table) := by
  rw [h.sweep_eq_map, h.congr ht]

theorem sweeps_eq_map (source : List Char) (s : Sensitivity) (ht : t.map Row.linked = table.map Row.linked) :
    sweep (setPresence source) (sweep setWhiteSpace (sweep (setDisplay s) t)) = t.map (restyled source s table) := by
  have hdisplay := ((readsOnly_setDisplay s).map_keep_sweep t).trans ht
  have hwhiteSpace := (readsOnly_setWhiteSpace.map_keep_sweep _).trans hdisplay
  rw [(readsOnly_setPresence source).sweep_congr hwhiteSpace, readsOnly_setWhiteSpace.sweep_congr hdisplay,
    (readsOnly_setDisplay s).sweep_congr ht, List.map_map, List.map_map]
  rfl

theorem map_eq_of_linked {g : Row → β} (hg : ∀ r, g r.linked = g r) (ht : t.map Row.linked = table.map Row.linked) :
    t.map g = table.map g := by
  have hmap (t : Table) : t.map g = (t.map Row.linked).map g := by
    rw [List.map_map]
    exact List.map_congr_left fun r _ => (hg r).symm
  rw [hmap, ht, ← hmap]

/-- **A run ends in the same table from whatever an earlier run has left**: it writes each fact of each row, and before
it is read. -/
theorem annotate_eq {source : List Char} {s : Sensitivity} (hlinked : Linked table)
    (hsettled : ∀ r ∈ table, SettledRow source s table r) (hcore : t.map Row.core = table.map Row.core)
    (hroot : AgreesAt Row.place table t 0) : annotate source t s = table := by
  have hlinks := map_linked_linkAll hlinked hcore hroot
  have hrestyled (r : Row) (hr : r ∈ table) : restyled source s table r = r := by
    rw [restyled, (hsettled r hr).display, (hsettled r hr).whiteSpace, (hsettled r hr).presence]
  have hstyled : ((linkAll t).map (restyled source s table)).map Row.styled = table.map Row.styled := by
    rw [List.map_map, map_eq_of_linked (by exact fun _ => rfl) hlinks]
    exact List.map_congr_left fun r hr => congrArg Row.styled (hrestyled r hr)
  -- Nothing of the facts that a row has had is left in it.
  have hoverwrites (r : Row) :
      setMatters table (restyled source s table r.linked) = setMatters table (restyled source s table r) := rfl
  calc annotate source t s
      = (linkAll t).map (setMatters table ∘ restyled source s table) := by
        rw [annotate, sweeps_eq_map source s hlinks, readsOnly_setMatters.sweep_congr hstyled, List.map_map]
    _ = table.map (setMatters table ∘ restyled source s table) := map_eq_of_linked hoverwrites hlinks
    _ = table.map id := List.map_congr_left fun r hr => by
        rw [Function.comp_apply, hrestyled r hr, (hsettled r hr).matters, id]
    _ = table := List.map_id table

end

end Table

end LiquidTemplate
