import LiquidTemplate.Node.Listing

/-!
# The listing of a tree is its preorder

The entries of a tree are its nodes in preorder (`map_node_entries`). A walk that starts at the first number and
follows the links of the entries depth first, with the name, the attributes, the value and the children of a node
in this order, meets the numbers from zero on in order (`visits_entries`). So every number but the first is linked
from one place (`Visits.perm`). Whatever an entry refers to is in the listing (`Document.lt_of_mem_references`).
-/

namespace LiquidTemplate

namespace Node

variable {α : Type}

mutual

/-- The nodes of a tree: a node, then those of its name, its attributes, its value and its children. -/
def preorder : Node α → List (Node α)
  | ⟨info, span, kind, name, attributes, value, children⟩ =>
    ⟨info, span, kind, name, attributes, value, children⟩ ::
      (preorderOf name ++ preorderOf attributes ++ preorderOf value ++ preorderOf children)

def preorderOf : List (Node α) → List (Node α)
  | [] => []
  | n :: ns => n.preorder ++ preorderOf ns

end

mutual

theorem map_node_entries (n : Node α) (number : Nat) (parent prev next : Option Nat) :
    (n.entries number parent prev next).map Entry.node = n.preorder := by
  obtain ⟨info, span, kind, name, attributes, value, children⟩ := n
  simp only [entries, preorder, List.map_cons, List.map_append, map_node_entriesFrom]

theorem map_node_entriesFrom (ns : List (Node α)) (start parent : Nat) (prev : Option Nat) :
    (entriesFrom start parent prev ns).map Entry.node = preorderOf ns := by
  cases ns with
  | nil => rfl
  | cons n ns => simp only [entriesFrom, preorderOf, List.map_append, map_node_entries, map_node_entriesFrom]

end

mutual

theorem length_preorder (n : Node α) : n.preorder.length = n.size := by
  obtain ⟨info, span, kind, name, attributes, value, children⟩ := n
  simp only [preorder, size, List.length_cons, List.length_append, length_preorderOf]
  omega

theorem length_preorderOf (ns : List (Node α)) : (preorderOf ns).length = sizes ns := by
  cases ns with
  | nil => rfl
  | cons n ns => simp only [preorderOf, sizes, List.length_append, length_preorder, length_preorderOf]

end

theorem length_entriesFrom (ns : List (Node α)) (start parent : Nat) (prev : Option Nat) :
    (entriesFrom start parent prev ns).length = sizes ns := by
  rw [← List.length_map (f := Entry.node), map_node_entriesFrom, length_preorderOf]

theorem range'_size (k : Nat) (info : α) (span : Span) (kind : Kind) (name attributes value children : List (Node α)) :
    List.range' k (size ⟨info, span, kind, name, attributes, value, children⟩) =
      k :: (List.range' (k + 1) (sizes name) ++ List.range' (k + 1 + sizes name) (sizes attributes) ++
        List.range' (k + 1 + sizes name + sizes attributes) (sizes value) ++
        List.range' (k + 1 + sizes name + sizes attributes + sizes value) (sizes children)) := by
  rw [Nat.add_assoc _ (sizes name), Nat.add_assoc _ _ (sizes value), List.range'_append_1, List.range'_append_1,
    List.range'_append_1, ← List.range'_succ, size]
  congr 1
  omega

mutual

theorem map_number_entries (n : Node α) (number : Nat) (parent prev next : Option Nat) :
    (n.entries number parent prev next).map Entry.number = List.range' number n.size := by
  obtain ⟨info, span, kind, name, attributes, value, children⟩ := n
  rw [range'_size]
  simp only [entries, List.map_cons, List.map_append, map_number_entriesFrom]

theorem map_number_entriesFrom (ns : List (Node α)) (start parent : Nat) (prev : Option Nat) :
    (entriesFrom start parent prev ns).map Entry.number = List.range' start (sizes ns) := by
  cases ns with
  | nil => rfl
  | cons n ns =>
    simp only [entriesFrom, sizes, List.map_append, map_number_entries, map_number_entriesFrom, List.range'_append_1]

end

theorem le_of_mem_numbers {k start : Nat} {ns : List (Node α)} (h : k ∈ numbers start ns) : start ≤ k := by
  induction ns generalizing start with
  | nil => cases h
  | cons n ns ih =>
    rcases List.mem_cons.1 h with rfl | h
    · exact Nat.le_refl _
    · exact Nat.le_trans (Nat.le_add_right _ _) (ih h)

end Node

/-! ## Walks along the links -/

/-- The numbers of all nodes that a node holds. -/
def Entry.links {α : Type} (e : Entry α) : List Nat :=
  e.name ++ e.attributes ++ e.value ++ e.children

/-- A depth-first walk over a table of entries: the numbers still to be walked from, next one first, and the
numbers met on the way. -/
inductive Visits {α : Type} (table : List (Entry α)) : (stack visited : List Nat) → Prop where
  | done : Visits table [] []
  | step {k : Nat} {e : Entry α} {stack visited : List Nat} (entry : table[k]? = some e)
      (rest : Visits table (e.links ++ stack) visited) : Visits table (k :: stack) (k :: visited)

section

variable {α : Type} {table : List (Entry α)} {stack visited : List Nat}

theorem prefix_drop_append {es fs : List (Entry α)} {k : Nat} (h : es ++ fs <+: table.drop k) :
    es <+: table.drop k ∧ fs <+: table.drop (k + es.length) := by
  obtain ⟨rest, hrest⟩ := h
  refine ⟨⟨fs ++ rest, by rw [← hrest, List.append_assoc]⟩, rest, ?_⟩
  rw [← List.drop_drop, ← hrest, List.append_assoc, List.drop_left]

theorem prefix_drop_cons {e : Entry α} {es : List (Entry α)} {k : Nat} (h : e :: es <+: table.drop k) :
    table[k]? = some e ∧ es <+: table.drop (k + 1) := by
  refine ⟨?_, (@prefix_drop_append _ _ [e] es k h).2⟩
  obtain ⟨rest, hrest⟩ := h
  rw [← List.head?_drop, ← hrest, List.cons_append, List.head?_cons]

theorem range'_append_visited (k m n : Nat) (visited : List Nat) :
    List.range' k (m + n) ++ visited = List.range' k m ++ (List.range' (k + m) n ++ visited) := by
  rw [← List.append_assoc, List.range'_append_1]

namespace Node

mutual

theorem lt_of_mem_links (n : Node α) (number : Nat) (parent prev next : Option Nat) :
    ∀ e ∈ n.entries number parent prev next, ∀ k ∈ e.links, e.number < k := by
  obtain ⟨info, span, kind, name, attributes, value, children⟩ := n
  simp only [entries, List.forall_mem_cons, List.forall_mem_append]
  refine ⟨fun k hk => ?_, ⟨⟨lt_of_mem_linksFrom name _ _ _, lt_of_mem_linksFrom attributes _ _ _⟩,
    lt_of_mem_linksFrom value _ _ _⟩, lt_of_mem_linksFrom children _ _ _⟩
  simp only [Entry.links, List.mem_append] at hk
  rcases hk with ((hk | hk) | hk) | hk <;> have := le_of_mem_numbers hk <;> omega

theorem lt_of_mem_linksFrom (ns : List (Node α)) (start parent : Nat) (prev : Option Nat) :
    ∀ e ∈ entriesFrom start parent prev ns, ∀ k ∈ e.links, e.number < k := by
  cases ns with
  | nil => simp [entriesFrom]
  | cons n ns =>
    rw [entriesFrom, List.forall_mem_append]
    exact ⟨lt_of_mem_links n _ _ _ _, lt_of_mem_linksFrom ns _ _ _⟩

end

/-- The members of a node that a table holds are in the table too. -/
theorem prefix_drop_members {n : Node α} {k : Nat} {parent prev next : Option Nat}
    (held : n.entries k parent prev next <+: table.drop k) :
    entriesFrom (k + 1) k none n.name <+: table.drop (k + 1) ∧
      entriesFrom (k + 1 + sizes n.name) k none n.attributes <+: table.drop (k + 1 + sizes n.name) ∧
      entriesFrom (k + 1 + sizes n.name + sizes n.attributes) k none n.value <+:
        table.drop (k + 1 + sizes n.name + sizes n.attributes) ∧
      entriesFrom (k + 1 + sizes n.name + sizes n.attributes + sizes n.value) k none n.children <+:
        table.drop (k + 1 + sizes n.name + sizes n.attributes + sizes n.value) := by
  obtain ⟨info, span, kind, name, attributes, value, children⟩ := n
  obtain ⟨held, hchildren⟩ := prefix_drop_append (prefix_drop_cons held).2
  obtain ⟨held, hvalue⟩ := prefix_drop_append held
  obtain ⟨hname, hattributes⟩ := prefix_drop_append held
  simp only [List.length_append, length_entriesFrom, ← Nat.add_assoc] at hattributes hvalue hchildren
  exact ⟨hname, hattributes, hvalue, hchildren⟩

theorem prefix_drop_siblings {n : Node α} {ns : List (Node α)} {start parent : Nat} {prev : Option Nat}
    (held : entriesFrom start parent prev (n :: ns) <+: table.drop start) :
    n.entries start (some parent) prev (if ns.isEmpty then none else some (start + n.size)) <+: table.drop start ∧
      entriesFrom (start + n.size) parent (some start) ns <+: table.drop (start + n.size) := by
  obtain ⟨hfirst, hothers⟩ := prefix_drop_append held
  rw [← List.length_map (f := Entry.node), map_node_entries, length_preorder] at hothers
  exact ⟨hfirst, hothers⟩

mutual

theorem visits_entries (n : Node α) {k : Nat} {parent prev next : Option Nat}
    (held : n.entries k parent prev next <+: table.drop k) {stack visited : List Nat}
    (rest : Visits table stack visited) : Visits table (k :: stack) (List.range' k n.size ++ visited) := by
  obtain ⟨hname, hattributes, hvalue, hchildren⟩ := prefix_drop_members held
  obtain ⟨info, span, kind, name, attributes, value, children⟩ := n
  obtain ⟨hentry, -⟩ := prefix_drop_cons held
  have hwalk := visits_entriesFrom name hname (visits_entriesFrom attributes hattributes
    (visits_entriesFrom value hvalue (visits_entriesFrom children hchildren rest)))
  rw [range'_size, List.cons_append]
  refine .step hentry ?_
  simpa only [Entry.links, List.append_assoc] using hwalk

theorem visits_entriesFrom (ns : List (Node α)) {start parent : Nat} {prev : Option Nat}
    (held : entriesFrom start parent prev ns <+: table.drop start) {stack visited : List Nat}
    (rest : Visits table stack visited) :
    Visits table (numbers start ns ++ stack) (List.range' start (sizes ns) ++ visited) := by
  cases ns with
  | nil => exact rest
  | cons n ns =>
    obtain ⟨hfirst, hothers⟩ := prefix_drop_siblings held
    rw [sizes, range'_append_visited]
    exact visits_entries n hfirst (visits_entriesFrom ns hothers rest)

end

end Node

/-- A walk meets what it starts from and what is linked from the entries it meets, each as often as it is linked. -/
theorem Visits.perm (h : Visits table stack visited) :
    (stack ++ visited.flatMap fun k => (table[k]?.map Entry.links).getD []).Perm visited := by
  induction h with
  | done => exact .refl _
  | @step k e stack visited entry _ ih =>
    simp only [List.flatMap_cons, entry, Option.map_some, Option.getD_some, List.cons_append]
    refine .cons k (.trans ?_ ih)
    rw [← List.append_assoc]
    exact List.perm_append_comm.append_right _

theorem flatMap_range_getElem? (table : List (Entry α)) :
    ((List.range table.length).flatMap fun k => (table[k]?.map Entry.links).getD []) = table.flatMap Entry.links := by
  have htable : (List.range table.length).map (fun k => table[k]?) = table.map some :=
    List.ext_getElem (by simp) (by simp)
  calc ((List.range table.length).flatMap fun k => (table[k]?.map Entry.links).getD [])
      = ((List.range table.length).map fun k => table[k]?).flatMap fun e? => (e?.map Entry.links).getD [] := by
        rw [List.flatMap_map]
    _ = table.flatMap Entry.links := by rw [htable, List.flatMap_map]; rfl

namespace Document

theorem visits_entries (d : Document α) : Visits d.entries [0] (List.range d.size) := by
  have hwalk := d.root.visits_entries (List.prefix_refl d.entries) .done
  rwa [List.append_nil, ← List.range_eq_range'] at hwalk

theorem map_number_entries (d : Document α) : d.entries.map Entry.number = List.range d.size := by
  rw [entries, Node.map_number_entries, List.range_eq_range']
  rfl

theorem perm_links (d : Document α) : (d.entries.flatMap Entry.links).Perm (List.range' 1 (d.size - 1)) := by
  have hlength : d.entries.length = d.size := by
    rw [← List.length_map (f := Entry.number), map_number_entries, List.length_range]
  have hperm := d.visits_entries.perm
  rw [← hlength, flatMap_range_getElem?] at hperm
  obtain ⟨m, hm⟩ : ∃ m, d.size = m + 1 := by
    obtain ⟨source, info, span, kind, name, attributes, value, children⟩ := d
    exact ⟨_, by simp only [size, Node.size, Nat.add_assoc, Nat.add_comm 1]; rfl⟩
  rw [hlength, hm, List.range_eq_range', List.range'_succ, List.singleton_append] at hperm
  rw [hm]
  exact hperm.cons_inv

end Document

/-! ## References -/

def Entry.references {α : Type} (e : Entry α) : List Nat :=
  e.parent.toList ++ e.prev.toList ++ e.next.toList ++ e.links

namespace Node

theorem size_pos (n : Node α) : 0 < n.size := by
  obtain ⟨info, span, kind, name, attributes, value, children⟩ := n
  rw [size]
  omega

theorem lt_of_mem_numbers {k start : Nat} {ns : List (Node α)} (h : k ∈ numbers start ns) : k < start + sizes ns := by
  induction ns generalizing start with
  | nil => cases h
  | cons n ns ih =>
    have hsize := n.size_pos
    rw [sizes]
    rcases List.mem_cons.1 h with rfl | h
    · omega
    · have := ih h
      omega

mutual

theorem lt_of_mem_references {bound : Nat} (n : Node α) {number : Nat} (hnumber : number + n.size ≤ bound)
    {parent prev next : Option Nat} (hparent : ∀ k ∈ parent, k < bound) (hprev : ∀ k ∈ prev, k < bound)
    (hnext : ∀ k ∈ next, k < bound) :
    ∀ e ∈ n.entries number parent prev next, ∀ k ∈ e.references, k < bound := by
  obtain ⟨info, span, kind, name, attributes, value, children⟩ := n
  rw [size] at hnumber
  simp only [entries, List.forall_mem_cons, List.forall_mem_append]
  refine ⟨fun k hk => ?_, ⟨⟨?_, ?_⟩, ?_⟩, ?_⟩
  · simp only [Entry.references, Entry.links, List.mem_append, Option.mem_toList] at hk
    rcases hk with ((hk | hk) | hk) | ((hk | hk) | hk) | hk
    · exact hparent k hk
    · exact hprev k hk
    · exact hnext k hk
    all_goals
      have := lt_of_mem_numbers hk
      omega
  · exact lt_of_mem_referencesFrom name (by omega) (by omega) nofun
  · exact lt_of_mem_referencesFrom attributes (by omega) (by omega) nofun
  · exact lt_of_mem_referencesFrom value (by omega) (by omega) nofun
  · exact lt_of_mem_referencesFrom children (by omega) (by omega) nofun

theorem lt_of_mem_referencesFrom {bound : Nat} (ns : List (Node α)) {start parent : Nat}
    (hstart : start + sizes ns ≤ bound) (hparent : parent < bound) {prev : Option Nat}
    (hprev : ∀ k ∈ prev, k < bound) : ∀ e ∈ entriesFrom start parent prev ns, ∀ k ∈ e.references, k < bound := by
  cases ns with
  | nil => exact nofun
  | cons n ns =>
    have hsize := n.size_pos
    rw [sizes] at hstart
    have hself : ∀ k ∈ some start, k < bound := by
      rintro k ⟨⟩
      omega
    have hparent' : ∀ k ∈ some parent, k < bound := by
      rintro k ⟨⟩
      exact hparent
    have hnext : ∀ k ∈ (if ns.isEmpty then none else some (start + n.size)), k < bound := by
      cases ns with
      | nil => exact nofun
      | cons m ms =>
        have := m.size_pos
        rw [sizes] at hstart
        rintro k ⟨⟩
        omega
    rw [entriesFrom, List.forall_mem_append]
    exact ⟨lt_of_mem_references n (by omega) hparent' hprev hnext,
      lt_of_mem_referencesFrom ns (by omega) hparent hself⟩

end

end Node

/-- **Whatever an entry of a document refers to is an entry too.** -/
theorem Document.lt_of_mem_references (d : Document α) :
    ∀ e ∈ d.entries, ∀ k ∈ e.references, k < d.entries.length := by
  have hlength : d.entries.length = d.root.size := by
    rw [← List.length_map (f := Entry.number), map_number_entries, List.length_range]
    rfl
  rw [hlength]
  exact d.root.lt_of_mem_references (by omega) nofun nofun nofun

end

end LiquidTemplate
