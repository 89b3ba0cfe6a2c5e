import LiquidTemplate.Proofs.Grammar.Tiling
import LiquidTemplate.Proofs.Nesting.Preorder
import LiquidTemplate.Proofs.Nesting.Tolerant

/-!
# Ranges in the tree

Nodes stand in the template as their tokens do: the nodes of a list follow each other, and those that a node holds
lie inside of its range. There is one exception. A branch that the next branch or the closing tag ends was extended
when a child was opened, and not again when the child was closed. So it ends with the opening tag of its last
child. The main statement is `coversMembers_of_parse`.
-/

namespace LiquidTemplate

namespace Node

/-! ## Nodes in their places -/

def members {α : Type} (n : Node α) : List (Node α) :=
  n.name ++ n.attributes ++ n.value ++ n.children

theorem mem_preorderOf {α : Type} {m : Node α} {ns : List (Node α)} :
    m ∈ preorderOf ns ↔ ∃ n ∈ ns, m ∈ n.preorder := by
  induction ns with
  | nil => simp [preorderOf]
  | cons n ns ih => simp [preorderOf, ih]

theorem mem_preorder {α : Type} {m n : Node α} : m ∈ n.preorder ↔ m = n ∨ ∃ c ∈ n.members, m ∈ c.preorder := by
  obtain ⟨info, span, kind, name, attributes, value, children⟩ := n
  simp only [preorder, members, List.mem_cons, List.mem_append, mem_preorderOf, or_and_right, exists_or]

mutual

theorem preorder_subset {α : Type} {n : Node α} (k : Node α) (h : n ∈ k.preorder) : n.preorder ⊆ k.preorder := by
  obtain ⟨info, span, kind, name, attributes, value, children⟩ := k
  simp only [preorder, List.mem_cons, List.mem_append] at h
  rcases h with rfl | ((h | h) | h) | h
  · exact List.Subset.refl _
  all_goals
    intro m hm
    simp only [preorder, List.mem_cons, List.mem_append]
  · exact .inr (.inl (.inl (.inl (preorderOf_subset name h hm))))
  · exact .inr (.inl (.inl (.inr (preorderOf_subset attributes h hm))))
  · exact .inr (.inl (.inr (preorderOf_subset value h hm)))
  · exact .inr (.inr (preorderOf_subset children h hm))

theorem preorderOf_subset {α : Type} {n : Node α} (ks : List (Node α)) (h : n ∈ preorderOf ks) :
    n.preorder ⊆ preorderOf ks := by
  cases ks with
  | nil => cases h
  | cons k ks =>
    rw [preorderOf] at h ⊢
    rcases List.mem_append.1 h with h | h
    · exact List.subset_append_of_subset_left _ (preorder_subset k h)
    · exact List.subset_append_of_subset_right _ (preorderOf_subset ks h)

end

def isBranch (n : Node Unit) : Bool :=
  match n.kind with
  | .branch _ _ _ => true
  | _ => false

/-- A node covers the nodes that it holds, but a branch may end with the opening tag of its last child. -/
def CoversMembers (n : Node Unit) : Prop :=
  ∀ c ∈ n.members, n.span.start ≤ c.span.start ∧
    (c.span.stop ≤ n.span.stop ∨
      n.isBranch = true ∧ n.children.getLast? = some c ∧ n.span.stop = c.openerStop)

/-- The opening tag of a node lies inside of its range, and so do the nodes that it holds. -/
structure IsPlaced (n : Node Unit) : Prop where
  opener : n.span.start ≤ n.openerStop ∧ n.openerStop ≤ n.span.stop
  branchOpener : ∀ {name markup opener}, n.kind = .branch name markup opener →
    opener.span.start ≤ opener.span.stop ∧ opener.span.stop ≤ n.span.stop
  members : n.CoversMembers

/-- Nodes one after the other between two offsets, with all their own nodes in place. -/
def Inside (start stop : Nat) (ns : List (Node Unit)) : Prop :=
  Span.InOrder start stop (ns.map span) ∧ ∀ n ∈ ns, ∀ m ∈ n.preorder, m.IsPlaced

section

variable {a b c : Nat} {n : Node Unit} {ns ms : List (Node Unit)}

theorem inside_nil (h : a ≤ b) : Inside a b [] :=
  ⟨h, by simp⟩

theorem Inside.widen {a' b' : Nat} (h : Inside a b ns) (ha : a' ≤ a) (hb : b ≤ b') : Inside a' b' ns :=
  ⟨h.1.widen ha hb, h.2⟩

theorem Inside.append (h : Inside a b ns) (h' : Inside b c ms) : Inside a c (ns ++ ms) :=
  ⟨by simpa using h.1.append h'.1, List.forall_mem_append.2 ⟨h.2, h'.2⟩⟩

theorem Inside.split (h : Inside a c (ns ++ ms)) : ∃ b, Inside a b ns ∧ Inside b c ms := by
  obtain ⟨horder, hplaced⟩ := h
  rw [List.map_append] at horder
  obtain ⟨b, hns, hms⟩ := horder.split
  obtain ⟨hplaced, hplaced'⟩ := List.forall_mem_append.1 hplaced
  exact ⟨b, ⟨hns, hplaced⟩, hms, hplaced'⟩

theorem Inside.bounds (h : Inside a b ns) (hn : n ∈ ns) :
    a ≤ n.span.start ∧ n.span.start ≤ n.openerStop ∧ n.openerStop ≤ n.span.stop ∧ n.span.stop ≤ b := by
  obtain ⟨hstart, -, hstop⟩ := h.1.bounds (List.mem_map_of_mem hn)
  have hopener := (h.2 n hn n (mem_preorder.2 (.inl rfl))).opener
  exact ⟨hstart, hopener.1, hopener.2, hstop⟩

theorem inside_single (hplaced : n.IsPlaced) (hmembers : ∀ c ∈ n.members, ∀ m ∈ c.preorder, m.IsPlaced)
    (hstart : a ≤ n.span.start) (hstop : n.span.stop ≤ b) : Inside a b [n] := by
  refine ⟨⟨hstart, Nat.le_trans hplaced.opener.1 hplaced.opener.2, hstop⟩, ?_⟩
  intro n' hn' m hm
  rw [List.mem_singleton.1 hn'] at hm
  rcases mem_preorder.1 hm with rfl | ⟨c, hc, hm⟩
  · exact hplaced
  · exact hmembers c hc m hm

theorem inside_of_members (hbranch : n.isBranch = false)
    (hopener : n.span.start ≤ n.openerStop ∧ n.openerStop ≤ n.span.stop)
    (hname : Inside n.span.start n.span.stop n.name) (hattributes : Inside n.span.start n.span.stop n.attributes)
    (hvalue : Inside n.span.start n.span.stop n.value) (hchildren : Inside n.span.start n.span.stop n.children)
    (hstart : a ≤ n.span.start) (hstop : n.span.stop ≤ b) : Inside a b [n] := by
  have hmember : ∀ c ∈ n.members, ∃ ns, Inside n.span.start n.span.stop ns ∧ c ∈ ns := by
    intro c hc
    simp only [members, List.mem_append] at hc
    rcases hc with ((hc | hc) | hc) | hc
    · exact ⟨_, hname, hc⟩
    · exact ⟨_, hattributes, hc⟩
    · exact ⟨_, hvalue, hc⟩
    · exact ⟨_, hchildren, hc⟩
  refine inside_single ⟨hopener, ?_, ?_⟩ ?_ hstart hstop
  · intro name markup opener hkind
    simp [isBranch, hkind] at hbranch
  · intro c hc
    obtain ⟨ns, hns, hc⟩ := hmember c hc
    obtain ⟨hle, -, -, hle'⟩ := hns.bounds hc
    exact ⟨hle, .inl hle'⟩
  · intro c hc
    obtain ⟨ns, hns, hc⟩ := hmember c hc
    exact hns.2 c hc

theorem inside_opened (hbranch : n.isBranch = false) (hname : Inside n.span.start n.openerStop n.name)
    (hattributes : Inside n.span.start n.openerStop n.attributes) (hvalue : n.value = [])
    (hchildren : Inside n.openerStop n.span.stop n.children) (hstart : a ≤ n.span.start) (hstop : n.span.stop ≤ b) :
    Inside a b [n] := by
  have hle := hname.1.le
  have hle' := hchildren.1.le
  refine inside_of_members hbranch ⟨hle, hle'⟩ (hname.widen (Nat.le_refl _) hle')
    (hattributes.widen (Nat.le_refl _) hle') ?_ (hchildren.widen hle (Nat.le_refl _)) hstart hstop
  rw [hvalue]
  exact inside_nil (Nat.le_trans hle hle')

end

/-! ## Branches -/

section

variable {a b k : Nat} {name : Option String} {markup : Markup} {opener : Delimiter} {children : List (Node Unit)}

theorem branchReach_le (hopener : opener.span.stop ≤ k) (hchildren : ∀ c ∈ children, c.openerStop ≤ k) :
    branchReach opener children ≤ k := by
  unfold branchReach
  generalize opener.span.stop = stop at hopener
  induction children generalizing stop with
  | nil => exact hopener
  | cons c children ih =>
    obtain ⟨hc, hchildren⟩ := List.forall_mem_cons.1 hchildren
    exact ih hchildren _ (Nat.max_le.2 ⟨hopener, hc⟩)

/-- A branch reaches over all children but the last, and over the opening tag of that. -/
theorem branchReach_spec (h : Inside opener.span.stop b children) :
    opener.span.stop ≤ branchReach opener children ∧ branchReach opener children ≤ b ∧
      ∀ c ∈ children, c.span.stop ≤ branchReach opener children ∨
        children.getLast? = some c ∧ branchReach opener children = c.openerStop := by
  rcases List.eq_nil_or_concat children with rfl | ⟨init, last, rfl⟩
  · exact ⟨Nat.le_refl _, h.1, by simp⟩
  · rw [List.concat_eq_append] at h ⊢
    obtain ⟨m, hinit, hlast⟩ := h.split
    have hle := hinit.1.le
    have hbounds := hlast.bounds (List.mem_singleton_self last)
    have hreach : branchReach opener init ≤ last.openerStop :=
      branchReach_le (by omega) fun c hc => by
        have := hinit.bounds hc
        omega
    rw [Opened.branchReach_concat, Nat.max_eq_right hreach]
    refine ⟨by omega, by omega, fun c hc => ?_⟩
    rcases List.mem_append.1 hc with hc | hc
    · have := hinit.bounds hc
      exact .inl (by omega)
    · rw [List.mem_singleton.1 hc]
      exact .inr ⟨by simp, rfl⟩

theorem inside_branch {stop : Nat} (hopener : opener.span.start ≤ opener.span.stop) (hstop : opener.span.stop ≤ stop)
    (hchildren : Inside opener.span.stop b children)
    (hcovers : ∀ c ∈ children, c.span.stop ≤ stop ∨ children.getLast? = some c ∧ stop = c.openerStop)
    (ha : a ≤ opener.span.start) (hb : stop ≤ b) :
    Inside a b [⟨(), ⟨opener.span.start, stop⟩, .branch name markup opener, [], [], [], children⟩] := by
  refine inside_single ⟨⟨Nat.le_trans hopener hstop, Nat.le_refl _⟩, ?_, ?_⟩ ?_ ha hb
  · rintro name' markup' opener' ⟨⟩
    exact ⟨hopener, hstop⟩
  · intro c hc
    obtain ⟨hstart, -⟩ := hchildren.bounds hc
    refine ⟨Nat.le_trans hopener hstart, ?_⟩
    rcases hcovers c hc with hle | ⟨hlast, heq⟩
    · exact .inl hle
    · exact .inr ⟨rfl, hlast, heq⟩
  · exact hchildren.2

theorem inside_branchOf (name : Option String) (markup : Markup) (hopener : opener.span.start ≤ opener.span.stop)
    (h : Inside opener.span.stop b children) :
    Inside opener.span.start b [branchOf name markup opener children b] := by
  obtain ⟨hle, hle', hcovers⟩ := branchReach_spec h
  rw [branchOf, Nat.min_eq_left hle', Nat.max_eq_left (Nat.le_trans hopener hle)]
  exact inside_branch hopener hle h hcovers (Nat.le_refl _) hle'

/-- Something open reaches over its last child and so over all of them. -/
theorem Inside.tighten (h : Inside a b children) (ha : a ≤ k) (hb : k ≤ b) :
    Inside a (stopOver k children) children ∧ k ≤ stopOver k children ∧ stopOver k children ≤ b := by
  rcases List.eq_nil_or_concat children with rfl | ⟨init, last, rfl⟩
  · exact ⟨inside_nil ha, Nat.le_refl _, hb⟩
  · rw [List.concat_eq_append] at h ⊢
    obtain ⟨m, hinit, hlast⟩ := h.split
    obtain ⟨⟨hstart, hrange, hstop⟩, hplaced⟩ := hlast
    rw [stopOver, List.getLast?_concat]
    refine ⟨hinit.append ⟨⟨hstart, hrange, ?_⟩, hplaced⟩, Nat.le_max_left _ _, Nat.max_le.2 ⟨hb, hstop⟩⟩
    exact Nat.le_max_right _ _

theorem inside_openBranch (name : Option String) (markup : Markup) (hopener : opener.span.start ≤ opener.span.stop)
    (h : Inside opener.span.stop b children) :
    Inside opener.span.start b [openBranch name markup opener children] := by
  obtain ⟨hle, hle', -⟩ := branchReach_spec h
  obtain ⟨htight, hreach, hstop⟩ := h.tighten hle hle'
  refine inside_branch hopener (Nat.le_trans hle hreach) h (fun c hc => .inl ?_) (Nat.le_refl _) hstop
  exact (htight.bounds hc).2.2.2

end

end Node

/-! ## Derived nodes -/

theorem openerStop_of_leafKind? {t : Token} {kind : Kind} (h : t.leafKind? = some kind)
    (name attributes value children : List (Node Unit)) :
    (⟨(), t.span, kind, name, attributes, value, children⟩ : Node Unit).openerStop = t.span.stop ∧
      (⟨(), t.span, kind, name, attributes, value, children⟩ : Node Unit).isBranch = false := by
  cases Token.isLeaf_of_leafKind? h <;> exact ⟨rfl, rfl⟩

/-- The tokens of a phrase stand between two offsets, and its nodes start at a third one: the same, but before the
opener of a branch that is open already. -/
def Phrase.Spans (first start stop : Nat) : Phrase → Prop
  | sequence | item => first = start
  | branches _ _ opener last => first = opener.span.start ∧ opener.span.stop = start ∧ first ≤ start ∧ last = stop

theorem Derives.inside {phrase : Phrase} {ts : List Token} {ns : List (Node Unit)} (h : Derives phrase ts ns)
    {first start stop : Nat} (hphrase : phrase.Spans first start stop) (hts : Token.Inside start stop ts) :
    Node.Inside first stop ns := by
  induction h generalizing first start stop with
  | nil =>
    obtain rfl : first = start := hphrase
    exact Node.inside_nil hts.1
  | cons _ _ ih ih' =>
    obtain rfl : first = start := hphrase
    obtain ⟨m, hts, hus⟩ := hts.split
    exact (ih rfl hts).append (ih' rfl hus)
  | @leaf t kind name attributes value isLeaf _ _ _ ih ih' ih'' =>
    obtain rfl : first = start := hphrase
    obtain ⟨hstart, hlt, ht, hstop, -⟩ := hts.uncons
    obtain ⟨hopener, hbranch⟩ := openerStop_of_leafKind? isLeaf name attributes value []
    obtain ⟨-, hname, hattributes, hvalue, hnames, hitems, hvalues⟩ := ht
    refine Node.inside_of_members hbranch ?_ (ih rfl ⟨hname, hnames⟩) (ih' rfl ⟨hattributes, hitems⟩)
      (ih'' rfl ⟨hvalue, hvalues⟩) (Node.inside_nil (Nat.le_of_lt hlt)) hstart hstop
    rw [hopener]
    exact ⟨Nat.le_of_lt hlt, Nat.le_refl _⟩
  | element _ _ _ _ _ ihname ihattributes ihbody _ =>
    obtain rfl : first = start := hphrase
    obtain ⟨hstart, -, ht, hbody, hlt, hstop⟩ := hts.between
    obtain ⟨-, hname, hattributes, -, hnames, hitems, -⟩ := ht
    exact Node.inside_opened rfl (ihname rfl ⟨hname, hnames⟩) (ihattributes rfl ⟨hattributes, hitems⟩) rfl
      ((ihbody rfl hbody).widen (Nat.le_refl _) (Nat.le_of_lt hlt)) hstart hstop
  | block _ _ ihbody =>
    obtain rfl : first = start := hphrase
    obtain ⟨hstart, hlt, -, hbody, hlt', hstop⟩ := hts.between
    have hnil := Node.inside_nil (Nat.le_of_lt hlt)
    have hchildren := (ihbody rfl hbody).widen (Nat.le_refl _) (Nat.le_of_lt hlt')
    exact Node.inside_opened rfl hnil hnil rfl hchildren hstart hstop
  | branched _ _ ihbody =>
    obtain rfl : first = start := hphrase
    obtain ⟨hstart, hlt, -, hbody, hlt', hstop⟩ := hts.between
    have hnil := Node.inside_nil (Nat.le_of_lt hlt)
    have hbranches := ihbody ⟨rfl, rfl, Nat.le_refl _, rfl⟩ hbody
    exact Node.inside_opened rfl hnil hnil rfl (hbranches.widen (Nat.le_refl _) (Nat.le_of_lt hlt')) hstart hstop
  | lastBranch _ ihbody =>
    obtain ⟨rfl, rfl, hopener, rfl⟩ := hphrase
    exact Node.inside_branchOf _ _ hopener (ihbody rfl hts)
  | nextBranch _ _ _ ihbody ihrest =>
    obtain ⟨rfl, rfl, hopener, rfl⟩ := hphrase
    obtain ⟨m, hbody, hrest⟩ := hts.split
    obtain ⟨hnext, hlt, -, hrest⟩ := hrest.uncons
    have hchildren := (ihbody rfl hbody).widen (Nat.le_refl _) hnext
    exact (Node.inside_branchOf _ _ hopener hchildren).append (ihrest ⟨rfl, rfl, Nat.le_of_lt hlt, rfl⟩ hrest)

/-! ## Nodes of a template -/

theorem Trails.inside {ts : List Token} {ns : List (Node Unit)} (h : Trails ts ns) {start stop : Nat}
    (hts : Token.Inside start stop ts) : Node.Inside start stop ns := by
  induction h generalizing start stop with
  | closed items => exact items.inside rfl hts
  | element before names items _ ih =>
    obtain ⟨m, hus, hopened⟩ := hts.split
    obtain ⟨hstart, -, ht, hbody⟩ := hopened.uncons
    obtain ⟨-, hname, hattributes, -, hnames, hitems, -⟩ := ht
    obtain ⟨hchildren, hle, hstop⟩ := (ih hbody).tighten (Nat.le_refl _) (ih hbody).1.le
    exact (before.inside rfl hus).append (Node.inside_opened rfl (names.inside rfl ⟨hname, hnames⟩)
      (items.inside rfl ⟨hattributes, hitems⟩) rfl hchildren hstart hstop)
  | block before _ _ ih =>
    obtain ⟨m, hus, hopened⟩ := hts.split
    obtain ⟨hstart, hlt, -, hbody⟩ := hopened.uncons
    have hnil := Node.inside_nil (Nat.le_of_lt hlt)
    obtain ⟨hchildren, hle, hstop⟩ := (ih hbody).tighten (Nat.le_refl _) (ih hbody).1.le
    exact (before.inside rfl hus).append (Node.inside_opened rfl hnil hnil rfl hchildren hstart hstop)
  | @branched _ _ _ _ _ _ _ ended children branch branchMarkup opener before _ continues _ ih =>
    obtain ⟨m, hus, hopened⟩ := hts.split
    obtain ⟨hstart, hlt, -, hrest⟩ := hopened.uncons
    obtain ⟨k, hearlier, hbody⟩ := hrest.split
    have hnil := Node.inside_nil (Nat.le_of_lt hlt)
    -- without its children, the open branch is the last one behind the tokens before them
    have hearlier := (continues (@Derives.lastBranch _ _ _ k _ _ .nil)).inside ⟨rfl, rfl, Nat.le_refl _, rfl⟩
      (by rwa [List.append_nil])
    obtain ⟨j, hended, hempty⟩ := hearlier.split
    obtain ⟨hj, -, -, hk⟩ := hempty.bounds (List.mem_singleton_self _)
    have hplaced := hempty.2 _ (List.mem_singleton_self _) _ (Node.mem_preorder.2 (.inl rfl))
    obtain ⟨hopener, hopener'⟩ := hplaced.branchOpener rfl
    have hchildren := (ih hbody).widen (Nat.le_trans hopener' hk) (Nat.le_refl _)
    have hbranches := (hended.widen (Nat.le_refl _) hj).append
      (Node.inside_openBranch branch branchMarkup hopener hchildren)
    obtain ⟨htight, -, hstop⟩ := hbranches.tighten (Nat.le_refl _) hbranches.1.le
    exact (before.inside rfl hus).append (Node.inside_opened rfl hnil hnil rfl htight hstart hstop)

theorem isPlaced_of_parse {source : String} {strictness : Strictness} {d : Document Unit}
    (h : Document.parse source strictness = .ok d) : ∀ n ∈ d.root.preorder, n.IsPlaced := by
  obtain ⟨tokens, htokens⟩ := ofSource_of_parse h
  obtain ⟨nodes, htrails, rfl⟩ := trails_of_parse htokens h
  have hnodes := htrails.inside (Token.ofSource_tiles htokens).inside
  rw [Nat.zero_add] at hnodes
  have hnil := Node.inside_nil hnodes.1.le
  have hroot : Node.Inside 0 (Text.byteSize source.toList) [(Document.ofNodes source nodes).root] :=
    Node.inside_of_members rfl ⟨hnodes.1.le, Nat.le_refl _⟩ hnil hnil hnil hnodes (Nat.le_refl _) (Nat.le_refl _)
  exact hroot.2 _ (List.mem_singleton_self _)

/-- **A node covers the nodes it holds**: its name, its attributes, its value and its children. Only a branch may
end before its last child does, and then it ends with the opening tag of that child. -/
theorem coversMembers_of_parse {source : String} {strictness : Strictness} {d : Document Unit}
    (h : Document.parse source strictness = .ok d) : ∀ e ∈ d.entries, e.node.CoversMembers := by
  intro e he
  have hmem : e.node ∈ d.root.preorder := by
    rw [← Node.map_node_entries _ 0 none none none]
    exact List.mem_map_of_mem he
  exact (isPlaced_of_parse h e.node hmem).members

/-- A branch with an element in it, both left open. -/
theorem coversMembers_left_open :
    ∃ d, Document.parse "\x7b% if a %\x7d<b c=\"\x7b\x7b d \x7d\x7d\">x" .tolerant = .ok d ∧ d.entries.length = 9 ∧
      ∀ e ∈ d.entries, e.node.CoversMembers := by
  obtain ⟨d, hd, hlength⟩ := exists_eq_ok (P := fun d : Document Unit => d.entries.length == 9)
    (x := Document.parse "\x7b% if a %\x7d<b c=\"\x7b\x7b d \x7d\x7d\">x" .tolerant) (by decide +kernel)
  exact ⟨d, hd, by simpa using hlength, coversMembers_of_parse hd⟩

/-- The branch ends with the opening tag of the element in it. -/
theorem branch_ends_in_child :
    ∃ d, Document.parse "\x7b% if a %\x7d<b>x</b>\x7b% endif %\x7d" .strict = .ok d ∧
      ∃ e ∈ d.entries, ∃ c ∈ e.node.children, e.node.span = ⟨10, 13⟩ ∧ c.span = ⟨10, 18⟩ := by
  obtain ⟨d, hd, hfound⟩ := exists_eq_ok
    (P := fun d : Document Unit => d.entries.any fun e => e.node.children.any fun c =>
      decide (e.node.span = ⟨10, 13⟩ ∧ c.span = ⟨10, 18⟩))
    (x := Document.parse "\x7b% if a %\x7d<b>x</b>\x7b% endif %\x7d" .strict) (by decide +kernel)
  obtain ⟨e, he, hfound⟩ := List.any_eq_true.1 hfound
  obtain ⟨c, hc, hfound⟩ := List.any_eq_true.1 hfound
  exact ⟨d, hd, e, he, c, hc, of_decide_eq_true hfound⟩

end LiquidTemplate
