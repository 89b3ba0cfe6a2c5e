import LiquidTemplate.Proofs.Grammar.Everywhere
import LiquidTemplate.Proofs.Nesting.Ranges

/-!
# What a node is made of

Every node of a template stands for a token that is complete in itself, for an element or tag with what is between its
two ends, or for a branch. `Node.Formed P B` says what the lists of such a node stand for and where its branches are,
for tokens with a property `P` at offsets with a property `B`. All nodes that are derived from such tokens are formed
(`Derives.formed`), and so are those that are left open at the end (`Trails.formed`).
-/

namespace LiquidTemplate

namespace Token.Everywhere

variable {P : Token → Prop} {t : Token}

theorem inName (h : t.Everywhere P) : ∀ u ∈ t.nameParts, u.Everywhere P := by
  cases h
  assumption

theorem inAttributes (h : t.Everywhere P) : ∀ u ∈ t.attributeParts, u.Everywhere P := by
  cases h
  assumption

theorem inValue (h : t.Everywhere P) : ∀ u ∈ t.valueParts, u.Everywhere P := by
  cases h
  assumption

end Token.Everywhere

/-- The two ends of a range are offsets with a property. -/
def Span.EndsIn (B : Nat → Prop) (s : Span) : Prop :=
  B s.start ∧ B s.stop

namespace Node

def Undivided (ns : List (Node Unit)) : Prop :=
  ∀ n ∈ ns, n.isBranch = false

/-- A branch that `elsif`, `else` or `when` starts. -/
def IsLaterBranch (n : Node Unit) : Prop :=
  ∃ name markup opener, n.kind = .branch (some name) markup opener ∧ isBranchStart name = true

/-- The branches of a tag: a first one without a name, and later ones. -/
def Divided (ns : List (Node Unit)) : Prop :=
  ∃ first rest, ns = first :: rest ∧ (∃ markup opener, first.kind = .branch none markup opener) ∧
    ∀ b ∈ rest, b.IsLaterBranch

/-- A node that stands for tokens with the property `P`, between offsets with the property `B`. -/
inductive Formed (P : Token → Prop) (B : Nat → Prop) : Node Unit → Prop where
  | document {span : Span} {children : List (Node Unit)} (ends : span.EndsIn B) (undivided : Undivided children) :
      Formed P B ⟨(), span, .document, [], [], [], children⟩
  | leaf {t : Token} {kind : Kind} {name attributes value : List (Node Unit)} (token : P t)
      (isLeaf : t.leafKind? = some kind) (ends : t.span.EndsIn B) (names : Derives .sequence t.nameParts name)
      (items : Derives .sequence t.attributeParts attributes) (values : Derives .sequence t.valueParts value)
      (undivided : Undivided (name ++ attributes ++ value)) :
      Formed P B ⟨(), t.span, kind, name, attributes, value, []⟩
  | element {span opener closer : Span} {name attributes children : List (Node Unit)} {nameTokens items : List Token}
      (ends : span.EndsIn B) (opens : opener.EndsIn B) (closes : closer.EndsIn B)
      (undivided : Undivided (name ++ attributes ++ children)) (token : P (.openTag opener nameTokens items))
      (names : Derives .sequence nameTokens name) (attributeList : Derives .sequence items attributes) :
      Formed P B ⟨(), span, .element opener closer, name, attributes, [], children⟩
  | block {span : Span} {name : String} {markup : Markup} {opener : Delimiter} {closer : Option Delimiter}
      {children : List (Node Unit)} (ends : span.EndsIn B) (opens : opener.span.EndsIn B)
      (closes : ∀ c ∈ closer, c.span.EndsIn B) (plain : isBranchedTag name = false) (undivided : Undivided children) :
      Formed P B ⟨(), span, .block name markup opener closer, [], [], [], children⟩
  | branched {span : Span} {name : String} {markup : Markup} {opener : Delimiter} {closer : Option Delimiter}
      {children : List (Node Unit)} (ends : span.EndsIn B) (opens : opener.span.EndsIn B)
      (closes : ∀ c ∈ closer, c.span.EndsIn B) (branched : isBranchedTag name = true) (divided : Divided children) :
      Formed P B ⟨(), span, .block name markup opener closer, [], [], [], children⟩
  | branch {span : Span} {name : Option String} {markup : Markup} {opener : Delimiter} {children : List (Node Unit)}
      (ends : span.EndsIn B) (opens : opener.span.EndsIn B) (undivided : Undivided children) :
      Formed P B ⟨(), span, .branch name markup opener, [], [], [], children⟩

def AllFormed (P : Token → Prop) (B : Nat → Prop) (ns : List (Node Unit)) : Prop :=
  ∀ n ∈ ns, ∀ m ∈ n.preorder, m.Formed P B

section

variable {P : Token → Prop} {B : Nat → Prop} {n : Node Unit} {ns ms : List (Node Unit)}

theorem Formed.ends (h : n.Formed P B) : n.span.EndsIn B := by
  cases h <;> assumption

theorem Formed.openerStop (h : n.Formed P B) : B n.openerStop := by
  cases h with
  | document ends => exact ends.2
  | leaf _ isLeaf ends =>
    rw [(openerStop_of_leafKind? isLeaf _ _ _ _).1]
    exact ends.2
  | element _ opens => exact opens.2
  | block _ opens => exact opens.2
  | branched _ opens => exact opens.2
  | branch ends => exact ends.2

theorem Formed.branchOpener (h : n.Formed P B) {name : Option String} {markup : Markup} {opener : Delimiter}
    (hkind : n.kind = .branch name markup opener) : opener.span.EndsIn B := by
  cases h with
  | leaf _ isLeaf =>
    have hbranch := (openerStop_of_leafKind? isLeaf [] [] [] []).2
    obtain rfl := hkind
    cases hbranch
  | branch _ opens =>
    cases hkind
    exact opens
  | document | element | block | branched => cases hkind

theorem AllFormed.formed (h : AllFormed P B ns) (hn : n ∈ ns) : n.Formed P B :=
  h n hn n (mem_preorder.2 (.inl rfl))

theorem AllFormed.append (h : AllFormed P B ns) (h' : AllFormed P B ms) : AllFormed P B (ns ++ ms) :=
  List.forall_mem_append.2 ⟨h, h'⟩

theorem forall_preorder_single {Q : Node Unit → Prop} {n : Node Unit} (h : Q n)
    (hmembers : ∀ c ∈ n.members, ∀ m ∈ c.preorder, Q m) : ∀ n' ∈ [n], ∀ m ∈ n'.preorder, Q m := by
  intro n' hn' m hm
  rw [List.mem_singleton.1 hn'] at hm
  rcases mem_preorder.1 hm with rfl | ⟨c, hc, hm⟩
  · exact h
  · exact hmembers c hc m hm

theorem allFormed_single (h : n.Formed P B) (hmembers : AllFormed P B n.members) : AllFormed P B [n] :=
  forall_preorder_single h hmembers

/-- The last branch may be replaced by another one that starts in the same way. -/
theorem Divided.of_kind {m : Node Unit} (h : Divided (ns ++ [n])) (hkind : m.kind = n.kind) : Divided (ns ++ [m]) := by
  obtain ⟨first, rest, heq, hfirst, hrest⟩ := h
  cases ns with
  | nil =>
    obtain ⟨rfl, -⟩ := List.cons.inj heq
    exact ⟨m, [], rfl, hkind ▸ hfirst, by simp⟩
  | cons n' ns =>
    obtain ⟨rfl, rfl⟩ := List.cons.inj heq
    obtain ⟨hns, hn⟩ := List.forall_mem_append.1 hrest
    obtain ⟨name, markup, opener, hlater⟩ := hn n (List.mem_singleton_self _)
    refine ⟨n', ns ++ [m], rfl, hfirst, List.forall_mem_append.2 ⟨hns, ?_⟩⟩
    rw [List.forall_mem_singleton]
    exact ⟨name, markup, opener, hkind ▸ hlater⟩

theorem Undivided.append (h : Undivided ns) (h' : Undivided ms) : Undivided (ns ++ ms) :=
  List.forall_mem_append.2 ⟨h, h'⟩

/-! ## Ends of ranges -/

theorem holds_max {a b : Nat} (ha : B a) (hb : B b) : B (max a b) := by
  rcases Nat.le_total a b with h | h
  · rwa [Nat.max_eq_right h]
  · rwa [Nat.max_eq_left h]

theorem holds_min {a b : Nat} (ha : B a) (hb : B b) : B (min a b) := by
  rcases Nat.le_total a b with h | h
  · rwa [Nat.min_eq_left h]
  · rwa [Nat.min_eq_right h]

theorem holds_branchReach {opener : Delimiter} (hopener : B opener.span.stop) (hns : AllFormed P B ns) :
    B (branchReach opener ns) := by
  have hfold : ∀ stop, B stop → B (ns.foldl (fun stop n => max stop n.openerStop) stop) := by
    induction ns with
    | nil => exact fun _ h => h
    | cons n ns ih =>
      intro stop hstop
      have hmax : B (max stop n.openerStop) := holds_max hstop (hns.formed List.mem_cons_self).openerStop
      exact ih (fun m hm => hns m (List.mem_cons_of_mem _ hm)) _ hmax
  exact hfold _ hopener

theorem holds_stopOver {stop : Nat} (hstop : B stop) (hns : AllFormed P B ns) : B (stopOver stop ns) := by
  unfold stopOver
  split
  next n hlast => exact holds_max hstop (hns.formed (List.mem_of_getLast? hlast)).ends.2
  · exact hstop

end

end Node

/-! ## Derived nodes -/

/-- What is known of the nodes that a phrase stands for. -/
def Phrase.Forms : Phrase → List (Node Unit) → Prop
  | sequence, ns | item, ns => Node.Undivided ns
  | branches name markup opener _, ns =>
    ∃ first rest, ns = first :: rest ∧ first.kind = .branch name markup opener ∧ ∀ b ∈ rest, b.IsLaterBranch

/-- The offsets of an open branch have a property. -/
def Phrase.EndsIn (B : Nat → Prop) : Phrase → Prop
  | sequence | item => True
  | branches _ _ opener stop => opener.span.EndsIn B ∧ B stop

theorem Derives.eq_nil {ns : List (Node Unit)} (h : Derives .sequence [] ns) : ns = [] := by
  generalize hts : ([] : List Token) = ts at h
  cases h with
  | nil => rfl
  | cons first _ =>
    obtain ⟨rfl, -⟩ := List.append_eq_nil_iff.1 hts.symm
    cases first

section

open Node

variable {P : Token → Prop} {B : Nat → Prop}

theorem allFormed_branchOf {name : Option String} {markup : Markup} {opener : Delimiter} {children : List (Node Unit)}
    {stop : Nat} (hopener : opener.span.EndsIn B) (hstop : B stop) (hundivided : Undivided children)
    (hchildren : AllFormed P B children) : AllFormed P B [branchOf name markup opener children stop] := by
  have hends : Span.EndsIn B ⟨opener.span.start, max (min (branchReach opener children) stop) opener.span.start⟩ :=
    ⟨hopener.1, holds_max (holds_min (holds_branchReach hopener.2 hchildren) hstop) hopener.1⟩
  exact allFormed_single (.branch hends hopener hundivided) (by simpa [members, branchOf] using hchildren)

/-- **Nodes that are derived from tokens are formed.** -/
theorem Derives.formed (hB : ∀ t, P t → t.span.EndsIn B) {phrase : Phrase} {ts : List Token} {ns : List (Node Unit)}
    (h : Derives phrase ts ns) (hts : ∀ t ∈ ts, t.Everywhere P) (hphrase : phrase.EndsIn B) :
    phrase.Forms ns ∧ AllFormed P B ns := by
  induction h with
  | nil => exact ⟨by simp [Phrase.Forms, Undivided], by simp [AllFormed]⟩
  | cons first rest ih ih' =>
    obtain ⟨hts, hus⟩ := List.forall_mem_append.1 hts
    obtain ⟨hfirst, hformed⟩ := ih hts trivial
    obtain ⟨hrest, hformed'⟩ := ih' hus trivial
    exact ⟨Undivided.append hfirst hrest, hformed.append hformed'⟩
  | @leaf t kind name attributes value isLeaf names items values ih ih' ih'' =>
    have ht := hts t (by simp)
    obtain ⟨hname, hnames⟩ := ih ht.inName trivial
    obtain ⟨hattributes, hitems⟩ := ih' ht.inAttributes trivial
    obtain ⟨hvalue, hvalues⟩ := ih'' ht.inValue trivial
    have hformed : Formed P B ⟨(), t.span, kind, name, attributes, value, []⟩ :=
      .leaf ht.here isLeaf (hB t ht.here) names items values ((hname.append hattributes).append hvalue)
    refine ⟨?_, allFormed_single hformed ?_⟩
    · simpa [Phrase.Forms, Undivided] using (openerStop_of_leafKind? isLeaf name attributes value []).2
    · simpa [members] using (hnames.append hitems).append hvalues
  | @element opener closer name attributes body closerName nameNodes attributeNodes children
    closerNodes names items _ _ _
      ih ih' ih'' =>
    obtain ⟨hopen, hbody⟩ := List.forall_mem_cons.1 hts
    obtain ⟨hbody, hclose⟩ := List.forall_mem_append.1 hbody
    obtain ⟨hname, hnames⟩ := ih hopen.inName trivial
    obtain ⟨hattributes, hitems⟩ := ih' hopen.inAttributes trivial
    obtain ⟨hchildren, hinside⟩ := ih'' hbody trivial
    have hopener : opener.EndsIn B := hB _ hopen.here
    have hcloser : closer.EndsIn B := hB _ (hclose _ (List.mem_singleton_self _)).here
    refine ⟨by simp [Phrase.Forms, Undivided, isBranch], allFormed_single (.element ⟨hopener.1, hcloser.2⟩ hopener
      hcloser ((hname.append hattributes).append hchildren) hopen.here names items) ?_⟩
    simpa [members] using (hnames.append hitems).append hinside
  | @block opener closer name markup body children undivided _ ih =>
    obtain ⟨hopen, hbody⟩ := List.forall_mem_cons.1 hts
    obtain ⟨hbody, hclose⟩ := List.forall_mem_append.1 hbody
    obtain ⟨hchildren, hinside⟩ := ih hbody trivial
    have hopener : opener.span.EndsIn B := hB _ hopen.here
    have hcloser : closer.span.EndsIn B := hB _ (hclose _ (List.mem_singleton_self _)).here
    refine ⟨by simp [Phrase.Forms, Undivided, isBranch], allFormed_single (.block ⟨hopener.1, hcloser.2⟩ hopener
      (by simpa using hcloser) undivided hchildren) ?_⟩
    simpa [members] using hinside
  | @branched opener closer name markup body branches divided _ ih =>
    obtain ⟨hopen, hbody⟩ := List.forall_mem_cons.1 hts
    obtain ⟨hbody, hclose⟩ := List.forall_mem_append.1 hbody
    have hopener : opener.span.EndsIn B := hB _ hopen.here
    have hcloser : closer.span.EndsIn B := hB _ (hclose _ (List.mem_singleton_self _)).here
    obtain ⟨⟨first, rest, hns, hfirst, hrest⟩, hinside⟩ := ih hbody ⟨⟨hopener.2, hopener.2⟩, hcloser.1⟩
    refine ⟨by simp [Phrase.Forms, Undivided, isBranch], allFormed_single (.branched ⟨hopener.1, hcloser.2⟩ hopener
      (by simpa using hcloser) divided ⟨first, rest, hns, ⟨_, _, hfirst⟩, hrest⟩) ?_⟩
    simpa [members] using hinside
  | lastBranch _ ih =>
    obtain ⟨hchildren, hinside⟩ := ih hts trivial
    exact ⟨⟨_, [], rfl, rfl, by simp⟩, allFormed_branchOf hphrase.1 hphrase.2 hchildren hinside⟩
  | @nextBranch name markup opener stop body rest children branches nextName nextMarkup next starts _ _ ih ih' =>
    obtain ⟨hbody, hrest⟩ := List.forall_mem_append.1 hts
    obtain ⟨hnext, hrest⟩ := List.forall_mem_cons.1 hrest
    have hnext : next.span.EndsIn B := hB _ hnext.here
    obtain ⟨hchildren, hinside⟩ := ih hbody trivial
    obtain ⟨⟨second, others, rfl, hsecond, hothers⟩, hbranches⟩ := ih' hrest ⟨hnext, hphrase.2⟩
    refine ⟨⟨_, _, rfl, rfl, ?_⟩, (allFormed_branchOf hphrase.1 hnext.1 hchildren hinside).append hbranches⟩
    exact List.forall_mem_cons.2 ⟨⟨_, _, _, hsecond, starts⟩, hothers⟩

theorem Trails.formed (hB : ∀ t, P t → t.span.EndsIn B) {ts : List Token} {ns : List (Node Unit)} (h : Trails ts ns)
    (hts : ∀ t ∈ ts, t.Everywhere P) : Undivided ns ∧ AllFormed P B ns := by
  induction h with
  | closed items => exact items.formed hB hts trivial
  | @element us ns span name attributes body nameNodes attributeNodes children before names items _ ih =>
    obtain ⟨hus, hopen⟩ := List.forall_mem_append.1 hts
    obtain ⟨hopen, hbody⟩ := List.forall_mem_cons.1 hopen
    obtain ⟨hbefore, hformed⟩ := before.formed hB hus trivial
    obtain ⟨hname, hnames⟩ := names.formed hB hopen.inName trivial
    obtain ⟨hattributes, hitems⟩ := items.formed hB hopen.inAttributes trivial
    obtain ⟨hchildren, hinside⟩ := ih hbody
    have hopener : span.EndsIn B := hB _ hopen.here
    refine ⟨Undivided.append hbefore (by simp [Undivided, isBranch]), hformed.append (allFormed_single (.element
      ⟨hopener.1, holds_stopOver hopener.2 hinside⟩ hopener ⟨hopener.2, hopener.2⟩
      ((Undivided.append hname hattributes).append hchildren) hopen.here names items) ?_)⟩
    simpa [members] using (hnames.append hitems).append hinside
  | @block us ns opener name markup body children before undivided _ ih =>
    obtain ⟨hus, hopen⟩ := List.forall_mem_append.1 hts
    obtain ⟨hopen, hbody⟩ := List.forall_mem_cons.1 hopen
    obtain ⟨hbefore, hformed⟩ := before.formed hB hus trivial
    obtain ⟨hchildren, hinside⟩ := ih hbody
    have hopener : opener.span.EndsIn B := hB _ hopen.here
    refine ⟨Undivided.append hbefore (by simp [Undivided, isBranch]), hformed.append (allFormed_single (.block
      ⟨hopener.1, holds_stopOver hopener.2 hinside⟩ hopener (by simp) undivided hchildren) ?_)⟩
    simpa [members] using hinside
  | @branched us ns opener name markup earlier body ended children branch branchMarkup start before divided continues _
      ih =>
    obtain ⟨hus, hopen⟩ := List.forall_mem_append.1 hts
    obtain ⟨hopen, hbody⟩ := List.forall_mem_cons.1 hopen
    obtain ⟨hearlier, hbody⟩ := List.forall_mem_append.1 hbody
    obtain ⟨hbefore, hformed⟩ := before.formed hB hus trivial
    obtain ⟨hchildren, hinside⟩ := ih hbody
    have hopener : opener.span.EndsIn B := hB _ hopen.here
    -- the open branch, taken without children, is the last one behind the tokens before them
    obtain ⟨⟨first, rest, hbranches, hfirst, hrest⟩, hended⟩ :=
      (continues (@Derives.lastBranch _ _ _ opener.span.stop _ _ .nil)).formed hB (by simpa using hearlier)
        ⟨⟨hopener.2, hopener.2⟩, hopener.2⟩
    have hstart : start.span.EndsIn B :=
      (hended.formed (List.mem_append_right ended (List.mem_singleton_self _))).branchOpener rfl
    have hopenBranch : AllFormed P B [openBranch branch branchMarkup start children] := by
      refine allFormed_single (.branch ⟨hstart.1, holds_stopOver (holds_branchReach hstart.2 hinside) hinside⟩ hstart
        hchildren) ?_
      simpa [members, openBranch] using hinside
    have hall : AllFormed P B (ended ++ [openBranch branch branchMarkup start children]) :=
      AllFormed.append (fun n hn => hended n (List.mem_append_left _ hn)) hopenBranch
    have hdivided : Divided (ended ++ [openBranch branch branchMarkup start children]) :=
      Divided.of_kind ⟨first, rest, hbranches, ⟨_, _, hfirst⟩, hrest⟩ rfl
    refine ⟨Undivided.append hbefore (by simp [Undivided, isBranch]), hformed.append (allFormed_single (.branched
      ⟨hopener.1, holds_stopOver hopener.2 hall⟩ hopener (by simp) divided hdivided) ?_)⟩
    simpa [members] using hall

/-- **All nodes of a template are formed** from its tokens. -/
theorem formed_of_parse {source : String} {tokens : List Token} {strictness : Strictness} {d : Document Unit}
    (hB : ∀ t, P t → t.span.EndsIn B) (hends : Span.EndsIn B ⟨0, Text.byteSize source.toList⟩)
    (htokens : Token.ofSource source = .ok tokens) (hts : ∀ t ∈ tokens, t.Everywhere P)
    (hparse : Document.parse source strictness = .ok d) : ∀ n ∈ d.root.preorder, n.Formed P B := by
  obtain ⟨nodes, htrails, rfl⟩ := trails_of_parse htokens hparse
  obtain ⟨hundivided, hnodes⟩ := htrails.formed hB hts
  have hroot : AllFormed P B [(Document.ofNodes source nodes).root] :=
    allFormed_single (.document hends hundivided) (by simpa [members, Document.ofNodes] using hnodes)
  exact hroot _ (List.mem_singleton_self _)

end

end LiquidTemplate
