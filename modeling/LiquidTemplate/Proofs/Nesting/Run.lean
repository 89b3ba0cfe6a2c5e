import LiquidTemplate.Proofs.Nesting.Derivation

/-!
# Nesting a derived list

What one token does to the state of nesting, and that a list derived by the grammar is nested from every
state: it adds the nodes that it stands for and leaves everything else as it was (`Derives.runs`).
-/

namespace LiquidTemplate

theorem bind_eq_ok {ε α β : Type} {x : Except ε α} {k : α → Except ε β} {b : β} :
    (x >>= k) = .ok b ↔ ∃ a, x = .ok a ∧ k a = .ok b := by
  constructor
  · intro h
    cases x with
    | error e => cases h
    | ok a => exact ⟨a, rfl, h⟩
  · rintro ⟨a, rfl, h⟩
    exact h

/-! ## Steps -/

namespace Frame

/-- Add a node whose opening tag the open branch reaches. -/
def extend (f : Frame) (n : Node Unit) : Frame :=
  (f.reach n.openerStop).push n

theorem foldl_extend_none (ns : List (Node Unit)) (node : Node Unit) :
    ns.foldl extend ⟨node, none⟩ = ⟨{ node with children := node.children ++ ns }, none⟩ := by
  induction ns generalizing node with
  | nil =>
    cases node
    simp
  | cons n ns ih =>
    rw [List.foldl_cons, show extend ⟨node, none⟩ n = ⟨node.push n, none⟩ from rfl, ih]
    simp [Node.push]

theorem foldl_extend_some (ns : List (Node Unit)) (node b : Node Unit) :
    ns.foldl extend ⟨node, some b⟩ =
      ⟨node, some { b with
        span := ⟨b.span.start, ns.foldl (fun stop n => max stop n.openerStop) b.span.stop⟩,
        children := b.children ++ ns }⟩ := by
  induction ns generalizing b with
  | nil =>
    cases b
    simp
  | cons n ns ih =>
    rw [List.foldl_cons, show extend ⟨node, some b⟩ n = ⟨node, some ((b.cover n.openerStop).push n)⟩ from rfl, ih]
    simp [Node.push, Node.cover]

theorem endBranch_foldl_extend (ns : List (Node Unit)) (node : Node Unit) (name : Option String) (markup : Markup)
    (opener : Delimiter) (next : Nat) :
    (ns.foldl extend ⟨node, some (.ofBranch name markup opener)⟩).endBranch next =
      ⟨node.push (.branchOf name markup opener ns next), none⟩ := by
  rw [foldl_extend_some]
  rfl

end Frame

namespace Nesting

def extend (s : Nesting) (n : Node Unit) : Nesting :=
  match s.pending with
  | f :: fs => { s with pending := f.extend n :: fs }
  | [] => { s with finished := s.finished ++ [n] }

theorem foldl_extend_nil (ns finished : List (Node Unit)) :
    ns.foldl extend ⟨finished, []⟩ = ⟨finished ++ ns, []⟩ := by
  induction ns generalizing finished with
  | nil => simp
  | cons n ns ih =>
    rw [List.foldl_cons, show extend ⟨finished, []⟩ n = ⟨finished ++ [n], []⟩ from rfl, ih]
    simp

theorem foldl_extend_cons (ns finished : List (Node Unit)) (f : Frame) (fs : List Frame) :
    ns.foldl extend ⟨finished, f :: fs⟩ = ⟨finished, ns.foldl Frame.extend f :: fs⟩ := by
  induction ns generalizing f with
  | nil => rfl
  | cons n ns ih => exact ih (f.extend n)

theorem ok_bind {β : Type} (s : Nesting) (k : Nesting → Except NestingFault β) : (Except.ok s >>= k) = k s := rfl

theorem ofTokens_strict (ts : List Token) : Node.ofTokens .strict ts = (addAll {} ts >>= complete) := rfl

theorem add_of_leafKind? {t : Token} {kind : Kind} (h : t.leafKind? = some kind) (s : Nesting) :
    s.add t = (do
      let name ← Node.ofTokens .strict t.nameParts
      let attributes ← Node.ofTokens .strict t.attributeParts
      let value ← Node.ofTokens .strict t.valueParts
      return s.extend ⟨(), t.span, kind, name, attributes, value, []⟩) := by
  have hnil : Node.ofTokens .strict [] = .ok [] := rfl
  cases Token.isLeaf_of_leafKind? h with
  | tag _ _ _ starts =>
    simp only [add, starts]
    rfl
  | text | frontMatter | comment | doctype | drop | rawTag => rfl
  | voidElement | selfClosing | rawElement | attr =>
    simp only [add, Token.nameParts, Token.attributeParts, Token.valueParts, ofTokens_strict, hnil, bind_assoc]
    rfl

theorem add_openTag (s : Nesting) (span : Span) (name attributes : List Token) :
    s.add (.openTag span name attributes) = (do
      let name ← Node.ofTokens .strict name
      let attributes ← Node.ofTokens .strict attributes
      return s.enter ⟨{ info := (), span := span, kind := .element span (.point span.stop), name := name,
                        attributes := attributes }, none⟩) := by
  simp only [add, ofTokens_strict, bind_assoc]

theorem addAll_append (s : Nesting) (ts us : List Token) :
    s.addAll (ts ++ us) = (s.addAll ts >>= fun s => s.addAll us) := by
  induction ts generalizing s with
  | nil => rfl
  | cons t ts ih =>
    simp only [List.cons_append, addAll, bind_assoc]
    exact bind_congr fun s => ih s

theorem addAll_concat (s : Nesting) (ts : List Token) (t : Token) :
    s.addAll (ts ++ [t]) = (s.addAll ts >>= fun s => s.add t) := by
  rw [addAll_append]
  refine bind_congr fun s => ?_
  rw [addAll]
  exact bind_pure (s.add t)

end Nesting

/-! ## Names -/

theorem Derives.written_eq {ts : List Token} {ns : List (Node Unit)} (h : Derives .sequence ts ns)
    (hfragment : ∀ t ∈ ts, t.isFragment = true) : ns.map Node.written = ts.map Token.written := by
  -- the induction goes through items, but never through branches: a fragment opens nothing
  have general : ∀ {p : Phrase}, Derives p ts ns → p = .sequence ∨ p = .item →
      ns.map Node.written = ts.map Token.written := by
    clear h
    intro p h hp
    induction h with
    | nil => rfl
    | cons _ _ ihfirst ihrest =>
      simp only [List.mem_append] at hfragment
      have hfirst := ihfirst (fun t ht => hfragment t (.inl ht)) (.inr rfl)
      have hrest := ihrest (fun t ht => hfragment t (.inr ht)) (.inl rfl)
      rw [List.map_append, ← hfirst, ← hrest]
      rfl
    | @leaf t kind _ _ _ isLeaf _ _ _ =>
      have ht := hfragment t (by simp)
      cases t with
      | text s =>
        cases isLeaf
        rfl
      | drop d written markup =>
        cases isLeaf
        rfl
      | _ => simp [Token.isFragment] at ht
    | element => simpa [Token.isFragment] using hfragment _ List.mem_cons_self
    | block => simpa [Token.isFragment] using hfragment _ List.mem_cons_self
    | branched => simpa [Token.isFragment] using hfragment _ List.mem_cons_self
    | lastBranch => simp at hp
    | nextBranch => simp at hp
  exact general h (.inl rfl)

theorem Derives.join_written {ts : List Token} {ns : List (Node Unit)} (h : Derives .sequence ts ns)
    (hfragment : ∀ t ∈ ts, t.isFragment = true) : String.join (ns.map Node.written) = Token.nameOf ts := by
  rw [h.written_eq hfragment, Token.nameOf]

/-! ## Runs -/

/-- What nesting the tokens of a phrase does to a state. Branches start in the open branch of a tag and leave
another one open there, which together with those before it gives the nodes of the phrase. -/
def Phrase.Runs (ts : List Token) (ns : List (Node Unit)) : Phrase → Prop
  | .sequence | .item => ∀ s : Nesting, s.addAll ts = .ok (ns.foldl Nesting.extend s)
  | .branches name markup opener stop => ∀ (finished : List (Node Unit)) (node : Node Unit) (fs : List Frame),
      ∃ f : Frame, (⟨finished, ⟨node, some (.ofBranch name markup opener)⟩ :: fs⟩ : Nesting).addAll ts =
          .ok ⟨finished, f :: fs⟩ ∧
        f.endBranch stop = ⟨{ node with children := node.children ++ ns }, none⟩

theorem Phrase.Runs.ofTokens {ts : List Token} {ns : List (Node Unit)} (h : Phrase.sequence.Runs ts ns) :
    Node.ofTokens .strict ts = .ok ns := by
  rw [Nesting.ofTokens_strict, h {}, Nesting.foldl_extend_nil]
  rfl

/-- Opening an element or a tag, filling it and leaving it adds one node. -/
theorem Nesting.leave_enter (s : Nesting) (f : Frame) (n : Node Unit) (h : n.openerStop = f.node.span.stop) :
    ∃ fs, s.enter f = ⟨s.finished, f :: fs⟩ ∧ ∀ pending, (⟨s.finished, pending⟩ : Nesting).leave n fs = s.extend n := by
  obtain ⟨finished, pending⟩ := s
  cases pending with
  | nil => exact ⟨[], rfl, fun pending => rfl⟩
  | cons g gs =>
    refine ⟨g.reach f.node.span.stop :: gs, rfl, fun pending => ?_⟩
    rw [← h]
    rfl

theorem runs_leaf {t : Token} {kind : Kind} {name attributes value : List (Node Unit)}
    (isLeaf : t.leafKind? = some kind) (names : Phrase.sequence.Runs t.nameParts name)
    (items : Phrase.sequence.Runs t.attributeParts attributes)
    (values : Phrase.sequence.Runs t.valueParts value) :
    Phrase.item.Runs [t] [⟨(), t.span, kind, name, attributes, value, []⟩] := by
  intro s
  rw [Nesting.addAll, Nesting.add_of_leafKind? isLeaf, names.ofTokens, items.ofTokens, values.ofTokens]
  rfl

theorem runs_element {opener closer : Span} {name attributes body closerName : List Token}
    {nameNodes attributeNodes children : List (Node Unit)}
    (names : Phrase.sequence.Runs name nameNodes) (items : Phrase.sequence.Runs attributes attributeNodes)
    (inside : Phrase.sequence.Runs body children)
    (same : Text.eqIgnoringCase (String.join (nameNodes.map Node.written)) (Token.nameOf closerName) = true) :
    Phrase.item.Runs (.openTag opener name attributes :: (body ++ [.closeTag closer closerName]))
      [⟨(), ⟨opener.start, closer.stop⟩, .element opener closer, nameNodes, attributeNodes, [], children⟩] := by
  intro s
  let node : Node Unit := { info := (), span := opener, kind := .element opener (.point opener.stop),
                            name := nameNodes, attributes := attributeNodes }
  let closed : Node Unit :=
    ⟨(), ⟨opener.start, closer.stop⟩, .element opener closer, nameNodes, attributeNodes, [], children⟩
  obtain ⟨fs, henter, hleave⟩ := s.leave_enter ⟨node, none⟩ closed rfl
  have hopen : s.add (.openTag opener name attributes) = .ok ⟨s.finished, ⟨node, none⟩ :: fs⟩ := by
    rw [Nesting.add_openTag, names.ofTokens, items.ofTokens, ← henter]
    rfl
  rw [Nesting.addAll, hopen, Nesting.ok_bind, Nesting.addAll_concat, inside, Nesting.foldl_extend_cons,
    Frame.foldl_extend_none, Nesting.ok_bind, Nesting.add, Nesting.closeElement]
  simp only [node, Node.spelledName, same, if_true, List.nil_append]
  rw [hleave]
  rfl

theorem runs_block {opener closer : Delimiter} {name : String} {markup : Markup} {body : List Token}
    {children : List (Node Unit)} (undivided : isBranchedTag name = false)
    (inside : Phrase.sequence.Runs body children) :
    Phrase.item.Runs (.blockOpen opener name markup :: (body ++ [.blockClose closer name]))
      [⟨(), ⟨opener.span.start, closer.span.stop⟩, .block name markup opener (some closer), [], [], [], children⟩] := by
  intro s
  let node : Node Unit := { info := (), span := opener.span, kind := .block name markup opener none }
  let closed : Node Unit :=
    ⟨(), ⟨opener.span.start, closer.span.stop⟩, .block name markup opener (some closer), [], [], [], children⟩
  obtain ⟨fs, henter, hleave⟩ := s.leave_enter ⟨node, none⟩ closed rfl
  have hopen : s.add (.blockOpen opener name markup) = .ok ⟨s.finished, ⟨node, none⟩ :: fs⟩ := by
    rw [← henter]
    simp only [Nesting.add, undivided]
    rfl
  rw [Nesting.addAll, hopen, Nesting.ok_bind, Nesting.addAll_concat, inside, Nesting.foldl_extend_cons,
    Frame.foldl_extend_none, Nesting.ok_bind]
  simp only [Nesting.add, Nesting.closeBlock, Frame.endBranch, node, if_true, List.nil_append]
  rw [hleave]
  rfl

theorem runs_branched {opener closer : Delimiter} {name : String} {markup : Markup} {body : List Token}
    {branches : List (Node Unit)} (divided : isBranchedTag name = true)
    (inside : (Phrase.branches none (.plain "") ⟨.point opener.span.stop, false, false⟩ closer.span.start).Runs
      body branches) :
    Phrase.item.Runs (.blockOpen opener name markup :: (body ++ [.blockClose closer name]))
      [⟨(), ⟨opener.span.start, closer.span.stop⟩, .block name markup opener (some closer), [], [], [], branches⟩] := by
  intro s
  let node : Node Unit := { info := (), span := opener.span, kind := .block name markup opener none }
  let first : Node Unit := .ofBranch none (.plain "") ⟨.point opener.span.stop, false, false⟩
  let closed : Node Unit :=
    ⟨(), ⟨opener.span.start, closer.span.stop⟩, .block name markup opener (some closer), [], [], [], branches⟩
  obtain ⟨fs, henter, hleave⟩ := s.leave_enter ⟨node, some first⟩ closed rfl
  have hopen : s.add (.blockOpen opener name markup) = .ok ⟨s.finished, ⟨node, some first⟩ :: fs⟩ := by
    rw [← henter]
    simp only [Nesting.add, divided]
    rfl
  obtain ⟨f, hrun, hend⟩ := inside s.finished node fs
  rw [Nesting.addAll, hopen, Nesting.ok_bind, Nesting.addAll_concat, hrun, Nesting.ok_bind]
  simp only [Nesting.add, Nesting.closeBlock, hend, node, if_true, List.nil_append]
  rw [hleave]
  rfl

theorem runs_lastBranch {name : Option String} {markup : Markup} {opener : Delimiter} {stop : Nat}
    {body : List Token} {children : List (Node Unit)} (inside : Phrase.sequence.Runs body children) :
    (Phrase.branches name markup opener stop).Runs body [.branchOf name markup opener children stop] := by
  intro finished node fs
  refine ⟨children.foldl Frame.extend ⟨node, some (.ofBranch name markup opener)⟩, ?_, ?_⟩
  · rw [inside, Nesting.foldl_extend_cons]
  · rw [Frame.endBranch_foldl_extend]
    rfl

theorem runs_nextBranch {name : Option String} {markup : Markup} {opener : Delimiter} {stop : Nat}
    {body rest : List Token} {children branches : List (Node Unit)} {nextName : String} {nextMarkup : Markup}
    {next : Delimiter} (starts : isBranchStart nextName = true) (inside : Phrase.sequence.Runs body children)
    (others : (Phrase.branches (some nextName) nextMarkup next stop).Runs rest branches) :
    (Phrase.branches name markup opener stop).Runs (body ++ .tag next nextName nextMarkup :: rest)
      (.branchOf name markup opener children next.span.start :: branches) := by
  intro finished node fs
  obtain ⟨f, hrun, hend⟩ :=
    others finished (node.push (.branchOf name markup opener children next.span.start)) fs
  refine ⟨f, ?_, by simpa [Node.push] using hend⟩
  have hfilled := Frame.endBranch_foldl_extend children node name markup opener next.span.start
  rw [Nesting.addAll_append, inside, Nesting.foldl_extend_cons, Nesting.ok_bind, Nesting.addAll, Nesting.add,
    if_pos starts]
  rw [Frame.foldl_extend_some] at hfilled ⊢
  simp only [Nesting.nextBranch, hfilled]
  exact hrun

/-- A derived list is nested from every state and adds the nodes that it stands for. -/
theorem Derives.runs {p : Phrase} {ts : List Token} {ns : List (Node Unit)} (h : Derives p ts ns)
    (hplain : ∀ t ∈ ts, t.PlainNames) : p.Runs ts ns := by
  induction h with
  | nil => exact fun s => rfl
  | cons _ _ ihfirst ihrest =>
    simp only [List.mem_append] at hplain
    intro s
    rw [Nesting.addAll_append, ihfirst fun t ht => hplain t (.inl ht)]
    exact ihrest (fun t ht => hplain t (.inr ht)) _
  | @leaf t _ _ _ _ isLeaf _ _ _ ihname ihattributes ihvalue =>
    obtain ⟨hname, hattributes, hvalue⟩ := hplain t (by simp)
    exact runs_leaf isLeaf (ihname fun u hu => .of_isFragment (hname u hu)) (ihattributes hattributes) (ihvalue hvalue)
  | element names _ _ _ same ihname ihattributes ihbody _ => 
    obtain ⟨hname, hattributes, -⟩ := hplain _ List.mem_cons_self
    rw [← names.join_written hname] at same
    exact runs_element (ihname fun u hu => .of_isFragment (hname u hu)) (ihattributes hattributes)
      (ihbody fun t ht => hplain t (by simp [ht])) same
  | block undivided _ ih => exact runs_block undivided (ih fun t ht => hplain t (by simp [ht]))
  | branched divided _ ih => exact runs_branched divided (ih fun t ht => hplain t (by simp [ht]))
  | lastBranch _ ih => exact runs_lastBranch (ih hplain)
  | nextBranch starts _ _ ih ihothers =>
    exact runs_nextBranch starts (ih fun t ht => hplain t (by simp [ht])) (ihothers fun t ht => hplain t (by simp [ht]))

end LiquidTemplate
