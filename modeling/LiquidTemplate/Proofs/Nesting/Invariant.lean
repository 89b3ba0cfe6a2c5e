import LiquidTemplate.Proofs.Nesting.Run

/-!
# What the open frames stand for

The invariant of nesting: the tokens read so far are a derived sequence, the finished nodes, followed by one
stretch of tokens for each open frame, outermost first. A stretch starts with the token that opened the
frame, and what follows it there is derived too (`Opened`). Each token keeps the invariant (`Nesting.After.add`),
so a list that leaves nothing open is derived as a whole.
-/

namespace LiquidTemplate

/-! ## Open frames -/

theorem Frame.openerStop_push (f : Frame) (n : Node Unit) : (f.push n).node.openerStop = f.node.openerStop := by
  obtain ⟨node, branch⟩ := f
  cases branch <;> rfl

/-- A frame that the first of some tokens opened and the others filled. What is open inside of it reaches up
to the offset `inner`. -/
inductive Opened (inner : Nat) : List Token → Frame → Prop where
  | element {span : Span} {name attributes body : List Token} {nameNodes attributeNodes children : List (Node Unit)}
      (fragments : ∀ t ∈ name, t.isFragment = true) (names : Derives .sequence name nameNodes)
      (items : Derives .sequence attributes attributeNodes) (inside : Derives .sequence body children) :
      Opened inner (.openTag span name attributes :: body)
        ⟨⟨(), span, .element span (.point span.stop), nameNodes, attributeNodes, [], children⟩, none⟩
  | block {opener : Delimiter} {name : String} {markup : Markup} {body : List Token} {children : List (Node Unit)}
      (undivided : isBranchedTag name = false) (inside : Derives .sequence body children) :
      Opened inner (.blockOpen opener name markup :: body)
        ⟨⟨(), opener.span, .block name markup opener none, [], [], [], children⟩, none⟩
  /-- The branches before the open one are ended, so the branches of the tag are these and whatever the open
  branch becomes the first of. -/
  | branched {opener : Delimiter} {name : String} {markup : Markup} {before body : List Token}
      {ended children : List (Node Unit)} {branch : Option String} {branchMarkup : Markup} {start : Delimiter}
      (divided : isBranchedTag name = true)
      (continues : ∀ {stop : Nat} {ts : List Token} {branches : List (Node Unit)},
        Derives (.branches branch branchMarkup start stop) ts branches →
          Derives (.branches none (.plain "") ⟨.point opener.span.stop, false, false⟩ stop) (before ++ ts)
            (ended ++ branches))
      (inside : Derives .sequence body children) :
      Opened inner (.blockOpen opener name markup :: (before ++ body))
        ⟨⟨(), opener.span, .block name markup opener none, [], [], [], ended⟩,
          some ⟨(), ⟨start.span.start, max (Node.branchReach start children) inner⟩,
            .branch branch branchMarkup start, [], [], [], children⟩⟩

namespace Opened

variable {inner : Nat} {ts us : List Token} {f : Frame} {n : Node Unit}

theorem reach (h : Opened 0 ts f) (stop : Nat) : Opened stop ts (f.reach stop) := by
  cases h with
  | element fragments names items inside => exact .element fragments names items inside
  | block undivided inside => exact .block undivided inside
  | @branched opener name markup _ _ _ _ _ _ _ divided continues inside =>
    have h := @branched stop opener name markup _ _ _ _ _ _ _ divided continues inside
    simpa [Frame.reach, Node.cover] using h

theorem branchReach_concat (opener : Delimiter) (children : List (Node Unit)) (n : Node Unit) :
    Node.branchReach opener (children ++ [n]) = max (Node.branchReach opener children) n.openerStop := by
  simp [Node.branchReach]

theorem push (h : Opened n.openerStop ts f) (hn : Derives .item us [n]) : Opened 0 (ts ++ us) (f.push n) := by
  cases h with
  | element fragments names items inside => exact .element fragments names items (inside.snoc hn)
  | block undivided inside => exact .block undivided (inside.snoc hn)
  | @branched opener name markup _ _ _ _ _ _ _ divided continues inside =>
    have h := @branched 0 opener name markup _ _ _ _ _ _ _ divided continues (inside.snoc hn)
    simpa [Frame.push, Node.push, branchReach_concat] using h

theorem extend (h : Opened 0 ts f) (hn : Derives .item us [n]) : Opened 0 (ts ++ us) (f.extend n) :=
  (h.reach n.openerStop).push hn

end Opened

/-- Open frames, innermost first, and the tokens since the outermost one was opened. -/
inductive Pending : Nat → List Token → List Frame → Prop where
  | nil {inner : Nat} : Pending inner [] []
  | cons {inner : Nat} {ts us : List Token} {f : Frame} {fs : List Frame} (first : Opened inner ts f)
      (around : Pending f.node.openerStop us fs) : Pending inner (us ++ ts) (f :: fs)

/-! ## The invariant -/

/-- The state after some tokens: the finished nodes are derived from the first of them, and the others are
those of the open frames. -/
def Nesting.After (ts : List Token) (s : Nesting) : Prop :=
  ∃ us vs, ts = us ++ vs ∧ Derives .sequence us s.finished ∧ Pending 0 vs s.pending

namespace Nesting

variable {ts us vs : List Token} {s s' : Nesting} {finished : List (Node Unit)} {n : Node Unit} {f : Frame}
  {fs : List Frame}

theorem After.empty : After [] {} :=
  ⟨[], [], rfl, .nil, .nil⟩

theorem After.extend (h : After ts s) (hn : Derives .item us [n]) : After (ts ++ us) (s.extend n) := by
  obtain ⟨before, since, rfl, hfinished, hpending⟩ := h
  obtain ⟨finished, pending⟩ := s
  cases hpending with
  | nil => exact ⟨before ++ us, [], by simp, hfinished.snoc hn, .nil⟩
  | @cons _ since others f fs first around =>
    have hstop : (f.extend n).node.openerStop = f.node.openerStop := Frame.openerStop_push _ n
    rw [← hstop] at around
    exact ⟨before, others ++ (since ++ us), by simp [List.append_assoc], hfinished, .cons (first.extend hn) around⟩

theorem After.enter {t : Token} (h : After ts s) (hf : Opened 0 [t] f) (hstop : f.node.openerStop = f.node.span.stop) :
    After (ts ++ [t]) (s.enter f) := by
  obtain ⟨before, since, rfl, hfinished, hpending⟩ := h
  obtain ⟨finished, pending⟩ := s
  cases hpending with
  | nil => exact ⟨before, [] ++ [t], by simp, hfinished, .cons hf .nil⟩
  | cons first around =>
    have hreached := Pending.cons (first.reach f.node.openerStop) around
    refine ⟨before, _, (List.append_assoc ..), hfinished, .cons hf ?_⟩
    rwa [hstop] at hreached ⊢

/-- The tokens of the innermost frame with the closer after them are an item of what is around. -/
theorem After.leave {t : Token} (h : After ts ⟨finished, f :: fs⟩)
    (hn : ∀ us, Opened 0 us f → Derives .item (us ++ [t]) [n]) (hstop : n.openerStop = f.node.openerStop)
    (pending : List Frame) : After (ts ++ [t]) (Nesting.leave ⟨finished, pending⟩ n fs) := by
  obtain ⟨before, since, rfl, hfinished, hpending⟩ := h
  cases hpending with
  | @cons _ us vs _ _ first around =>
    have hitem := hn us first
    cases around with
    | nil => exact ⟨before ++ (us ++ [t]), [], by simp, hfinished.snoc hitem, .nil⟩
    | @cons _ ws xs g gs first around =>
      rw [← hstop] at first
      rw [← g.openerStop_push n] at around
      exact ⟨before, xs ++ (ws ++ (us ++ [t])), by simp [List.append_assoc], hfinished, .cons (first.push hitem) around⟩

/-! ## Steps -/

theorem closeElement_ok {name : String} {span : Span} (h : s.closeElement name span = .ok s') :
    ∃ n fs opener closer, s.pending = ⟨n, none⟩ :: fs ∧ n.kind = .element opener closer ∧
      Text.eqIgnoringCase n.spelledName name = true ∧
      s' = s.leave { n with span := ⟨n.span.start, span.stop⟩, kind := .element opener span } fs := by
  rw [closeElement] at h
  split at h
  next n fs hpending =>
    split at h
    next opener closer hkind =>
      split at h
      next hsame => exact ⟨n, fs, opener, closer, hpending, hkind, hsame, (Except.ok.inj h).symm⟩
      · cases h
    · cases h
  · cases h

theorem closeBlock_ok {name : String} {closer : Delimiter} (h : s.closeBlock name closer = .ok s') :
    ∃ f fs markup opener old, s.pending = f :: fs ∧
      (f.endBranch closer.span.start).node.kind = .block name markup opener old ∧
      s' = s.leave { (f.endBranch closer.span.start).node with
        span := ⟨(f.endBranch closer.span.start).node.span.start, closer.span.stop⟩,
        kind := .block name markup opener (some closer) } fs := by
  rw [closeBlock] at h
  split at h
  next f fs hpending =>
    simp only at h
    split at h
    next opened markup opener old hkind =>
      split at h
      next hsame =>
        subst hsame
        exact ⟨f, fs, markup, opener, old, hpending, hkind, (Except.ok.inj h).symm⟩
      · cases h
    · cases h
  · cases h

theorem nextBranch_ok {name : String} {markup : Markup} {opener : Delimiter}
    (h : s.nextBranch name markup opener = .ok s') :
    ∃ n b fs, s.pending = ⟨n, some b⟩ :: fs ∧
      s' = ⟨s.finished,
        ⟨n.push (b.closeBranch opener.span.start), some (.ofBranch (some name) markup opener)⟩ :: fs⟩ := by
  rw [nextBranch] at h
  split at h
  next n b fs hpending => exact ⟨n, b, fs, hpending, (Except.ok.inj h).symm⟩
  · cases h

theorem derives_of_isFragment {ts : List Token} (h : ∀ t ∈ ts, t.isFragment = true) :
    ∃ ns, Derives .sequence ts ns := by
  induction ts with
  | nil => exact ⟨[], .nil⟩
  | cons t ts ih =>
    obtain ⟨ns, hns⟩ := ih fun u hu => h u (by simp [hu])
    have ht := h t (by simp)
    cases t with
    | text s => exact ⟨_, .cons (Derives.leaf (t := .text s) rfl .nil .nil .nil) hns⟩
    | drop d written markup => exact ⟨_, .cons (Derives.leaf (t := .drop d written markup) rfl .nil .nil .nil) hns⟩
    | _ => simp [Token.isFragment] at ht

/-- Lists that are nested strictly are derived. -/
def Sound (ts : List Token) : Prop :=
  ∀ ns, Node.ofTokens .strict ts = .ok ns → Derives .sequence ts ns

theorem After.leaf {t : Token} {kind : Kind} (h : After ts s) (isLeaf : t.leafKind? = some kind)
    (hname : Sound t.nameParts) (hattributes : Sound t.attributeParts) (hvalue : Sound t.valueParts)
    (hadd : s.add t = .ok s') : After (ts ++ [t]) s' := by
  rw [add_of_leafKind? isLeaf] at hadd
  obtain ⟨name, names, hadd⟩ := bind_eq_ok.1 hadd
  obtain ⟨attributes, items, hadd⟩ := bind_eq_ok.1 hadd
  obtain ⟨value, values, hadd⟩ := bind_eq_ok.1 hadd
  cases hadd
  exact h.extend (.leaf isLeaf (hname name names) (hattributes attributes items) (hvalue value values))

theorem After.openTag {span : Span} {name attributes : List Token} (h : After ts s)
    (hfragment : ∀ t ∈ name, t.isFragment = true) (hname : Sound name) (hattributes : Sound attributes)
    (hadd : s.add (.openTag span name attributes) = .ok s') : After (ts ++ [.openTag span name attributes]) s' := by
  rw [add_openTag] at hadd
  obtain ⟨nameNodes, names, hadd⟩ := bind_eq_ok.1 hadd
  obtain ⟨attributeNodes, items, hadd⟩ := bind_eq_ok.1 hadd
  cases hadd
  exact h.enter (.element hfragment (hname nameNodes names) (hattributes attributeNodes items) .nil) rfl

theorem After.blockOpen {opener : Delimiter} {name : String} {markup : Markup} (h : After ts s)
    (hadd : s.add (.blockOpen opener name markup) = .ok s') : After (ts ++ [.blockOpen opener name markup]) s' := by
  rw [add] at hadd
  cases hadd
  by_cases hname : isBranchedTag name = true
  · rw [if_pos hname]
    have hopened := @Opened.branched 0 opener name markup [] [] [] [] _ _ _ hname (fun h => h) .nil
    exact h.enter (by simpa [Node.ofBranch, Node.branchReach] using hopened) rfl
  · rw [if_neg hname]
    exact h.enter (.block (by simpa using hname) .nil) rfl

theorem After.closeTag {span : Span} {name : List Token} (h : After ts s)
    (hfragment : ∀ t ∈ name, t.isFragment = true) (hadd : s.add (.closeTag span name) = .ok s') :
    After (ts ++ [.closeTag span name]) s' := by
  rw [add] at hadd
  obtain ⟨n, fs, opener, closer, hpending, hkind, hsame, rfl⟩ := closeElement_ok hadd
  obtain ⟨finished, pending⟩ := s
  obtain rfl : pending = _ := hpending
  obtain ⟨closerNodes, closerNames⟩ := derives_of_isFragment hfragment
  refine h.leave (fun us hopened => ?_) (by simp [Node.openerStop, hkind]) _
  cases hopened with
  | element fragments names items inside =>
    cases hkind
    rw [Node.spelledName, names.join_written fragments] at hsame
    exact .element names items inside closerNames hsame
  | block => cases hkind

theorem After.blockClose {closer : Delimiter} {name : String} (h : After ts s)
    (hadd : s.add (.blockClose closer name) = .ok s') : After (ts ++ [.blockClose closer name]) s' := by
  rw [add] at hadd
  obtain ⟨f, fs, markup, opener, old, hpending, hkind, rfl⟩ := closeBlock_ok hadd
  obtain ⟨finished, pending⟩ := s
  obtain rfl : pending = _ := hpending
  have hopener : f.node.kind = .block name markup opener old := by
    obtain ⟨node, branch⟩ := f
    cases branch <;> exact hkind
  refine h.leave (fun us hopened => ?_) (by simp [Node.openerStop, hopener]) _
  cases hopened with
  | element => cases hkind
  | block undivided inside =>
    cases hkind
    exact .block undivided inside
  | branched divided continues inside =>
    cases hkind
    have hitem := @Derives.branched opener closer name markup _ _ divided (continues (.lastBranch inside))
    simpa [Frame.endBranch, Node.push, Node.closeBranch, Node.branchOf] using hitem

theorem After.nextBranch {opener : Delimiter} {name : String} {markup : Markup} (h : After ts s)
    (starts : isBranchStart name = true) (hadd : s.add (.tag opener name markup) = .ok s') :
    After (ts ++ [.tag opener name markup]) s' := by
  rw [add, if_pos starts] at hadd
  obtain ⟨n, b, fs, hpending, rfl⟩ := nextBranch_ok hadd
  obtain ⟨finished, pending⟩ := s
  obtain rfl : pending = _ := hpending
  obtain ⟨before, since, rfl, hfinished, hpending⟩ := h
  cases hpending with
  | @cons _ us vs _ _ first around =>
    refine ⟨before, vs ++ (us ++ [.tag opener name markup]), by simp [List.append_assoc], hfinished, ?_⟩
    cases first with
    | @branched tagOpener tagName tagMarkup before body ended children _ _ _ divided continues inside =>
      refine .cons ?_ around
      have hnext := @Opened.branched 0 tagOpener tagName tagMarkup (before ++ body ++ [.tag opener name markup]) []
        (ended ++ [.branchOf _ _ _ children opener.span.start]) [] (some name) markup opener divided
        (fun h => by simpa [List.append_assoc] using continues (.nextBranch starts inside h)) .nil
      simpa [Node.push, Node.closeBranch, Node.branchOf, Node.ofBranch, Node.branchReach] using hnext

def SoundParts (t : Token) : Prop :=
  Sound t.nameParts ∧ Sound t.attributeParts ∧ Sound t.valueParts

/-- One token keeps the invariant, if the lists inside it are sound. -/
theorem After.add {t : Token} (h : After ts s) (hplain : t.PlainNames) (hparts : SoundParts t)
    (hadd : s.add t = .ok s') : After (ts ++ [t]) s' := by
  obtain ⟨hfragment, -, -⟩ := hplain
  obtain ⟨hname, hattributes, hvalue⟩ := hparts
  cases hkind : t.leafKind? with
  | some kind => exact h.leaf hkind hname hattributes hvalue hadd
  | none =>
    cases t with
    | openTag span name attributes => exact h.openTag hfragment hname hattributes hadd
    | closeTag span name => exact h.closeTag hfragment hadd
    | blockOpen opener name markup => exact h.blockOpen hadd
    | blockClose closer name => exact h.blockClose hadd
    | tag opener name markup =>
      have starts : isBranchStart name = true := by simpa [Token.leafKind?] using hkind
      exact h.nextBranch starts hadd
    | _ => simp [Token.leafKind?] at hkind

/-! ## Runs -/

theorem After.addAll (h : After ts s) (hplain : ∀ t ∈ us, t.PlainNames) (hparts : ∀ t ∈ us, SoundParts t)
    (hadd : s.addAll us = .ok s') : After (ts ++ us) s' := by
  induction us generalizing ts s with
  | nil =>
    cases hadd
    simpa using h
  | cons t us ih =>
    rw [Nesting.addAll] at hadd
    obtain ⟨s₁, ht, hus⟩ := bind_eq_ok.1 hadd
    have h₁ := h.add (hplain t (by simp)) (hparts t (by simp)) ht
    have h₂ := ih h₁ (fun u hu => hplain u (by simp [hu])) (fun u hu => hparts u (by simp [hu])) hus
    simpa using h₂

theorem After.complete (h : After ts s) {ns : List (Node Unit)} (hcomplete : s.complete = .ok ns) :
    Derives .sequence ts ns := by
  obtain ⟨before, since, rfl, hfinished, hpending⟩ := h
  obtain ⟨finished, pending⟩ := s
  cases hpending with
  | nil =>
    cases hcomplete
    simpa using hfinished
  | cons => cases hcomplete

theorem sound_of_parts (hplain : ∀ t ∈ ts, t.PlainNames) (hparts : ∀ t ∈ ts, SoundParts t) : Sound ts := by
  intro ns hns
  rw [ofTokens_strict] at hns
  obtain ⟨s, hadd, hcomplete⟩ := bind_eq_ok.1 hns
  have h := After.empty.addAll hplain hparts hadd
  exact h.complete hcomplete

theorem soundParts_of_isFragment {t : Token} (h : t.isFragment = true) : SoundParts t := by
  have hnil : Sound [] := sound_of_parts (by simp) (by simp)
  cases t with
  | text | drop => exact ⟨hnil, hnil, hnil⟩
  | _ => simp [Token.isFragment] at h

theorem soundParts {t : Token} (h : t.PlainNames) : SoundParts t := by
  induction h with
  | mk name attributes value ihattributes ihvalue =>
    refine ⟨sound_of_parts ?_ ?_, sound_of_parts attributes ihattributes, sound_of_parts value ihvalue⟩
    · exact fun u hu => .of_isFragment (name u hu)
    · exact fun u hu => soundParts_of_isFragment (name u hu)

theorem sound (hplain : ∀ t ∈ ts, t.PlainNames) : Sound ts :=
  sound_of_parts hplain fun t ht => soundParts (hplain t ht)

end Nesting

end LiquidTemplate
