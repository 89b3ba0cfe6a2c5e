import LiquidTemplate.Proofs.Grammar.Tiling
import LiquidTemplate.Proofs.Nesting.Closing

/-!
# What a fault points at

Tokens are nested list by list: those of the template, and the attributes and the value of each token on their own
(`Token.ListIn`). What is open after some tokens can be told from the tokens alone: an opening token from which on the
list would be one item if a closing token followed (`StillOpen`). The frame on top of the stack is that item
(`Nesting.After.stillOpen`), and an empty stack means that there is none (`StillOpen.openItem`). So a fault names the
closing token that does not fit, in the list where it stands, and the innermost item that is open there
(`parse_fault_located`).
-/

namespace LiquidTemplate

namespace Token

/-- What a token is called in a fault, if it closes something or starts a branch. -/
def closerName? : Token → Option String
  | closeTag _ name => some (nameOf name)
  | blockClose _ name => some ("end" ++ name)
  | tag _ name _ => if isBranchStart name then some name else none
  | _ => none

/-- The element or tag that a token opens, with the range of the token. -/
def opened? : Token → Option OpenItem
  | openTag span name _ => some ⟨nameOf name, span⟩
  | blockOpen d name _ => some ⟨name, d.span⟩
  | _ => none

/-- The lists of a template that are nested on their own and may hold more than texts and drops. -/
inductive ListIn (tokens : List Token) : List Token → Prop where
  | template : ListIn tokens tokens
  | attributes {ts : List Token} {t : Token} (list : ListIn tokens ts) (mem : t ∈ ts) : ListIn tokens t.attributeParts
  | value {ts : List Token} {t : Token} (list : ListIn tokens ts) (mem : t ∈ ts) : ListIn tokens t.valueParts

end Token

/-- The innermost item that is open after some tokens: nothing closes it, and nothing is open inside of it, so a
closing token would make an item of what follows its opening token. -/
def StillOpen (ts : List Token) (item : OpenItem) : Prop :=
  ∃ earlier opener body closer n, ts = earlier ++ opener :: body ∧ opener.opened? = some item ∧
    Derives .item (opener :: (body ++ [closer])) [n]

/-! ## The top of the stack -/

namespace Frame

theorem openItem_push (f : Frame) (n : Node Unit) : (f.push n).openItem = f.openItem := by
  obtain ⟨node, branch⟩ := f
  cases branch <;> rfl

theorem openItem_endBranch (f : Frame) (next : Nat) : (f.endBranch next).openItem = f.openItem := by
  obtain ⟨node, branch⟩ := f
  cases branch <;> rfl

theorem openItem_extend (f : Frame) (n : Node Unit) : (f.extend n).openItem = f.openItem :=
  openItem_push _ n

theorem openItem_foldl_extend (ns : List (Node Unit)) (f : Frame) : (ns.foldl extend f).openItem = f.openItem := by
  induction ns generalizing f with
  | nil => rfl
  | cons n ns ih => rw [List.foldl_cons, ih, openItem_extend]

end Frame

namespace Opened

variable {inner : Nat} {ts : List Token} {f : Frame}

theorem exists_closed (h : Opened inner ts f) : ∃ opener body closer n, ts = opener :: body ∧
    opener.opened? = some f.openItem ∧ Derives .item (opener :: (body ++ [closer])) [n] := by
  cases h with
  | @element span name attributes body nameNodes _ _ fragments names items inside =>
    have hsame : Text.eqIgnoringCase (Token.nameOf name) (Token.nameOf name) = true := beq_self_eq_true _
    refine ⟨_, _, .closeTag (.point span.stop) name, _, rfl, ?_, .element names items inside names hsame⟩
    simp [Token.opened?, Frame.openItem, Node.label?, Node.spelledName, names.join_written fragments]
  | @block opener name _ _ _ undivided inside =>
    exact ⟨_, _, .blockClose opener name, _, rfl, rfl, .block undivided inside⟩
  | @branched opener name _ _ _ _ _ _ _ _ divided continues inside =>
    exact ⟨_, _, .blockClose opener name, _, rfl, rfl, .branched divided (continues (.lastBranch inside))⟩

end Opened

namespace Nesting

variable {ts : List Token} {s : Nesting}

/-- The frame on top of the stack is the innermost item that is open. -/
theorem After.stillOpen (h : After ts s) {f : Frame} {fs : List Frame} (hpending : s.pending = f :: fs) :
    StillOpen ts f.openItem := by
  obtain ⟨before, since, rfl, -, hframes⟩ := h
  rw [hpending] at hframes
  cases hframes with
  | @cons _ us vs _ _ first _ =>
    obtain ⟨opener, body, closer, n, rfl, hitem, hderives⟩ := first.exists_closed
    exact ⟨before ++ vs, opener, body, closer, n, by simp, hitem, hderives⟩

theorem pending_enter (s : Nesting) (f : Frame) : ∃ fs, s.enter f = ⟨s.finished, f :: fs⟩ := by
  obtain ⟨finished, pending⟩ := s
  cases pending with
  | nil => exact ⟨[], rfl⟩
  | cons g gs => exact ⟨_, rfl⟩

theorem add_of_opened? {opener : Token} {item : OpenItem} {s' : Nesting} (hitem : opener.opened? = some item)
    (hplain : opener.PlainNames) (hadd : s.add opener = .ok s') :
    ∃ f fs, s' = ⟨s.finished, f :: fs⟩ ∧ f.openItem = item ∧
      ∀ d name markup, opener = .blockOpen d name markup → isBranchedTag name = true →
        f.branch = some (.ofBranch none (.plain "") ⟨.point d.span.stop, false, false⟩) := by
  cases opener with
  | openTag span name attributes =>
    obtain ⟨hfragment, -, -⟩ := hplain
    rw [add_openTag] at hadd
    obtain ⟨nameNodes, names, hadd⟩ := bind_eq_ok.1 hadd
    obtain ⟨attributeNodes, -, hadd⟩ := bind_eq_ok.1 hadd
    cases hadd
    let node : Node Unit := ⟨(), span, .element span (.point span.stop), nameNodes, attributeNodes, [], []⟩
    obtain ⟨fs, henter⟩ := s.pending_enter ⟨node, none⟩
    have hderives := sound (fun t ht => .of_isFragment (hfragment t ht)) nameNodes names
    refine ⟨_, fs, henter, ?_, nofun⟩
    cases hitem
    simp [node, Frame.openItem, Node.label?, Node.spelledName, hderives.join_written hfragment, Token.nameParts]
  | blockOpen d name markup =>
    cases hitem
    rw [add] at hadd
    cases hadd
    obtain ⟨fs, henter⟩ := s.pending_enter ⟨⟨(), d.span, .block name markup d none, [], [], [], []⟩,
      if isBranchedTag name then some (.ofBranch none (.plain "") ⟨.point d.span.stop, false, false⟩) else none⟩
    refine ⟨_, fs, henter, rfl, ?_⟩
    rintro d' name' markup' ⟨⟩ hname
    rw [if_pos hname]
  | _ => cases hitem

end Nesting

theorem Derives.between {opener closer : Token} {body : List Token} {n : Node Unit}
    (h : Derives .item (opener :: (body ++ [closer])) [n]) :
    (∃ children, Derives .sequence body children) ∨
      ∃ d name markup stop branches, opener = .blockOpen d name markup ∧ isBranchedTag name = true ∧
        Derives (.branches none (.plain "") ⟨.point d.span.stop, false, false⟩ stop) body branches := by
  generalize hts : opener :: (body ++ [closer]) = ts at h
  cases h with
  | leaf => simp at hts
  | element _ _ inside =>
    obtain ⟨rfl, -⟩ := List.append_inj' (List.cons.inj hts).2 rfl
    exact .inl ⟨_, inside⟩
  | block _ inside =>
    obtain ⟨rfl, -⟩ := List.append_inj' (List.cons.inj hts).2 rfl
    exact .inl ⟨_, inside⟩
  | branched divided inside =>
    obtain ⟨hopener, hts⟩ := List.cons.inj hts
    obtain ⟨rfl, -⟩ := List.append_inj' hts rfl
    exact .inr ⟨_, _, _, _, _, hopener, divided, inside⟩

/-- The innermost item that is open is on top of the stack. -/
theorem StillOpen.openItem {ts : List Token} {item : OpenItem} {s : Nesting} (h : StillOpen ts item)
    (hplain : ∀ t ∈ ts, t.PlainNames) (hadd : Nesting.addAll {} ts = .ok s) :
    ∃ f fs, s.pending = f :: fs ∧ f.openItem = item := by
  obtain ⟨earlier, opener, body, closer, n, rfl, hitem, hderives⟩ := h
  obtain ⟨-, hplain⟩ := List.forall_mem_append.1 hplain
  obtain ⟨hopener, hbody⟩ := List.forall_mem_cons.1 hplain
  rw [Nesting.addAll_append] at hadd
  obtain ⟨s₀, -, hadd⟩ := bind_eq_ok.1 hadd
  rw [Nesting.addAll] at hadd
  obtain ⟨s₁, hopen, hadd⟩ := bind_eq_ok.1 hadd
  obtain ⟨f, fs, rfl, hopenItem, hbranch⟩ := Nesting.add_of_opened? hitem hopener hopen
  -- what follows the opening token is closed, so it leaves that frame on top
  rcases hderives.between with ⟨children, inside⟩ | ⟨d, name, markup, stop, branches, rfl, hname, inside⟩
  · rw [inside.runs hbody, Nesting.foldl_extend_cons] at hadd
    cases hadd
    exact ⟨_, fs, rfl, (Frame.openItem_foldl_extend children f).trans hopenItem⟩
  · obtain ⟨node, branch⟩ := f
    obtain rfl : branch = _ := hbranch d name markup rfl hname
    obtain ⟨g, hrun, hend⟩ := inside.runs hbody s₀.finished node fs
    rw [hrun] at hadd
    cases hadd
    refine ⟨g, fs, rfl, ?_⟩
    rw [← g.openItem_endBranch stop, hend]
    exact hopenItem

/-! ## Where nesting fails -/

theorem bind_eq_error {ε α β : Type} {x : Except ε α} {k : α → Except ε β} {e : ε} :
    (x >>= k) = .error e ↔ x = .error e ∨ ∃ a, x = .ok a ∧ k a = .error e := by
  constructor
  · intro h
    cases x with
    | error e' => exact .inl (by cases h; rfl)
    | ok a => exact .inr ⟨a, rfl, h⟩
  · rintro (rfl | ⟨a, rfl, h⟩)
    · rfl
    · exact h

namespace Nesting

variable {ts : List Token} {s : Nesting} {fault : NestingFault}

theorem addAll_eq_error (h : s.addAll ts = .error fault) :
    ∃ before t after s', ts = before ++ t :: after ∧ s.addAll before = .ok s' ∧ s'.add t = .error fault := by
  induction ts generalizing s with
  | nil => cases h
  | cons t ts ih =>
    rw [addAll, bind_eq_error] at h
    rcases h with h | ⟨s₁, hs₁, h⟩
    · exact ⟨[], t, ts, s, rfl, rfl, h⟩
    · obtain ⟨before, u, after, s', rfl, hbefore, hu⟩ := ih h
      refine ⟨t :: before, u, after, s', rfl, ?_, hu⟩
      rw [addAll, hs₁]
      exact hbefore

theorem closeElement_eq_error {name : String} {span : Span} (h : s.closeElement name span = .error fault) :
    fault = s.misplaced name span := by
  rw [closeElement] at h
  split at h
  · split at h
    · split at h
      · cases h
      · exact (Except.error.inj h).symm
    · exact (Except.error.inj h).symm
  · exact (Except.error.inj h).symm

theorem closeBlock_eq_error {name : String} {closer : Delimiter} (h : s.closeBlock name closer = .error fault) :
    fault = s.misplaced ("end" ++ name) closer.span := by
  rw [closeBlock] at h
  split at h
  · simp only at h
    split at h
    · split at h
      · cases h
      · exact (Except.error.inj h).symm
    · exact (Except.error.inj h).symm
  · exact (Except.error.inj h).symm

theorem nextBranch_eq_error {name : String} {markup : Markup} {opener : Delimiter}
    (h : s.nextBranch name markup opener = .error fault) : fault = s.misplaced name opener.span := by
  rw [nextBranch] at h
  split at h
  · cases h
  · exact (Except.error.inj h).symm

/-- A token cannot be nested because it does not fit what is open, or because one of its lists cannot be nested. -/
theorem add_eq_error {t : Token} (h : s.add t = .error fault) :
    (∃ closer, t.closerName? = some closer ∧ fault = s.misplaced closer t.span) ∨
      ∃ part ∈ [t.nameParts, t.attributeParts, t.valueParts], Node.ofTokens .strict part = .error fault := by
  cases hkind : t.leafKind? with
  | some kind =>
    rw [add_of_leafKind? hkind, bind_eq_error] at h
    right
    rcases h with h | ⟨name, -, h⟩
    · exact ⟨_, by simp, h⟩
    rcases bind_eq_error.1 h with h | ⟨attributes, -, h⟩
    · exact ⟨_, by simp, h⟩
    rcases bind_eq_error.1 h with h | ⟨value, -, h⟩
    · exact ⟨_, by simp, h⟩
    · cases h
  | none =>
    cases t with
    | openTag span name attributes =>
      rw [add_openTag, bind_eq_error] at h
      right
      rcases h with h | ⟨nameNodes, -, h⟩
      · exact ⟨name, by simp [Token.nameParts], h⟩
      rcases bind_eq_error.1 h with h | ⟨attributeNodes, -, h⟩
      · exact ⟨attributes, by simp [Token.attributeParts], h⟩
      · cases h
    | closeTag span name => exact .inl ⟨_, rfl, closeElement_eq_error (by rwa [add] at h)⟩
    | blockOpen d name markup => cases h
    | blockClose d name => exact .inl ⟨_, rfl, closeBlock_eq_error (by rwa [add] at h)⟩
    | tag d name markup =>
      have starts : isBranchStart name = true := by simpa [Token.leafKind?] using hkind
      rw [add, if_pos starts] at h
      exact .inl ⟨name, if_pos starts, nextBranch_eq_error h⟩
    | _ => simp [Token.leafKind?] at hkind

end Nesting

/-! ## Faults of a template -/

/-- A fault at a token that closes something or starts a branch and does not fit what stands before it in its list. -/
structure FaultAtCloser (tokens : List Token) (fault : NestingFault) (before : List Token) (t : Token)
    (after : List Token) (closer : String) : Prop where
  list : Token.ListIn tokens (before ++ t :: after)
  closes : t.closerName? = some closer
  span : fault.span = t.span
  /-- Nothing is wrong before the token. -/
  accepted : ∃ ns, Node.ofTokens .tolerant before = .ok ns
  unopened : fault.cause = .closedBeforeOpened closer ∧ fault.stillOpen = none ↔ ¬∃ item, StillOpen before item
  mismatched : ∀ item, StillOpen before item →
    fault.cause = .mismatched closer ∧ fault.stillOpen = some item ∧ item.span.stop ≤ t.span.start

structure FaultAtEnd (tokens : List Token) (fault : NestingFault) (ts : List Token) (item : OpenItem) : Prop where
  list : Token.ListIn tokens ts
  accepted : ∃ ns, Node.ofTokens .tolerant ts = .ok ns
  isOpen : StillOpen ts item
  fault_eq : fault = ⟨.unterminated, item.span, some item⟩

/-- A fault that points at what is wrong in some tokens. -/
def NestingFault.LocatedIn (tokens : List Token) (fault : NestingFault) : Prop :=
  (∃ before t after closer, FaultAtCloser tokens fault before t after closer) ∨
    ∃ ts item, FaultAtEnd tokens fault ts item

theorem Token.ListIn.trans {tokens ts us : List Token} (h : ListIn tokens ts) (h' : ListIn ts us) :
    ListIn tokens us := by
  induction h' with
  | template => exact h
  | attributes _ mem ih => exact .attributes ih mem
  | value _ mem ih => exact .value ih mem

theorem NestingFault.LocatedIn.of_list {tokens ts : List Token} {fault : NestingFault} (h : fault.LocatedIn ts)
    (hlist : Token.ListIn tokens ts) : fault.LocatedIn tokens := by
  rcases h with ⟨before, t, after, closer, h⟩ | ⟨us, item, h⟩
  · exact .inl ⟨before, t, after, closer, { h with list := hlist.trans h.list }⟩
  · exact .inr ⟨us, item, { h with list := hlist.trans h.list }⟩

theorem StillOpen.stop_le {before after : List Token} {t : Token} {item : OpenItem} {a b : Nat}
    (h : StillOpen before item) (hinside : Token.Inside a b (before ++ t :: after)) :
    item.span.stop ≤ t.span.start := by
  obtain ⟨earlier, opener, body, closer, n, rfl, hitem, -⟩ := h
  have hspan : item.span = opener.span := by
    cases opener with
    | openTag | blockOpen => cases hitem; rfl
    | _ => cases hitem
  have horder := hinside.1.pairwise
  rw [List.map_append, List.pairwise_append] at horder
  rw [hspan]
  exact horder.2.2 _ (List.mem_map_of_mem (by simp)) _ (List.mem_map_of_mem (by simp))

namespace Nesting

variable {ts before after : List Token} {t : Token} {s : Nesting} {fault : NestingFault}

theorem After.faultAtCloser (h : After before s) (hadd : Nesting.addAll {} before = .ok s)
    (hplain : ∀ u ∈ before, u.PlainNames) {a b : Nat} (hinside : Token.Inside a b (before ++ t :: after))
    {closer : String} (hcloser : t.closerName? = some closer) :
    FaultAtCloser (before ++ t :: after) (s.misplaced closer t.span) before t after closer := by
  have haccepted := ofTokens_tolerant hadd
  cases hpending : s.pending with
  | nil =>
    have hnone : ¬∃ item, StillOpen before item := by
      rintro ⟨item, hitem⟩
      obtain ⟨f, fs, hframes, -⟩ := hitem.openItem hplain hadd
      rw [hpending] at hframes
      cases hframes
    have hfault : s.misplaced closer t.span = ⟨.closedBeforeOpened closer, t.span, none⟩ := by
      rw [misplaced, hpending]
    rw [hfault]
    exact ⟨.template, hcloser, rfl, ⟨_, haccepted⟩, ⟨fun _ => hnone, fun _ => ⟨rfl, rfl⟩⟩,
      fun item hitem => absurd ⟨item, hitem⟩ hnone⟩
  | cons f fs =>
    have hopen := h.stillOpen hpending
    have hfault : s.misplaced closer t.span = ⟨.mismatched closer, t.span, some f.openItem⟩ := by
      rw [misplaced, hpending]
    rw [hfault]
    refine ⟨.template, hcloser, rfl, ⟨_, haccepted⟩, ⟨?_, fun h => absurd ⟨_, hopen⟩ h⟩, ?_⟩
    · exact fun h => nomatch h.1
    intro item hitem
    obtain ⟨g, gs, hframes, rfl⟩ := hitem.openItem hplain hadd
    rw [hpending] at hframes
    cases hframes
    exact ⟨rfl, rfl, hitem.stop_le hinside⟩

theorem After.faultAtEnd (h : After ts s) (hadd : Nesting.addAll {} ts = .ok s)
    (hcomplete : s.complete = .error fault) :
    ∃ item, FaultAtEnd ts fault ts item := by
  rw [Nesting.complete] at hcomplete
  split at hcomplete
  · cases hcomplete
  next f fs hpending =>
    exact ⟨f.openItem, .template, ⟨_, ofTokens_tolerant hadd⟩, h.stillOpen hpending, (Except.error.inj hcomplete).symm⟩

def Locates (ts : List Token) : Prop :=
  ∀ strictness fault, Node.ofTokens strictness ts = .error fault → fault.LocatedIn ts

theorem locates_of_parts (hplain : ∀ t ∈ ts, t.PlainNames) {a b : Nat} (hinside : Token.Inside a b ts)
    (hattributes : ∀ t ∈ ts, Locates t.attributeParts) (hvalue : ∀ t ∈ ts, Locates t.valueParts) : Locates ts := by
  have hafter {us : List Token} {s : Nesting} (hus : ∀ t ∈ us, t.PlainNames) (hadd : addAll {} us = .ok s) :
      After us s :=
    After.empty.addAll hus (fun t ht => soundParts (hus t ht)) hadd
  intro strictness fault h
  rcases bind_eq_error.1 h with hadd | ⟨s, hadd, hend⟩
  · obtain ⟨before, t, after, s, rfl, hbefore, hadd⟩ := addAll_eq_error hadd
    obtain ⟨hplain, hrest⟩ := List.forall_mem_append.1 hplain
    have ht : t ∈ before ++ t :: after := by simp
    rcases add_eq_error hadd with ⟨closer, hcloser, rfl⟩ | ⟨part, hpart, hfault⟩
    · exact .inl ⟨before, t, after, closer, (hafter hplain hbefore).faultAtCloser hbefore hplain hinside hcloser⟩
    · simp only [List.mem_cons, List.not_mem_nil, or_false] at hpart
      rcases hpart with rfl | rfl | rfl
      · -- a name holds nothing that could fail
        obtain ⟨hname, -, -⟩ := hrest t List.mem_cons_self
        obtain ⟨ns, hderives⟩ := derives_of_isFragment hname
        rw [(hderives.runs fun u hu => .of_isFragment (hname u hu)).ofTokens] at hfault
        cases hfault
      · exact (hattributes t ht _ _ hfault).of_list (.attributes .template ht)
      · exact (hvalue t ht _ _ hfault).of_list (.value .template ht)
  · cases strictness with
    | tolerant => cases hend
    | strict =>
      obtain ⟨item, hitem⟩ := (hafter hplain hadd).faultAtEnd hadd hend
      exact .inr ⟨ts, item, hitem⟩

theorem locates_parts {t : Token} (hplain : t.PlainNames) (hplaced : t.Placed) :
    Locates t.attributeParts ∧ Locates t.valueParts := by
  induction hplain with
  | mk _ attributes value ihattributes ihvalue =>
    obtain ⟨-, -, hattributes, hvalue, -, hattributeParts, hvalueParts⟩ := hplaced
    refine ⟨locates_of_parts attributes ⟨hattributes, hattributeParts⟩ ?_ ?_,
      locates_of_parts value ⟨hvalue, hvalueParts⟩ ?_ ?_⟩
    · exact fun u hu => (ihattributes u hu (hattributeParts u hu)).1
    · exact fun u hu => (ihattributes u hu (hattributeParts u hu)).2
    · exact fun u hu => (ihvalue u hu (hvalueParts u hu)).1
    · exact fun u hu => (ihvalue u hu (hvalueParts u hu)).2

end Nesting

theorem Nesting.locates_of_ofSource {source : String} {tokens : List Token} (h : Token.ofSource source = .ok tokens) :
    Locates tokens := by
  have hplain := plainNames_of_ofSource h
  have hinside := (Token.ofSource_tiles h).inside
  have hparts := fun t ht => locates_parts (hplain t ht) (hinside.2 t ht)
  exact locates_of_parts hplain hinside (fun t ht => (hparts t ht).1) fun t ht => (hparts t ht).2

/-- **A nesting fault points at what is wrong**: at a closing token or the start of a branch, with the innermost item
that is open in the same list before it if there is one, or at the opening token of the innermost item that is open at
the end of a list. -/
theorem parse_fault_located {source : String} {strictness : Strictness} {fault : NestingFault}
    (h : Document.parse source strictness = .error (.nesting fault)) :
    ∃ tokens, Token.ofSource source = .ok tokens ∧ fault.LocatedIn tokens := by
  unfold Document.parse at h
  cases htokens : Token.ofSource source with
  | error attempts => simp [htokens] at h
  | ok tokens =>
    refine ⟨tokens, rfl, Nesting.locates_of_ofSource htokens strictness fault ?_⟩
    simp only [htokens] at h
    split at h
    next hfault =>
      cases h
      exact hfault
    · cases h

theorem eq_error_of {ε α : Type} [DecidableEq ε] {x : Except ε α} {e : ε}
    (h : (match x with | .error e' => decide (e' = e) | .ok _ => false) = true) : x = .error e := by
  cases x with
  | error e' => rw [of_decide_eq_true h]
  | ok a => cases h

/-- A tag in the value of an attribute is closed by another name, in its second branch, while an element and a tag are
open around the attribute. -/
theorem fault_located_in_value : ∃ tokens,
    Document.parse "<p>\x7b% if a %\x7d<b c=\"\x7b% if d %\x7dx\x7b% else %\x7d\x7b% endfor %\x7d\">" .tolerant =
      .error (.nesting ⟨.mismatched "endfor", ⟨40, 52⟩, some ⟨"if", ⟨19, 29⟩⟩⟩) ∧
    Token.ofSource "<p>\x7b% if a %\x7d<b c=\"\x7b% if d %\x7dx\x7b% else %\x7d\x7b% endfor %\x7d\">" = .ok tokens ∧
    NestingFault.LocatedIn tokens ⟨.mismatched "endfor", ⟨40, 52⟩, some ⟨"if", ⟨19, 29⟩⟩⟩ := by
  have hparse :
      Document.parse "<p>\x7b% if a %\x7d<b c=\"\x7b% if d %\x7dx\x7b% else %\x7d\x7b% endfor %\x7d\">" .tolerant =
        .error (.nesting ⟨.mismatched "endfor", ⟨40, 52⟩, some ⟨"if", ⟨19, 29⟩⟩⟩) := eq_error_of (by decide +kernel)
  obtain ⟨tokens, htokens, hlocated⟩ := parse_fault_located hparse
  exact ⟨tokens, hparse, htokens, hlocated⟩

end LiquidTemplate
