import LiquidTemplate.Proofs.Nesting.Tolerant

/-!
# Templates that can be completed

Whatever is open at the end of a template can be closed: from the inside out, an element by a closing tag that repeats
its name, and a tag by its own closing tag (`Trails.closable`). So tolerant reading accepts exactly those lists of
tokens that closing tags can complete. The two ways of reading go the same way up to the end of the tokens, so they
differ in nothing but in what they do with something that is still open there.
-/

namespace LiquidTemplate

namespace Token

def isCloser : Token → Bool
  | closeTag _ _ | blockClose _ _ => true
  | _ => false

/-- A token that closes something that one of the tokens opens, under the name that is written there. -/
def IsCloserOf (tokens : List Token) : Token → Prop
  | closeTag _ name => ∃ span attributes, openTag span name attributes ∈ tokens
  | blockClose _ name => ∃ d markup, blockOpen d name markup ∈ tokens
  | _ => False

namespace IsCloserOf

variable {tokens more : List Token} {t : Token}

theorem isCloser (h : t.IsCloserOf tokens) : t.isCloser = true := by
  cases t with
  | closeTag | blockClose => rfl
  | _ => cases h

theorem mono (h : t.IsCloserOf tokens) (hmore : tokens ⊆ more) : t.IsCloserOf more := by
  cases t with
  | closeTag span name =>
    obtain ⟨opener, attributes, hopen⟩ := h
    exact ⟨opener, attributes, hmore hopen⟩
  | blockClose d name =>
    obtain ⟨opener, markup, hopen⟩ := h
    exact ⟨opener, markup, hmore hopen⟩
  | _ => cases h

theorem plainNames (h : t.IsCloserOf tokens) (hplain : ∀ u ∈ tokens, u.PlainNames) : t.PlainNames := by
  cases t with
  | closeTag span name =>
    obtain ⟨opener, attributes, hopen⟩ := h
    obtain ⟨hname, -, -⟩ := hplain _ hopen
    exact ⟨hname, nofun, nofun⟩
  | blockClose d name => exact ⟨nofun, nofun, nofun⟩
  | _ => cases h

end IsCloserOf

end Token

/-! ## Closing what is open -/

/-- A list of tokens that closing tags for what is open in it make well nested. -/
def Closable (ts : List Token) : Prop :=
  ∃ suffix, (∀ t ∈ suffix, t.IsCloserOf ts) ∧ ∃ ns, Derives .sequence (ts ++ suffix) ns

/-- After the closing tags for what is open in its body comes the one for the item itself. -/
theorem Closable.of_item {us body suffix : List Token} {opener closer : Token} {ns : List (Node Unit)} {n : Node Unit}
    (before : Derives .sequence us ns) (hsuffix : ∀ t ∈ suffix, t.IsCloserOf body)
    (hcloser : closer.IsCloserOf [opener])
    (item : Derives .item (opener :: ((body ++ suffix) ++ [closer])) [n]) : Closable (us ++ opener :: body) := by
  have hbody : body ⊆ us ++ opener :: body := by simp
  have hopener : [opener] ⊆ us ++ opener :: body := by simp
  refine ⟨suffix ++ [closer], ?_, ns ++ [n], ?_⟩
  · exact List.forall_mem_append.2
      ⟨fun t ht => (hsuffix t ht).mono hbody, List.forall_mem_singleton.2 (hcloser.mono hopener)⟩
  · have hall := before.snoc item
    simpa only [List.append_assoc, List.cons_append] using hall

/-- **Whatever is open at the end of a list of tokens can be closed.** -/
theorem Trails.closable {ts : List Token} {ns : List (Node Unit)} (h : Trails ts ns) : Closable ts := by
  induction h with
  | closed items => exact ⟨[], nofun, _, by rwa [List.append_nil]⟩
  | @element _ _ span name attributes _ _ _ _ before names items _ ih =>
    obtain ⟨suffix, hsuffix, children, inside⟩ := ih
    have hcloser : (Token.closeTag (.point span.stop) name).IsCloserOf [.openTag span name attributes] :=
      ⟨span, attributes, List.mem_singleton_self _⟩
    have hsame : Text.eqIgnoringCase (Token.nameOf name) (Token.nameOf name) = true := beq_self_eq_true _
    exact .of_item before hsuffix hcloser (.element names items inside names hsame)
  | @block _ _ opener name markup _ _ before undivided _ ih =>
    obtain ⟨suffix, hsuffix, children, inside⟩ := ih
    have hcloser : (Token.blockClose opener name).IsCloserOf [.blockOpen opener name markup] :=
      ⟨opener, markup, List.mem_singleton_self _⟩
    exact .of_item before hsuffix hcloser (.block undivided inside)
  | @branched _ _ opener name markup earlier body _ _ _ _ _ before divided continues _ ih =>
    obtain ⟨suffix, hsuffix, children, inside⟩ := ih
    have hcloser : (Token.blockClose opener name).IsCloserOf [.blockOpen opener name markup] :=
      ⟨opener, markup, List.mem_singleton_self _⟩
    have hbody : body ⊆ earlier ++ body := by simp
    -- the branch that is open is the last one
    have hbranches := continues (@Derives.lastBranch _ _ _ opener.span.start _ _ inside)
    rw [← List.append_assoc] at hbranches
    exact .of_item before (fun t ht => (hsuffix t ht).mono hbody) hcloser (.branched divided hbranches)

/-! ## The two ways of reading -/

namespace Nesting

theorem abandon_of_complete {s : Nesting} {ns : List (Node Unit)} (h : s.complete = .ok ns) : s.abandon = ns := by
  obtain ⟨finished, pending⟩ := s
  cases pending with
  | nil =>
    cases h
    exact List.append_nil _
  | cons f fs => cases h

end Nesting

theorem addAll_of_ofTokens {strictness : Strictness} {tokens : List Token} {ns : List (Node Unit)}
    (h : Node.ofTokens strictness tokens = .ok ns) : ∃ s, Nesting.addAll {} tokens = .ok s := by
  obtain ⟨s, hs, -⟩ := bind_eq_ok.1 h
  exact ⟨s, hs⟩

theorem ofTokens_tolerant {tokens : List Token} {s : Nesting} (h : Nesting.addAll {} tokens = .ok s) :
    Node.ofTokens .tolerant tokens = .ok s.abandon := by
  rw [Node.ofTokens, h]
  rfl

/-- Reading does not look ahead: if more tokens can be nested, so can those before them. -/
theorem ofTokens_tolerant_of_append {strictness : Strictness} {ts us : List Token} {ns : List (Node Unit)}
    (h : Node.ofTokens strictness (ts ++ us) = .ok ns) : ∃ ms, Node.ofTokens .tolerant ts = .ok ms := by
  obtain ⟨s, hs⟩ := addAll_of_ofTokens h
  rw [Nesting.addAll_append] at hs
  obtain ⟨s', hs', -⟩ := bind_eq_ok.1 hs
  exact ⟨_, ofTokens_tolerant hs'⟩

/-- What tolerant reading accepts can be completed by closing tags that repeat what is written in the template. -/
theorem exists_closers {tokens : List Token} (hplain : ∀ t ∈ tokens, t.PlainNames) {ns : List (Node Unit)}
    (h : Node.ofTokens .tolerant tokens = .ok ns) :
    ∃ suffix, (∀ t ∈ suffix, t.IsCloserOf tokens) ∧ ∃ ms, Node.ofTokens .strict (tokens ++ suffix) = .ok ms := by
  obtain ⟨suffix, hsuffix, ms, hderives⟩ := (trails_of_ofTokens hplain h).closable
  have hall : ∀ t ∈ tokens ++ suffix, t.PlainNames :=
    List.forall_mem_append.2 ⟨hplain, fun t ht => (hsuffix t ht).plainNames hplain⟩
  exact ⟨suffix, hsuffix, ms, (hderives.runs hall).ofTokens⟩

/-- **Tolerant reading accepts exactly what closing tags can complete.** It gives what strict reading gives if that
succeeds, and where it fails, strict reading fails in the same way. -/
theorem ofTokens_tolerant_iff_closable {source : String} {tokens : List Token}
    (h : Token.ofSource source = .ok tokens) :
    ((∃ ns, Node.ofTokens .tolerant tokens = .ok ns) ↔
      ∃ suffix, (∀ t ∈ suffix, t.isCloser = true) ∧ ∃ ns, Node.ofTokens .strict (tokens ++ suffix) = .ok ns) ∧
    ((∃ ns, Node.ofTokens .tolerant tokens = .ok ns) →
      ∃ suffix, (∀ t ∈ suffix, t.IsCloserOf tokens) ∧ ∃ ns, Node.ofTokens .strict (tokens ++ suffix) = .ok ns) ∧
    (∀ ns, Node.ofTokens .strict tokens = .ok ns → Node.ofTokens .tolerant tokens = .ok ns) ∧
    ∀ fault, Node.ofTokens .tolerant tokens = .error fault → Node.ofTokens .strict tokens = .error fault := by
  have hclosers : (∃ ns, Node.ofTokens .tolerant tokens = .ok ns) →
      ∃ suffix, (∀ t ∈ suffix, t.IsCloserOf tokens) ∧ ∃ ns, Node.ofTokens .strict (tokens ++ suffix) = .ok ns := by
    rintro ⟨ns, hns⟩
    exact exists_closers (plainNames_of_ofSource h) hns
  refine ⟨⟨fun hok => ?_, ?_⟩, hclosers, fun ns hns => ?_, fun fault hfault => ?_⟩
  · obtain ⟨suffix, hsuffix, hstrict⟩ := hclosers hok
    exact ⟨suffix, fun t ht => (hsuffix t ht).isCloser, hstrict⟩
  · rintro ⟨suffix, -, ns, hns⟩
    exact ofTokens_tolerant_of_append hns
  · obtain ⟨s, hs, hcomplete⟩ := bind_eq_ok.1 hns
    rw [ofTokens_tolerant hs, Nesting.abandon_of_complete hcomplete]
  · cases hs : Nesting.addAll {} tokens with
    | ok s => simp [ofTokens_tolerant hs] at hfault
    | error fault' =>
      rw [Node.ofTokens, hs] at hfault ⊢
      exact hfault

/-- An element in a branch in an element, all open at the end of a template. -/
theorem closable_left_open :
    ∃ tokens, Token.ofSource "<p>\x7b% if a %\x7dx\x7b% else %\x7d<b>" = .ok tokens ∧
      (∃ ns, Node.ofTokens .tolerant tokens = .ok ns) ∧ (¬∃ ns, Node.ofTokens .strict tokens = .ok ns) ∧
      ∃ suffix, (∀ t ∈ suffix, t.isCloser = true) ∧ ∃ ns, Node.ofTokens .strict (tokens ++ suffix) = .ok ns := by
  obtain ⟨tokens, htokens, hread⟩ := exists_eq_ok (x := Token.ofSource "<p>\x7b% if a %\x7dx\x7b% else %\x7d<b>")
    (P := fun tokens => (Node.ofTokens .tolerant tokens).toOption.isSome &&
      (Node.ofTokens .strict tokens).toOption.isNone) (by decide +kernel)
  rw [Bool.and_eq_true] at hread
  obtain ⟨ns, hns, -⟩ := exists_eq_ok (P := fun _ => true) (x := Node.ofTokens .tolerant tokens)
    (by rw [Option.any_true, hread.1])
  refine ⟨tokens, htokens, ⟨ns, hns⟩, ?_, (ofTokens_tolerant_iff_closable htokens).1.1 ⟨ns, hns⟩⟩
  rintro ⟨ms, hms⟩
  simp [hms, Except.toOption] at hread

end LiquidTemplate
