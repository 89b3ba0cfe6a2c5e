import LiquidTemplate.Proofs.Nesting.Strict

/-!
# What is left open at the end

If something is still open at the end of a template, tolerant reading ends it there: the nodes of the document are
derived items and perhaps one last item that is open, with the same inside of it (`Trails`). So what is said of
all trailing lists of nodes holds of every template that can be read, strictly or not (`trails_of_parse`).
-/

namespace LiquidTemplate

namespace Node

/-- How far something open reaches at the end of a template: up to an offset, and over its last child. -/
def stopOver (stop : Nat) (children : List (Node Unit)) : Nat :=
  match children.getLast? with
  | some n => max stop n.span.stop
  | none => stop

def openBranch (name : Option String) (markup : Markup) (opener : Delimiter) (children : List (Node Unit)) :
    Node Unit :=
  { info := (), span := ⟨opener.span.start, stopOver (branchReach opener children) children⟩,
    kind := .branch name markup opener, children := children }

end Node

/-- What a list of tokens stands for if the template ends after it: items, and perhaps a last one that is open. -/
inductive Trails : List Token → List (Node Unit) → Prop where
  | closed {ts : List Token} {ns : List (Node Unit)} (items : Derives .sequence ts ns) : Trails ts ns
  | element {us : List Token} {ns : List (Node Unit)} {span : Span} {name attributes body : List Token}
      {nameNodes attributeNodes children : List (Node Unit)} (before : Derives .sequence us ns)
      (names : Derives .sequence name nameNodes) (items : Derives .sequence attributes attributeNodes)
      (inside : Trails body children) :
      Trails (us ++ .openTag span name attributes :: body)
        (ns ++ [⟨(), ⟨span.start, Node.stopOver span.stop children⟩, .element span (.point span.stop), nameNodes,
          attributeNodes, [], children⟩])
  | block {us : List Token} {ns : List (Node Unit)} {opener : Delimiter} {name : String} {markup : Markup}
      {body : List Token} {children : List (Node Unit)} (before : Derives .sequence us ns)
      (undivided : isBranchedTag name = false) (inside : Trails body children) :
      Trails (us ++ .blockOpen opener name markup :: body)
        (ns ++ [⟨(), ⟨opener.span.start, Node.stopOver opener.span.stop children⟩, .block name markup opener none,
          [], [], [], children⟩])
  /-- The branches before the open one are ended. -/
  | branched {us : List Token} {ns : List (Node Unit)} {opener : Delimiter} {name : String} {markup : Markup}
      {earlier body : List Token} {ended children : List (Node Unit)} {branch : Option String} {branchMarkup : Markup}
      {start : Delimiter} (before : Derives .sequence us ns) (divided : isBranchedTag name = true)
      (continues : ∀ {stop : Nat} {ts : List Token} {branches : List (Node Unit)},
        Derives (.branches branch branchMarkup start stop) ts branches →
          Derives (.branches none (.plain "") ⟨.point opener.span.stop, false, false⟩ stop) (earlier ++ ts)
            (ended ++ branches))
      (inside : Trails body children) :
      Trails (us ++ .blockOpen opener name markup :: (earlier ++ body))
        (ns ++ [⟨(), ⟨opener.span.start,
            Node.stopOver opener.span.stop (ended ++ [.openBranch branch branchMarkup start children])⟩,
          .block name markup opener none, [], [], [], ended ++ [.openBranch branch branchMarkup start children]⟩])

/-- What some open frames and all inside of them become at the end: nothing if nothing is open, else one open
item. -/
def LeftOpen (ts : List Token) : Option (Node Unit) → Prop
  | none => ts = []
  | some n => ∀ {us : List Token} {ns : List (Node Unit)}, Derives .sequence us ns → Trails (us ++ ts) (ns ++ [n])

namespace LeftOpen

variable {ts us : List Token} {inner? : Option (Node Unit)} {ns : List (Node Unit)}

theorem trails (h : LeftOpen ts inner?) (hns : Derives .sequence us ns) : Trails (us ++ ts) (ns ++ inner?.toList) := by
  cases inner? with
  | none =>
    obtain rfl : ts = [] := h
    simpa using Trails.closed hns
  | some n => exact h hns

end LeftOpen

namespace Nesting

/-- End an open frame, with what is open inside of it. -/
def abandonFrame (inner? : Option (Node Unit)) (f : Frame) : Node Unit :=
  match inner? with
  | some n => ((f.cover n.span.stop).push n).abandon
  | none => f.abandon

theorem abandon_eq (s : Nesting) :
    s.abandon = s.finished ++ (s.pending.foldl (fun inner? f => some (abandonFrame inner? f)) none).toList := by
  have hstep : (fun (inner? : Option (Node Unit)) f => some (abandonFrame inner? f)) = fun inner? f =>
      match inner? with
      | some n => some ((f.cover n.span.stop).push n).abandon
      | none => some f.abandon := by
    funext inner? f
    cases inner? <;> rfl
  rw [hstep]
  rfl

theorem abandonFrame_eq (n : Node Unit) (inner? : Option (Node Unit)) :
    abandonFrame inner? ⟨n, none⟩ =
      { n with span := ⟨n.span.start, Node.stopOver n.span.stop (n.children ++ inner?.toList)⟩,
               children := n.children ++ inner?.toList } := by
  obtain ⟨info, span, kind, name, attributes, value, children⟩ := n
  cases inner? with
  | none =>
    simp only [abandonFrame, Frame.abandon, Node.coverLast, Node.stopOver, Option.toList_none, List.append_nil]
    cases children.getLast? <;> rfl
  | some m =>
    simp [abandonFrame, Frame.abandon, Frame.cover, Frame.push, Node.coverLast, Node.stopOver, Node.cover, Node.push]

theorem abandonFrame_branch (n b : Node Unit) (inner? : Option (Node Unit)) :
    abandonFrame inner? ⟨n, some b⟩ = abandonFrame (some (abandonFrame inner? ⟨b, none⟩)) ⟨n, none⟩ := by
  cases inner? with
  | none => rfl
  | some m => rfl

end Nesting

theorem Opened.leftOpen {inner : Nat} {ts us : List Token} {f : Frame} {inner? : Option (Node Unit)}
    (h : Opened inner ts f) (hinner : LeftOpen us inner?) (hreach : inner = (inner?.map Node.openerStop).getD 0) :
    LeftOpen (ts ++ us) (some (Nesting.abandonFrame inner? f)) := by
  intro before ns hns
  cases h with
  | element fragments names items inside =>
    rw [Nesting.abandonFrame_eq, List.cons_append]
    exact .element hns names items (hinner.trails inside)
  | block undivided inside =>
    rw [Nesting.abandonFrame_eq, List.cons_append]
    exact .block hns undivided (hinner.trails inside)
  | @branched _ _ _ earlier body ended children branch branchMarkup start divided continues inside =>
    have hbranch : Nesting.abandonFrame inner? ⟨⟨(), ⟨start.span.start, max (Node.branchReach start children) inner⟩,
        .branch branch branchMarkup start, [], [], [], children⟩, none⟩ =
        .openBranch branch branchMarkup start (children ++ inner?.toList) := by
      rw [Nesting.abandonFrame_eq, hreach]
      cases inner? <;> simp [Node.openBranch, Opened.branchReach_concat]
    rw [Nesting.abandonFrame_branch, hbranch, Nesting.abandonFrame_eq, List.cons_append, List.append_assoc]
    exact .branched hns divided continues (hinner.trails inside)

theorem Opened.openerStop_abandonFrame {inner : Nat} {ts : List Token} {f : Frame} (h : Opened inner ts f)
    (inner? : Option (Node Unit)) : (Nesting.abandonFrame inner? f).openerStop = f.node.openerStop := by
  cases h with
  | element | block =>
    rw [Nesting.abandonFrame_eq]
    rfl
  | branched =>
    rw [Nesting.abandonFrame_branch, Nesting.abandonFrame_eq]
    rfl

/-- The open frames are ended from the inside out. -/
theorem Pending.leftOpen {inner : Nat} {ts us : List Token} {fs : List Frame} {inner? : Option (Node Unit)}
    (h : Pending inner ts fs) (hinner : LeftOpen us inner?) (hreach : inner = (inner?.map Node.openerStop).getD 0) :
    LeftOpen (ts ++ us) (fs.foldl (fun inner? f => some (Nesting.abandonFrame inner? f)) inner?) := by
  induction h generalizing us inner? with
  | nil => exact hinner
  | @cons inner ts vs f fs first around ih =>
    rw [List.append_assoc, List.foldl_cons]
    exact ih (first.leftOpen hinner hreach) (first.openerStop_abandonFrame inner?).symm

theorem Nesting.After.trails {ts : List Token} {s : Nesting} (h : After ts s) : Trails ts s.abandon := by
  obtain ⟨before, since, rfl, hfinished, hpending⟩ := h
  have hnone : LeftOpen [] none := rfl
  have hleft := hpending.leftOpen hnone rfl
  rw [List.append_nil] at hleft
  rw [abandon_eq]
  exact hleft.trails hfinished

theorem trails_of_ofTokens {tokens : List Token} (hplain : ∀ t ∈ tokens, t.PlainNames) {ns : List (Node Unit)}
    (h : Node.ofTokens .tolerant tokens = .ok ns) : Trails tokens ns := by
  obtain ⟨s, hs, habandon⟩ := bind_eq_ok.1 h
  cases habandon
  exact (Nesting.After.empty.addAll hplain (fun t ht => Nesting.soundParts (hplain t ht)) hs).trails

theorem trails_of_parse {source : String} {tokens : List Token} {strictness : Strictness} {d : Document Unit}
    (h : Token.ofSource source = .ok tokens) (hparse : Document.parse source strictness = .ok d) :
    ∃ nodes, Trails tokens nodes ∧ d = .ofNodes source nodes := by
  cases strictness with
  | strict =>
    obtain ⟨nodes, hderives, hd⟩ := derives_of_parse h hparse
    exact ⟨nodes, .closed hderives, hd⟩
  | tolerant =>
    rw [parse_of_ofSource h] at hparse
    cases hnodes : Node.ofTokens .tolerant tokens with
    | error fault => simp [hnodes] at hparse
    | ok nodes =>
      simp only [hnodes, Except.ok.injEq] at hparse
      exact ⟨nodes, trails_of_ofTokens (plainNames_of_ofSource h) hnodes, hparse.symm⟩

theorem source_of_parse {source : String} {strictness : Strictness} {d : Document Unit}
    (h : Document.parse source strictness = .ok d) : d.source = source := by
  obtain ⟨tokens, htokens⟩ := ofSource_of_parse h
  obtain ⟨nodes, -, rfl⟩ := trails_of_parse htokens h
  rfl

theorem kind_root_of_parse {source : String} {strictness : Strictness} {d : Document Unit}
    (h : Document.parse source strictness = .ok d) : d.root.kind = .document := by
  obtain ⟨tokens, htokens⟩ := ofSource_of_parse h
  obtain ⟨nodes, -, rfl⟩ := trails_of_parse htokens h
  rfl

end LiquidTemplate
