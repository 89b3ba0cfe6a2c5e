import LiquidTemplate.Format
import LiquidTemplate.Proofs.Print.Lineage
import Mathlib.Data.List.Induction

/-!
# Requests for embedded code

Which code a template hands to the formatter depends on the tree alone, never on an answer: `Document.requests` reads
the requests off the nodes and what they stand in. Printing asks exactly for these, in this order
(`run_printNode_after`), so an error is found if and only if one of them fails (`format_requests`).
-/

namespace LiquidTemplate

/-! ## Sessions -/

namespace CodeFormatter

/-- The session after further requests. -/
def after (formatter : CodeFormatter) (session : Session) (requests : List CodeRequest) : Session :=
  requests.foldl (fun s request => ((formatter.ask request).run s).2) session

/-- The answers to requests, each given after the requests before it. -/
def answers (formatter : CodeFormatter) (requests : List CodeRequest) : List (Except String String) :=
  requests.mapIdx fun i request => formatter (requests.take i) request

def failures (formatter : CodeFormatter) (requests : List CodeRequest) : List String :=
  (formatter.answers requests).filterMap fun
    | .ok _ => none
    | .error message => some message

variable (formatter : CodeFormatter)

@[simp] theorem after_nil (session : Session) : formatter.after session [] = session :=
  rfl

theorem after_singleton (session : Session) (request : CodeRequest) :
    formatter.after session [request] = ((formatter.ask request).run session).2 :=
  rfl

theorem after_append (session : Session) (requests more : List CodeRequest) :
    formatter.after session (requests ++ more) = formatter.after (formatter.after session requests) more :=
  List.foldl_append

theorem requests_after (session : Session) (requests : List CodeRequest) :
    (formatter.after session requests).requests = session.requests ++ requests := by
  induction requests generalizing session with
  | nil => simp
  | cons request requests ih =>
    have hfirst : ((formatter.ask request).run session).2.requests = session.requests ++ [request] := by
      unfold CodeFormatter.ask
      simp only [StateT.run]
      split <;> rfl
    show (formatter.after ((formatter.ask request).run session).2 requests).requests = _
    rw [ih, hfirst, List.append_assoc, List.singleton_append]

theorem answers_concat (requests : List CodeRequest) (request : CodeRequest) :
    formatter.answers (requests ++ [request]) = formatter.answers requests ++ [formatter requests request] := by
  have hearlier : requests.mapIdx (fun i r => formatter ((requests ++ [request]).take i) r) =
      formatter.answers requests := by
    refine List.mapIdx_eq_mapIdx_iff.2 fun i hi => ?_
    rw [List.take_append_of_le_length (Nat.le_of_lt hi)]
  rw [answers, List.mapIdx_concat, hearlier]
  simp

theorem failure_after (requests : List CodeRequest) :
    (formatter.after {} requests).failure = (formatter.failures requests).getLast? := by
  induction requests using List.reverseRecOn with
  | nil => rfl
  | append_singleton requests request ih =>
    have hearlier : (formatter.after {} requests).requests = requests := formatter.requests_after {} requests
    rw [after_append, after_singleton, failures, answers_concat, List.filterMap_append]
    unfold CodeFormatter.ask
    simp only [StateT.run, hearlier]
    cases hanswer : formatter requests request with
    | ok code =>
      show (formatter.after {} requests).failure = _
      rw [ih, failures]
      simp
    | error message => simp

end CodeFormatter

/-! ## The requests of a template -/

/-- Code inside a template, and whether it is indented. -/
structure Embedded where
  body : RawBody
  indents : Bool

/-- Code that a formatter sees: it is not blank and need not keep its white space. -/
def RawBody.isFormatted (body : RawBody) : Bool :=
  !Text.isAllWhiteSpace body.slice.text && !body.isVerbatim

/-- The code in a raw element, or in a raw tag that is not plain text. -/
def Node.embedded? (o : Options) (n : Node Unit) : Option Embedded :=
  match n.kind with
  | .rawElement name body _ _ => some ⟨body, indentsElement o (Text.lower name)⟩
  | .rawTag name _ body _ _ => if body.kind = .text then none else some ⟨body, indentsTag o name⟩
  | _ => none

/-- Elements and tags with a body, which indent what they hold. -/
def Kind.isIndenting : Kind → Bool
  | .element _ _ | .block _ _ _ _ => true
  | _ => false

/-- The children of a node are printed by rules of their own. -/
def Spot.isLaidOut (o : Options) (s : Spot) : Bool :=
  !s.isIgnored o && !s.node.whiteSpace.isPreLike

/-- The number of levels that the nodes of a lineage indent by. -/
def Lineage.depth (around : Lineage) : Nat :=
  around.countP (·.node.kind.isIndenting)

/-- The request for code that is so deep inside. -/
def Embedded.request (o : Options) (depth : Nat) (e : Embedded) : CodeRequest :=
  ⟨e.body.slice.text, e.body.kind, o.printWidth - o.indentWidth * (depth + if e.indents then 1 else 0), o.indentWidth⟩

def Spot.request? (o : Options) (around : Lineage) (s : Spot) : Option CodeRequest :=
  (s.node.embedded? o).bind fun e =>
    if !s.isIgnored o && e.body.isFormatted then some (e.request o around.depth) else none

def requestsOf (o : Options) (lineages : List Lineage) : List CodeRequest :=
  lineages.filterMap (Lineage.pick (Spot.isLaidOut o) (Spot.request? o))

/-- The requests that a template makes, in the order of the template. -/
def Document.requests (o : Options) (d : Document Unit) : List CodeRequest :=
  requestsOf o (d.root.lineages [] none)

/-! ## Printing makes these requests -/

section

variable {ctx : PrintContext} {formatter : CodeFormatter} {level : Nat} {outer : Lineage} {session : Session}

theorem run_printCode_after (hlevel : level = ctx.options.indentWidth * outer.depth) (indents : Bool) (body : RawBody) :
    ((printCode ctx formatter level indents body).run session).2 =
      formatter.after session
        (if body.isFormatted then [Embedded.request ctx.options outer.depth ⟨body, indents⟩] else []) := by
  unfold printCode RawBody.isFormatted
  by_cases hblank : Text.isAllWhiteSpace body.slice.text = true
  · simp only [hblank, Bool.not_true, Bool.false_and, Bool.false_eq_true, if_false, if_true]
    rfl
  by_cases hverbatim : body.isVerbatim = true
  · simp only [hblank, hverbatim, Bool.not_true, Bool.and_false, Bool.false_eq_true, if_false, if_true]
    rfl
  have hwidth : ctx.options.printWidth - level - (if indents then ctx.options.indentWidth else 0) =
      ctx.options.printWidth - ctx.options.indentWidth * (outer.depth + if indents then 1 else 0) := by
    rw [hlevel, Nat.sub_sub, Nat.mul_add]
    cases indents <;> simp
  simp only [hblank, hverbatim, hwidth, Bool.not_false, Bool.and_self, Bool.false_eq_true, if_false, if_true]
  rfl

theorem run_printNode_leaf {prev : Option (Node Unit)} {before : Option (Node Facts)} {m : Node Unit} {n : Node Facts}
    (hignored : isIgnored ctx before = false) (hspot : Spot.isIgnored ctx.options ⟨prev, m⟩ = false)
    (hlevel : level = ctx.options.indentWidth * outer.depth) (hleaf : m.kind.hasBody = false)
    (hkind : n.kind = m.kind) :
    ((printNode ctx formatter level before n).run session).2 =
      formatter.after session (Spot.request? ctx.options outer ⟨prev, m⟩).toList := by
  obtain ⟨info, span, kind, name, attributes, value, children⟩ := n
  simp only at hkind
  unfold printNode Spot.request? Node.embedded?
  rw [← hkind] at hleaf ⊢
  simp only [hignored, hspot, Bool.false_eq_true, if_false, Bool.not_false, Bool.true_and]
  cases kind with
  | document | element | block | branch => cases hleaf
  | rawElement elementName body opener closer =>
    have hcode := @run_printCode_after ctx formatter level outer session hlevel
      (indentsElement ctx.options (Text.lower elementName)) body
    rw [Option.bind_some]
    refine hcode.trans ?_
    split <;> rfl
  | rawTag tagName markup body opener closer =>
    by_cases htext : body.kind = .text
    · simp only [htext, if_true]
      rfl
    · have hcode := @run_printCode_after ctx formatter level outer session hlevel (indentsTag ctx.options tagName) body
      simp only [htext, if_false, Option.bind_some]
      refine hcode.trans ?_
      split <;> rfl
  | _ => rfl

theorem embedded?_of_hasBody {o : Options} {n : Node Unit} (h : n.kind.hasBody = true) : n.embedded? o = none := by
  unfold Node.embedded?
  split
  next hkind => simp [hkind, Kind.hasBody] at h
  next hkind => simp [hkind, Kind.hasBody] at h
  · rfl

theorem requestsOf_lineages {o : Options} (prev : Option (Node Unit)) (n : Node Unit)
    (h : outer.all (Spot.isLaidOut o) = true) :
    requestsOf o (n.lineages outer prev) =
      (Spot.request? o outer ⟨prev, n⟩).toList ++
        if Spot.isLaidOut o ⟨prev, n⟩ then requestsOf o (Node.lineagesOf (⟨prev, n⟩ :: outer) none n.children)
        else [] :=
  filterMap_lineages prev n h

theorem requestsOf_hidden {o : Options} {prev : Option (Node Unit)} {n : Node Unit}
    (h : outer.all (Spot.isLaidOut o) = true) (hidden : Spot.isLaidOut o ⟨prev, n⟩ = false)
    (hnone : Spot.request? o outer ⟨prev, n⟩ = none) : requestsOf o (n.lineages outer prev) = [] := by
  rw [requestsOf_lineages prev n h, hidden, hnone]
  rfl

theorem requestsOf_shown {o : Options} {prev : Option (Node Unit)} {n : Node Unit}
    (h : outer.all (Spot.isLaidOut o) = true) (shown : Spot.isLaidOut o ⟨prev, n⟩ = true)
    (hbody : n.kind.hasBody = true) :
    requestsOf o (n.lineages outer prev) = requestsOf o (Node.lineagesOf (⟨prev, n⟩ :: outer) none n.children) := by
  rw [requestsOf_lineages prev n h, shown, Spot.request?, embedded?_of_hasBody hbody]
  rfl

theorem requestsOf_cons {o : Options} (prev : Option (Node Unit)) (n : Node Unit) (ns : List (Node Unit)) :
    requestsOf o (Node.lineagesOf outer prev (n :: ns)) =
      requestsOf o (n.lineages outer prev) ++ requestsOf o (Node.lineagesOf outer (some n) ns) :=
  filterMap_lineagesOf_cons prev n ns

end

section

open Node

variable {s : Sensitivity} {source : List Char} {ctx : PrintContext} {formatter : CodeFormatter}

theorem isLaidOut_branch {o : Options} {prev : Option (Node Unit)} {b : Node Unit}
    (hprev : ∀ p ∈ prev, p.isBranch = true)
    (hb : b.isBranch = true) : Spot.isLaidOut o ⟨prev, b⟩ = true := by
  obtain ⟨name, markup, opener, hkind⟩ := exists_of_isBranch hb
  rw [Spot.isLaidOut, isIgnored_branch hprev, whiteSpace, hkind]
  rfl

/-- Printing nodes one after the other makes their requests. -/
def AsksFor (ctx : PrintContext) (formatter : CodeFormatter) (ms : List (Node Unit)) (ns : List (Node Facts)) : Prop :=
  ∀ (outer : Lineage) (separates : Bool) (session : Session), outer.all (Spot.isLaidOut ctx.options) = true →
    ((printSiblings ctx formatter (ctx.options.indentWidth * outer.depth) separates none ns).run session).2 =
      formatter.after session (requestsOf ctx.options (lineagesOf outer none ms))

/-- Printing the branches of a tag makes their requests. The tag itself is the innermost node around them. -/
def BranchesAskFor (ctx : PrintContext) (formatter : CodeFormatter) (ms : List (Node Unit)) (ns : List (Node Facts)) :
    Prop :=
  ∀ (outer : Lineage) (level : Nat) (forced skipsFirst : Bool) (session : Session),
    outer.all (Spot.isLaidOut ctx.options) = true →
    level + ctx.options.indentWidth = ctx.options.indentWidth * outer.depth →
    ((printBranches ctx formatter level forced skipsFirst ns).run session).2 =
      formatter.after session (requestsOf ctx.options (lineagesOf outer none ms))

section

variable {m : Node Unit} {n : Node Facts} {prev : Option (Node Unit)} {before : Option (Node Facts)}
  {outer : Lineage} {session : Session}

theorem run_printNode_kept (hignored : isIgnored ctx before = false) (hkeeps : n.info.keepsLayout = true)
    (hbody : n.kind.hasBody = true) (hkind : n.kind ≠ .document) (level : Nat) :
    ((printNode ctx formatter level before n).run session).2 = session := by
  obtain ⟨info, span, kind, name, attributes, value, children⟩ := n
  simp only at hkeeps
  unfold printNode
  simp only [hignored, hkeeps, Bool.false_eq_true, if_false, if_true]
  cases kind with
  | document => exact absurd rfl hkind
  | element | block | branch => rfl
  | _ => cases hbody

theorem run_printBranches_cons {name : Option String} {markup : Markup} {opener : Delimiter}
    (hkind : n.kind = .branch name markup opener) (ns : List (Node Facts)) (level : Nat) (forced skipsFirst : Bool) :
    ((printBranches ctx formatter level forced skipsFirst (n :: ns)).run session).2 =
      ((printBranches ctx formatter level forced false ns).run
        ((printSiblings ctx formatter (level + ctx.options.indentWidth) false none n.children).run session).2).2 := by
  cases n
  simp only at hkind
  subst hkind
  rfl

/-- **A node makes the requests of its lineages** if its children make theirs. -/
theorem run_printNode_step (hn : m.Annotates s source n) (hprev : Option.Rel (Annotates s source) prev before)
    (harranged : m.Arranged) (hbranch : m.isBranch = false) (hopen : outer.all (Spot.isLaidOut ctx.options) = true)
    (hchildren : m.kind.isDivided = false → AsksFor ctx formatter m.children n.children)
    (hbranches : m.kind.isDivided = true → BranchesAskFor ctx formatter m.children n.children) :
    ((printNode ctx formatter (ctx.options.indentWidth * outer.depth) before n).run session).2 =
      formatter.after session (requestsOf ctx.options (m.lineages outer prev)) := by
  have hignored := isIgnored_eq ctx hprev m
  by_cases hleft : isIgnored ctx before = true
  · have hspot := hignored.symm.trans hleft
    rw [requestsOf_hidden hopen (by simp [Spot.isLaidOut, hspot]) (by simp [Spot.request?, hspot])]
    cases n
    unfold printNode
    rw [if_pos hleft]
    rfl
  have hleft : isIgnored ctx before = false := Bool.eq_false_iff.2 hleft
  have hspot := hignored.symm.trans hleft
  by_cases hbody : m.kind.hasBody = false
  · rw [run_printNode_leaf hleft hspot rfl hbody hn.kind, requestsOf_lineages _ _ hopen, harranged.childless hbody]
    simp [lineagesOf, requestsOf]
  have hbody : m.kind.hasBody = true := by simpa using hbody
  have hlaidOut : Spot.isLaidOut ctx.options ⟨prev, m⟩ = !n.info.keepsLayout := by
    rw [Spot.isLaidOut, hspot, hn.keepsLayout]
    rfl
  have hkind := hn.kind
  by_cases hkeeps : n.info.keepsLayout = true
  · rw [hkeeps] at hlaidOut
    have hdocument : m.kind ≠ .document := by
      intro hdocument
      have := hn.keepsLayout
      rw [hkeeps, whiteSpace, hdocument] at this
      cases this
    rw [requestsOf_hidden hopen hlaidOut (by simp [Spot.request?, embedded?_of_hasBody hbody])]
    exact run_printNode_kept hleft hkeeps (hkind ▸ hbody) (hkind ▸ hdocument) _
  have hkeeps : n.info.keepsLayout = false := Bool.eq_false_iff.2 hkeeps
  rw [hkeeps] at hlaidOut
  have hinner : (⟨prev, m⟩ :: outer : Lineage).all (Spot.isLaidOut ctx.options) = true := by
    rw [List.all_cons, hlaidOut, hopen]
    rfl
  have hdepth : Lineage.depth (⟨prev, m⟩ :: outer) = outer.depth + if n.kind.isIndenting then 1 else 0 := by
    rw [Lineage.depth, List.countP_cons, hkind]
    rfl
  rw [requestsOf_shown hopen hlaidOut hbody]
  unfold isBranch at hbranch
  rw [← hkind] at hbody hbranch hchildren hbranches
  obtain ⟨info, span, kind, name, attributes, value, children⟩ := n
  unfold printNode
  simp only at hkeeps
  simp only [hleft, hkeeps, Bool.false_eq_true, if_false]
  cases kind with
  | document =>
    have hsiblings := hchildren rfl _ false session hinner
    rw [← hsiblings, hdepth]
    by_cases hempty : children.isEmpty = true
    · rw [if_pos hempty, List.isEmpty_iff.1 hempty]
      rfl
    · rw [if_neg hempty]
      rfl
  | element opener closer =>
    rw [← hchildren rfl _ _ session hinner, hdepth]
    rfl
  | block tagName markup opener closer =>
    by_cases hdivided : isBranchedTag tagName = true
    · simp only [hdivided, if_true]
      exact hbranches hdivided _ _ _ _ session hinner (by rw [hdepth]; rfl)
    · simp only [hdivided, Bool.false_eq_true, if_false]
      rw [← hchildren (Bool.eq_false_iff.2 hdivided) _ _ session hinner, hdepth]
      rfl
  | branch => cases hbranch
  | _ => cases hbody

end

mutual

theorem run_printNode_after (m : Node Unit) {n : Node Facts} {prev : Option (Node Unit)} {before : Option (Node Facts)}
    {outer : Lineage} {session : Session} (hn : m.Annotates s source n)
    (hprev : Option.Rel (Annotates s source) prev before) (harranged : ∀ k ∈ m.preorder, k.Arranged)
    (hbranch : m.isBranch = false) (hopen : outer.all (Spot.isLaidOut ctx.options) = true) :
    ((printNode ctx formatter (ctx.options.indentWidth * outer.depth) before n).run session).2 =
      formatter.after session (requestsOf ctx.options (m.lineages outer prev)) := by
  have hhere := harranged m (mem_preorder.2 (.inl rfl))
  have hbelow := hn.children
  obtain ⟨_, mspan, mkind, mname, mattributes, mvalue, mchildren⟩ := m
  rw [preorder] at harranged
  have hrest := (List.forall_mem_append.1 (List.forall_mem_cons.1 harranged).2).2
  exact run_printNode_step hn hprev hhere hbranch hopen
    (fun h outer separates session hopen => run_printSiblings_after mchildren separates hbelow .none hrest
      (hhere.undivided h) hopen)
    (fun h outer level forced skips session hopen hlevel => run_printBranches_after mchildren forced skips hbelow nofun
      hrest (hhere.divided h) hopen hlevel)

theorem run_printSiblings_after (ms : List (Node Unit)) {ns : List (Node Facts)} {prev : Option (Node Unit)}
    {before : Option (Node Facts)} {outer : Lineage} {session : Session} (separates : Bool)
    (hns : List.Forall₂ (Annotates s source) ms ns) (hprev : Option.Rel (Annotates s source) prev before)
    (harranged : ∀ k ∈ preorderOf ms, k.Arranged) (hbranch : ∀ m ∈ ms, m.isBranch = false)
    (hopen : outer.all (Spot.isLaidOut ctx.options) = true) :
    ((printSiblings ctx formatter (ctx.options.indentWidth * outer.depth) separates before ns).run session).2 =
      formatter.after session (requestsOf ctx.options (lineagesOf outer prev ms)) := by
  cases hns with
  | nil => rfl
  | @cons m n ms ns hn hns =>
    obtain ⟨hm, hms⟩ := List.forall_mem_cons.1 hbranch
    obtain ⟨hfirst, hrest⟩ := List.forall_mem_append.1 harranged
    rw [requestsOf_cons, CodeFormatter.after_append, ← run_printNode_after m hn hprev hfirst hm hopen,
      ← run_printSiblings_after ms separates hns (.some hn) hrest hms hopen]
    rfl

theorem run_printBranches_after (ms : List (Node Unit)) {ns : List (Node Facts)} {prev : Option (Node Unit)}
    {outer : Lineage} {level : Nat} {session : Session} (forced skipsFirst : Bool)
    (hns : List.Forall₂ (Annotates s source) ms ns) (hprev : ∀ p ∈ prev, p.isBranch = true)
    (harranged : ∀ k ∈ preorderOf ms, k.Arranged) (hbranch : ∀ m ∈ ms, m.isBranch = true)
    (hopen : outer.all (Spot.isLaidOut ctx.options) = true)
    (hlevel : level + ctx.options.indentWidth = ctx.options.indentWidth * outer.depth) :
    ((printBranches ctx formatter level forced skipsFirst ns).run session).2 =
      formatter.after session (requestsOf ctx.options (lineagesOf outer prev ms)) := by
  cases hns with
  | nil => rfl
  | @cons m n ms ns hn hns =>
    obtain ⟨hm, hms⟩ := List.forall_mem_cons.1 hbranch
    obtain ⟨hfirst, hrest⟩ := List.forall_mem_append.1 harranged
    obtain ⟨name, markup, opener, hkind⟩ := exists_of_isBranch hm
    have hlaidOut := isLaidOut_branch (o := ctx.options) hprev hm
    have hinner : (⟨prev, m⟩ :: outer : Lineage).all (Spot.isLaidOut ctx.options) = true := by
      rw [List.all_cons, hlaidOut, hopen]
      rfl
    have hdepth : Lineage.depth (⟨prev, m⟩ :: outer) = outer.depth := by
      rw [Lineage.depth, List.countP_cons, hkind]
      rfl
    have hhere := hfirst m (mem_preorder.2 (.inl rfl))
    have hbelow := hn.children
    have hbranchKind := hn.kind.trans hkind
    rw [requestsOf_cons, CodeFormatter.after_append, requestsOf_shown hopen hlaidOut (by rw [hkind]; rfl),
      run_printBranches_cons hbranchKind, hlevel, ← hdepth]
    obtain ⟨_, mspan, mkind, mname, mattributes, mvalue, mchildren⟩ := m
    rw [preorder] at hfirst
    have hinside := (List.forall_mem_append.1 (List.forall_mem_cons.1 hfirst).2).2
    rw [run_printSiblings_after mchildren false hbelow .none hinside (hhere.undivided (by rw [hkind]; rfl)) hinner]
    exact run_printBranches_after ms forced false hns (by simpa using hm) hrest hms hopen hlevel

end

end

theorem Document.run_print_after {source : String} {strictness : Strictness} {d : Document Unit}
    (hparse : Document.parse source strictness = .ok d) (o : Options) (formatter : CodeFormatter) :
    (((d.annotate o.sensitivity).print o formatter).run {}).2 = formatter.after {} (d.requests o) := by
  have hroot := d.annotates_root o.sensitivity
  have hbranch : d.root.isBranch = false := by rw [Node.isBranch, kind_root_of_parse hparse]
  exact @run_printNode_after _ _ ⟨(d.annotate o.sensitivity).source.toList, o⟩ formatter d.root _ none none [] {} hroot
    .none (arranged_of_parse hparse) hbranch rfl

/-- **The formatter of embedded code sees the requests of the template, whatever it answers.** The template cannot be
formatted if one of them fails, and the last error is reported. -/
theorem format_requests {o : Options} {source : String} {d : Document Unit} (hparse : Document.parse source = .ok d)
    (hignored : d.isIgnored o = false) (hindent : 0 < o.indentWidth) (formatter : CodeFormatter) :
    (format o formatter source).2 = d.requests o ∧
      (∀ message, (format o formatter source).1 = .error (.code message) ↔
        (formatter.failures (d.requests o)).getLast? = some message) ∧
      ((formatter.failures (d.requests o)) = [] ↔ ∃ text, (format o formatter source).1 = .ok text) := by
  have hprint := Document.run_print_after hparse o formatter
  have hrequests := formatter.requests_after {} (d.requests o)
  have hfailure := formatter.failure_after (d.requests o)
  rw [← hprint] at hrequests hfailure
  rw [List.nil_append] at hrequests
  unfold format
  rw [hparse]
  dsimp only
  unfold Document.format
  rw [if_neg (by rw [hignored]; exact Bool.false_ne_true)]
  generalize StateT.run _ _ = printed at hrequests hfailure
  obtain ⟨doc, session⟩ := printed
  dsimp only at hrequests hfailure ⊢
  rw [← hrequests] at hfailure ⊢
  cases hlast : session.failure with
  | none =>
    have hnil := List.getLast?_eq_none_iff.1 (hfailure.symm.trans hlast)
    simp [Nat.ne_of_gt hindent, hnil]
  | some message =>
    have hlast := hfailure.symm.trans hlast
    have hne : formatter.failures session.requests ≠ [] := by
      intro hnil
      rw [hnil] at hlast
      cases hlast
    simp [hne, hlast]

/-- Of three scripts the one in an element that keeps its layout is left alone, and a failure is reported. -/
theorem requests_of_branch_and_pre : ∃ d,
    Document.parse
      "<p><script>a</script>\x7b% if b %\x7d<style>c</style>\x7b% endif %\x7d</p><pre><script>d</script></pre>" =
        .ok d ∧
    d.requests {} = [⟨"a", .javascript, 76, 2⟩, ⟨"c", .css, 74, 2⟩] ∧
    (format {} (.failing (some ["css"]))
      "<p><script>a</script>\x7b% if b %\x7d<style>c</style>\x7b% endif %\x7d</p><pre><script>d</script></pre>").1 =
      .error (.code "call 2 failed on css") := by
  obtain ⟨d, hd, hfacts⟩ := exists_eq_ok
    (P := fun d : Document Unit =>
      !d.isIgnored {} && d.requests {} = [⟨"a", .javascript, 76, 2⟩, ⟨"c", .css, 74, 2⟩])
    (x := Document.parse
      "<p><script>a</script>\x7b% if b %\x7d<style>c</style>\x7b% endif %\x7d</p><pre><script>d</script></pre>")
    (by decide +kernel)
  simp only [Bool.and_eq_true, Bool.not_eq_true', decide_eq_true_eq] at hfacts
  obtain ⟨-, hfailed, -⟩ := format_requests hd hfacts.1 (by decide) (.failing (some ["css"]))
  refine ⟨d, hd, hfacts.2, (hfailed _).2 ?_⟩
  rw [hfacts.2]
  decide +kernel

end LiquidTemplate
