import LiquidTemplate.Format
import LiquidTemplate.Proofs.Nesting.Branches
import LiquidTemplate.Proofs.Nesting.Strict
import LiquidTemplate.Proofs.Print.Placed
import LiquidTemplate.Proofs.Print.TrimMarkers

/-!
# Trim markers in a formatted template

The tags of a template that is formatted, wherever they stand in it. `blockStretches` reads the delimiters of a
tag and the nodes between them off the tree. The main statement is about the formatted text: where a tag is laid
out, it has the trim markers of the source and the ones that make up for line breaks, at every width.
-/

namespace LiquidTemplate

/-! ## Delimiters of a tag -/

/-- A branch with a name as a stretch of its tag. -/
def branchStretch? (q : Quote) (b : Node Facts) : Option Stretch :=
  match b.kind with
  | .branch (some name) markup opener => some ⟨tagHead q name markup, opener, b.children⟩
  | _ => none

/-- The stretches of a tag. In a branched tag the first branch follows the opening delimiter. -/
def blockStretches (q : Quote) (name : String) (markup : Markup) (opener : Delimiter)
    (children : List (Node Facts)) : List Stretch :=
  if isBranchedTag name then
    ⟨tagHead q name markup, opener, (children.head?.map (·.children)).getD []⟩ ::
      children.tail.filterMap (branchStretch? q)
  else [⟨tagHead q name markup, opener, children⟩]

section

variable {ctx : PrintContext} {formatter : CodeFormatter} {level : Nat}

theorem isMarked_branchBody (style : PageStyle) (forced skipped : Bool) {b : Node Facts}
    (hknows : ∀ c ∈ b.children, c.KnowsSource ctx.source) (session : Session) :
    (branchBody ctx forced skipped b
      ((printSiblings ctx formatter level false none b.children).run session).1).IsMarked
        style ctx formatter b.children := by
  unfold branchBody
  split
  next hskipped =>
    have hnil : b.children = [] := by simp_all
    rw [hnil]
    exact Body.isMarked_nil style ctx formatter _ _
  next => exact Body.isMarked_bodyOf style forced b.info hknows level false session

theorem forall₂_printBranches (style : PageStyle) (forced skipped : Bool) {bs : List (Node Facts)}
    (hnamed : ∀ b ∈ bs, ∃ name markup opener, b.kind = .branch (some name) markup opener)
    (hknows : ∀ b ∈ bs, ∀ c ∈ b.children, c.KnowsSource ctx.source) (session : Session) :
    List.Forall₂ (Part.Prints style ctx formatter)
      ((printBranches ctx formatter level forced skipped bs).run session).1
      (bs.filterMap (branchStretch? (ctx.stringQuote none))) := by
  induction bs generalizing skipped session with
  | nil => exact .nil
  | cons b bs ih =>
    obtain ⟨name, markup, opener, hkind⟩ := hnamed b List.mem_cons_self
    obtain ⟨later, hrun⟩ := run_printBranches_branch ctx formatter level hkind forced skipped bs session
    have hstretch : branchStretch? (ctx.stringQuote none) b =
        some ⟨tagHead (ctx.stringQuote none) name markup, opener, b.children⟩ := by
      simp [branchStretch?, hkind]
    rw [hrun, List.filterMap_cons, hstretch]
    refine .cons ⟨rfl, ?_⟩ (ih false (fun c hc => hnamed c (List.mem_cons_of_mem _ hc))
      (fun c hc => hknows c (List.mem_cons_of_mem _ hc)) later)
    exact isMarked_branchBody style forced skipped (hknows b List.mem_cons_self) session

end

/-! ## Nodes of a template that was read -/

/-- A node of a template that was read: its root, or a node that some tokens stand for. -/
def Node.InTemplate (m : Node Unit) : Prop :=
  m.IsDerived ∨ (m.kind = .document ∧ ∀ c ∈ m.children, c.IsDerived)

theorem inTemplate_root {source : String} {d : Document Unit} (h : Document.parse source = .ok d) :
    d.root.InTemplate ∧ d.source = source := by
  obtain ⟨tokens, htokens⟩ := ofSource_of_parse h
  obtain ⟨nodes, hderives, rfl⟩ := derives_of_parse htokens h
  exact ⟨.inr ⟨rfl, hderives.isDerived_of_mem⟩, rfl⟩

theorem LaidOut.inTemplate {ctx : PrintContext} {s : Sensitivity} {m : Node Unit} {root n : Node Facts}
    {prev : Option (Node Facts)} (hroot : m.InTemplate) (hannotates : m.Annotates s ctx.source root)
    (h : LaidOut ctx root prev n) : ∃ k : Node Unit, k.InTemplate ∧ k.Annotates s ctx.source n := by
  induction h with
  | root => exact ⟨m, hroot, hannotates⟩
  | @child prev n c before after _ _ undivided split ih =>
    obtain ⟨k, hk, hkn⟩ := ih
    obtain ⟨j, hj, hjc⟩ := Node.Annotates.exists_of_mem hkn.children (show c ∈ n.children by simp [split])
    refine ⟨j, .inl ?_, hjc⟩
    rcases hk with hk | ⟨-, hk⟩
    · refine hk.children (fun name markup opener closer hkind => ?_) j hj
      simpa [Node.isBranched, hkn.kind, hkind] using undivided
    · exact hk j hj
  | @branchChild prev n b c before after _ _ _ _ _ divided mem branch split ih =>
    obtain ⟨k, hk, hkn⟩ := ih
    obtain ⟨i, hi, hib⟩ := Node.Annotates.exists_of_mem hkn.children mem
    obtain ⟨j, hj, hjc⟩ := Node.Annotates.exists_of_mem hib.children (show c ∈ b.children by simp [split])
    refine ⟨j, .inl ?_, hjc⟩
    unfold Node.isBranched at divided
    split at divided
    next name markup opener closer hkind =>
      rw [hkn.kind] at hkind
      rcases hk with hk | ⟨hdocument, -⟩
      · obtain ⟨first, rest, -, -, -, hderived⟩ := hk.areBranches hkind divided
        exact hderived i hi j hj
      · rw [hdocument] at hkind
        cases hkind
    next => cases divided

theorem knowsSource_children {s : Sensitivity} {source : List Char} {k : Node Unit} {n : Node Facts}
    (h : k.Annotates s source n) : ∀ c ∈ n.children, c.KnowsSource source := by
  intro c hc
  obtain ⟨j, -, hj⟩ := Node.Annotates.exists_of_mem h.children hc
  exact hj.knowsSource

/-! ## Tags on the page -/

section

variable {ctx : PrintContext} {formatter : CodeFormatter} {level : Nat} {prev : Option (Node Facts)} {n : Node Facts}
  {s : Sensitivity} {k : Node Unit} {name : String} {markup : Markup} {opener closer : Delimiter}

theorem blockText_undivided (style : PageStyle) (hannotates : k.Annotates s ctx.source n)
    (hname : isBranchedTag name = false) {session : Session} {indent : Nat} {flat : Bool} {text : String}
    (h : Doc.Layout style indent flat (printBlock name (tagHead (ctx.stringQuote none) name markup) opener
      (some closer) (blockParts ctx formatter level name n session)) text) :
    BlockText style ctx formatter name (blockStretches (ctx.stringQuote none) name markup opener n.children) closer
      text := by
  rw [blockParts, hname] at h
  rw [blockStretches, hname]
  have hbody := @Body.isMarked_bodyOf style ctx formatter (n.isForced ctx.source) n.info
    n.children (knowsSource_children hannotates) (level + ctx.options.indentWidth) n.separatesChildren session
  exact layout_printBlock (s := ⟨tagHead (ctx.stringQuote none) name markup, opener, n.children⟩) rfl rfl hbody .nil h

theorem blockText_divided (style : PageStyle) (hannotates : k.Annotates s ctx.source n)
    (hbranches : Node.AreBranches k.children) (hname : isBranchedTag name = true) {session : Session} {indent : Nat}
    {flat : Bool} {text : String}
    (h : Doc.Layout style indent flat (printBlock name (tagHead (ctx.stringQuote none) name markup) opener
      (some closer) (blockParts ctx formatter level name n session)) text) :
    BlockText style ctx formatter name (blockStretches (ctx.stringQuote none) name markup opener n.children) closer
      text := by
  obtain ⟨first, rest, hk, ⟨firstMarkup, firstOpener, hfirst⟩, hrest, -⟩ := hbranches
  have hchildren := hannotates.children
  rw [hk] at hchildren
  obtain ⟨b, bs, hb, hbs, hn⟩ := List.forall₂_cons_left_iff.1 hchildren
  have hbranch : b.kind = .branch none firstMarkup firstOpener := hb.kind.trans hfirst
  have hnamed : ∀ c ∈ bs, ∃ name markup opener, c.kind = .branch (some name) markup opener := by
    intro c hc
    obtain ⟨j, hj, hjc⟩ := Node.Annotates.exists_of_mem hbs hc
    obtain ⟨name, markup, opener, hkind⟩ := hrest j hj
    exact ⟨name, markup, opener, hjc.kind.trans hkind⟩
  have hknows : ∀ c ∈ bs, ∀ e ∈ c.children, e.KnowsSource ctx.source := by
    intro c hc
    obtain ⟨j, -, hjc⟩ := Node.Annotates.exists_of_mem hbs hc
    exact knowsSource_children hjc
  obtain ⟨later, hrun⟩ := run_printBranches_branch ctx formatter level hbranch (n.isForced ctx.source)
    n.isDividedCase bs session
  rw [blockParts, hname, if_pos rfl, hn, hrun] at h
  rw [blockStretches, hname, if_pos rfl, hn]
  exact layout_printBlock (s := ⟨tagHead (ctx.stringQuote none) name markup, opener, b.children⟩) rfl rfl
    (isMarked_branchBody style _ _ (knowsSource_children hb) session)
    (forall₂_printBranches style _ false hnamed hknows later) h

theorem blockText_printNode (style : PageStyle) (htemplate : k.InTemplate) (hannotates : k.Annotates s ctx.source n)
    {closer : Option Delimiter} (hkind : n.kind = .block name markup opener closer)
    (hignored : isIgnored ctx prev = false) (hkeeps : n.info.keepsLayout = false) {session : Session} {indent : Nat}
    {flat : Bool} {text : String}
    (h : Doc.Layout style indent flat ((printNode ctx formatter level prev n).run session).1 text) :
    ∃ d, closer = some d ∧
      BlockText style ctx formatter name (blockStretches (ctx.stringQuote none) name markup opener n.children) d
        text := by
  rw [run_printNode_block hignored hkeeps hkind] at h
  have hk : k.kind = .block name markup opener closer := hannotates.kind.symm.trans hkind
  rcases htemplate with hderived | ⟨hdocument, -⟩
  · obtain ⟨d, rfl⟩ := hderived.closed hk
    refine ⟨d, rfl, ?_⟩
    cases hname : isBranchedTag name with
    | false => exact blockText_undivided style hannotates hname h
    | true => exact blockText_divided style hannotates (hderived.areBranches hk hname) hname h
  · rw [hdocument] at hk
    cases hk

end

/-! ## Formatted templates -/

theorem format_eq_ok {o : Options} {formatter : CodeFormatter} {source t : String} {d : Document Unit}
    (hparse : Document.parse source = .ok d) (hfile : d.isIgnored o = false)
    (h : (format o formatter source).1 = .ok t) :
    t = ((((d.annotate o.sensitivity).print o formatter).run {}).1).render o.pageStyle := by
  unfold format at h
  rw [hparse] at h
  simp only [Document.format, hfile, Bool.false_eq_true, if_false] at h
  generalize ((d.annotate o.sensitivity).print o formatter).run {} = result at h ⊢
  obtain ⟨doc, session⟩ := result
  simp only at h
  split at h
  · cases h
  · split at h
    · cases h
    · exact (Except.ok.inj h).symm

theorem LaidOut.top {source : String} {d : Document Unit} (hparse : Document.parse source = .ok d) {s : Sensitivity}
    (ctx : PrintContext) {before after : List (Node Facts)} {n : Node Facts}
    (hsplit : (d.annotate s).root.children = before ++ n :: after) :
    LaidOut ctx (d.annotate s).root before.getLast? n := by
  obtain ⟨tokens, htokens⟩ := ofSource_of_parse hparse
  obtain ⟨nodes, -, rfl⟩ := derives_of_parse htokens hparse
  exact .child .root rfl rfl hsplit

/-- A document whose only node is a tag that is laid out. -/
def hasLoneBlock (o : Options) (d : Document Unit) : Bool :=
  !d.isIgnored o &&
    match (d.annotate o.sensitivity).root.children with
    | [⟨info, _, .block _ _ _ _, _, _, _, _⟩] => !info.keepsLayout
    | _ => false

/-- **The trim markers of a formatted template are sound.** Wherever a tag with a body is laid out, it is closed,
and it stands in the formatted text with its stretches one after the other: each delimiter has the markers of the
source, the outer sides of the tag have no others, and an inner side has another one exactly if the node next to it
sticks to the delimiter and a line break is printed between them. -/
theorem format_trimMarkers {o : Options} {formatter : CodeFormatter} {source t : String} {d : Document Unit}
    (hparse : Document.parse source = .ok d) (hfile : d.isIgnored o = false)
    (hformat : (format o formatter source).1 = .ok t) {prev : Option (Node Facts)} {n : Node Facts}
    (hlaid : LaidOut ⟨source.toList, o⟩ (d.annotate o.sensitivity).root prev n) {name : String} {markup : Markup}
    {opener : Delimiter} {closer : Option Delimiter} (hkind : n.kind = .block name markup opener closer)
    (hignored : isIgnored ⟨source.toList, o⟩ prev = false) (hkeeps : n.info.keepsLayout = false) :
    ∃ (e : Delimiter) (before text after : String), closer = some e ∧ t = before ++ text ++ after ∧
      (∃ (level : Nat) (session : Session) (indent : Nat) (flat : Bool) (rest : Nat → Bool) (column : Nat),
        ((((printNode ⟨source.toList, o⟩ formatter level prev n).run session).1).renderOn o.pageStyle indent flat rest
          ⟨before, column⟩).out = before ++ text) ∧
      BlockText o.pageStyle ⟨source.toList, o⟩ formatter name
        (blockStretches o.liquidQuotes name markup opener n.children) e text := by
  obtain ⟨htemplate, hsource⟩ := inTemplate_root hparse
  have hroot := Document.annotates_root o.sensitivity d
  rw [hsource] at hroot
  have hout := format_eq_ok hparse hfile hformat
  obtain ⟨level, session, hcontains⟩ := hlaid.contains formatter {}
  obtain ⟨indent, flat, rest, ⟨before, column⟩, after, hrender⟩ :=
    hcontains.renderOn o.pageStyle 0 false (fun _ => true) {}
  obtain ⟨text, hlayout, htext⟩ :=
    (((printNode ⟨source.toList, o⟩ formatter level prev n).run session).1).renderOn_layout o.pageStyle indent flat rest
      ⟨before, column⟩
  obtain ⟨k, hk, hkn⟩ := hlaid.inTemplate htemplate hroot
  obtain ⟨e, rfl, hblock⟩ := blockText_printNode o.pageStyle hk hkn hkind hignored hkeeps hlayout
  refine ⟨e, before, text, after, rfl, ?_, ⟨level, session, indent, flat, rest, column, htext⟩, hblock⟩
  rw [hout, ← htext, ← hrender, Doc.render, Document.print, Document.annotate, hsource]

/-- A tag around a text, on a page where it does not fit on one line. -/
theorem trimMarkers_around_text :
    ∃ (t : String) (d : Document Unit) (n : Node Facts) (name : String) (markup : Markup) (opener e : Delimiter)
      (before text after : String),
      Document.parse "\x7b% if a %\x7db\x7b% endif %\x7d" = .ok d ∧
      t = "\x7b% if a -%\x7d\n  b\n\x7b%- endif %\x7d\n" ∧ t = before ++ text ++ after ∧
      LaidOut ⟨"\x7b% if a %\x7db\x7b% endif %\x7d".toList, { printWidth := 10 }⟩ (d.annotate .css).root none n ∧
      n.kind = .block name markup opener (some e) ∧
      BlockText (Options.pageStyle { printWidth := 10 })
        ⟨"\x7b% if a %\x7db\x7b% endif %\x7d".toList, { printWidth := 10 }⟩ .identity name
        (blockStretches .double name markup opener n.children) e text := by
  obtain ⟨t, hformat, ht⟩ :=
    @exists_eq_ok _ _ (format { printWidth := 10 } .identity "\x7b% if a %\x7db\x7b% endif %\x7d").1
      (fun t => t = "\x7b% if a -%\x7d\n  b\n\x7b%- endif %\x7d\n") (by decide +kernel)
  obtain ⟨d, hparse, hd⟩ :=
    @exists_eq_ok _ _ (Document.parse "\x7b% if a %\x7db\x7b% endif %\x7d") (hasLoneBlock { printWidth := 10 })
      (by decide +kernel)
  simp only [hasLoneBlock, Bool.and_eq_true, Bool.not_eq_true'] at hd
  obtain ⟨hfile, hlone⟩ := hd
  split at hlone
  next info span name markup opener closer nameNodes attributes value children hchildren =>
    have hlaid := @LaidOut.top _ d hparse .css
      ⟨"\x7b% if a %\x7db\x7b% endif %\x7d".toList, { printWidth := 10 }⟩ [] [] _ hchildren
    obtain ⟨e, before, text, after, rfl, hout, -, hblock⟩ :=
      format_trimMarkers hparse hfile hformat hlaid rfl rfl (by simpa using hlone)
    exact ⟨t, d, _, name, markup, opener, e, before, text, after, hparse, by simpa using ht, hout, hlaid, rfl, hblock⟩
  next => cases hlone

end LiquidTemplate
