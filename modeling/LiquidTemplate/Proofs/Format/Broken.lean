import LiquidTemplate.Proofs.Print.Broken
import LiquidTemplate.Proofs.Print.MarkedTags

/-!
# Nodes that take several lines in a formatted template

The nodes that are laid out in a template that was read are regular (`LaidOut.regular`), so what `Node.breaks` says of
them before printing can be compared with the formatted text: there is a line feed in the text of a node that breaks,
at every width, unless it is one of those of which too much is said, and then there is none (`format_breaks`).
-/

namespace LiquidTemplate

/-! ## Tokens and nodes -/

/-- What reading a template ensures of a token: a text ends in a word, markup is spelled as it is read, and no tag that
opens a block stands alone. -/
structure Token.Regular (t : Token) : Prop where
  word : ∀ slice, t = .text slice → ∃ v x, slice.text.toList = v ++ [x] ∧ Text.isBlank x = false
  spelled : t.Spelled
  opened : t.isBlockLeaf = false

theorem Token.regular_of_ofSource {source : String} {tokens : List Token} (h : Token.ofSource source = .ok tokens) :
    ∀ t ∈ tokens, t.Regular := by
  intro t ht
  have hspelled := Grammar.spelledRules.ofSource Grammar.givesReadable_readNested trivial h
  refine ⟨?_, (hspelled t ht).here, (opened_of_ofSource h t ht).here⟩
  rintro slice rfl
  exact endsInWord_of_ofSource h ht

namespace Node

variable {s : Sensitivity} {source : List Char} {k : Node Unit} {n : Node Facts}

theorem Annotates.keepsLayout_tag (hn : k.Annotates s source n) {name : String} (hname : name ≠ "capture")
    (hkind : (∃ markup opener, k.kind = .tag name markup opener) ∨
      ∃ markup opener closer, k.kind = .block name markup opener closer) : n.info.keepsLayout = false := by
  have hkeeps := k.keepsLayout_eq
  rw [hn.keepsLayout]
  rcases hkind with ⟨markup, opener, hkind⟩ | ⟨markup, opener, closer, hkind⟩ <;>
    simpa [Node.keepsLayout, hkind, hname] using hkeeps.symm

theorem StandsFor.regular (h : k.StandsFor Token.Regular) (harranged : k.Arranged) (hbranch : k.isBranch = false)
    (hn : k.Annotates s source n) : n.Regular := by
  unfold Regular
  rw [hn.kind]
  cases hkind : k.kind with
  | text value =>
    obtain ⟨t, ht, hleaf⟩ := h.leaf (by rw [hkind]; rfl)
    obtain ⟨slice, rfl, rfl⟩ := text_of_leafKind? (hkind ▸ hleaf)
    exact ht.word slice rfl
  | tag name markup opener =>
    obtain ⟨t, ht, hleaf⟩ := h.leaf (by rw [hkind]; rfl)
    rw [hkind] at hleaf
    obtain rfl := Token.tag_of_leafKind? hleaf
    have hname : name ∉ Grammar.blockNames := of_decide_eq_false ht.opened
    refine hn.keepsLayout_tag (fun hcapture => hname ?_) (.inl ⟨markup, opener, hkind⟩)
    rw [hcapture]
    decide
  | block name markup opener closer =>
    have hbranched : n.isBranched = isBranchedTag name := by rw [isBranched, hn.kind, hkind]
    refine ⟨?_, fun hdivided => ?_, fun hdivided b hb => ?_⟩
    · rintro lines rfl
      rcases (h.block _ _ _ _ hkind).spelled with ⟨text, htext⟩ | hspelled
      · cases htext
      · exact hspelled
    · refine hn.keepsLayout_tag ?_ (.inr ⟨markup, opener, closer, hkind⟩)
      rintro rfl
      rw [hbranched] at hdivided
      exact absurd hdivided (by decide)
    · have hdivided : k.kind.isDivided = true := by rw [hkind, Kind.isDivided, ← hbranched, hdivided]
      obtain ⟨c, hc, hcb⟩ := Annotates.exists_of_mem hn.children hb
      obtain ⟨bname, bmarkup, bopener, hckind⟩ := exists_of_isBranch (harranged.divided hdivided c hc)
      exact ⟨bname, bmarkup, bopener, hcb.kind.trans hckind⟩
  | branch name markup opener =>
    rw [isBranch, hkind] at hbranch
    cases hbranch
  | _ => trivial

end Node

/-! ## Laid out nodes -/

/-- What is laid out below the root are nodes below it in the tree, annotated, and none of them is a branch. -/
theorem LaidOut.root_or_below {ctx : PrintContext} {s : Sensitivity} {P : Node Unit → Prop} {m : Node Unit}
    {root n : Node Facts} {prev : Option (Node Facts)} (h : LaidOut ctx root prev n) (hm : m.Arranged)
    (hbelow : ∀ c ∈ m.children, c.Through P) (harranged : ∀ k, P k → k.Arranged)
    (hroot : m.Annotates s ctx.source root) :
    (prev = none ∧ n = root) ∨ ∃ k : Node Unit, k.Through P ∧ k.isBranch = false ∧ k.Annotates s ctx.source n := by
  -- all that matters of the node around another one
  have hparent {prev : Option (Node Facts)} {n : Node Facts} (h : (prev = none ∧ n = root) ∨
      ∃ k : Node Unit, k.Through P ∧ k.isBranch = false ∧ k.Annotates s ctx.source n) :
      ∃ k : Node Unit, k.Arranged ∧ (∀ c ∈ k.children, c.Through P) ∧ k.Annotates s ctx.source n := by
    rcases h with ⟨-, rfl⟩ | ⟨k, hk, -, hkn⟩
    · exact ⟨m, hm, hbelow, hroot⟩
    · exact ⟨k, harranged k hk.own, hk.inside, hkn⟩
  induction h with
  | root => exact .inl ⟨rfl, rfl⟩
  | @child prev n c before after _ _ undivided split ih =>
    obtain ⟨k, hk, hinside, hkn⟩ := hparent ih
    obtain ⟨j, hj, hjc⟩ := Node.Annotates.exists_of_mem hkn.children (show c ∈ n.children by simp [split])
    refine .inr ⟨j, hinside j hj, hk.undivided ?_ j hj, hjc⟩
    rw [← hkn.kind]
    exact undivided
  | @branchChild prev n b c before after _ _ _ _ _ _ mem branch split ih =>
    obtain ⟨k, -, hinside, hkn⟩ := hparent ih
    obtain ⟨i, hi, hib⟩ := Node.Annotates.exists_of_mem hkn.children mem
    obtain ⟨j, hj, hjc⟩ := Node.Annotates.exists_of_mem hib.children (show c ∈ b.children by simp [split])
    have hi := hinside i hi
    refine .inr ⟨j, hi.inside j hj, (harranged i hi.own).undivided ?_ j hj, hjc⟩
    rw [← hib.kind, branch]
    rfl

theorem LaidOut.exists_through {ctx : PrintContext} {s : Sensitivity} {P : Node Unit → Prop} {m : Node Unit}
    {root n : Node Facts} {prev : Option (Node Facts)} (h : LaidOut ctx root prev n) (hm : m.Through P)
    (harranged : ∀ k, P k → k.Arranged) (hbranch : m.isBranch = false) (hroot : m.Annotates s ctx.source root) :
    ∃ k : Node Unit, k.Through P ∧ k.isBranch = false ∧ k.Annotates s ctx.source n := by
  rcases h.root_or_below (harranged m hm.own) hm.inside harranged hroot with ⟨-, rfl⟩ | hbelow
  · exact ⟨m, hm, hbranch, hroot⟩
  · exact hbelow

theorem through_arranged_of_parse {source : String} {d : Document Unit} (h : Document.parse source = .ok d) :
    d.root.Through Node.Arranged :=
  (Node.through_of_preorder d.root (arranged_of_parse h)).imp fun k hk => hk k (Node.mem_preorder.2 (.inl rfl))

theorem through_standsFor_of_parse {source : String} {d : Document Unit} (h : Document.parse source = .ok d) :
    d.root.Through fun k => k.Arranged ∧ k.StandsFor Token.Regular := by
  refine (through_arranged_of_parse h).and ?_
  obtain ⟨tokens, htokens⟩ := ofSource_of_parse h
  obtain ⟨nodes, hderives, rfl⟩ := derives_of_parse htokens h
  exact .mk ⟨nofun, nofun⟩ (hderives.through_standsFor (Token.regular_of_ofSource htokens))

/-- **What is laid out in a template is regular.** -/
theorem LaidOut.regular {source : String} {d : Document Unit} {o : Options} {prev : Option (Node Facts)}
    {n : Node Facts} (hparse : Document.parse source = .ok d)
    (h : LaidOut ⟨source.toList, o⟩ (d.annotate o.sensitivity).root prev n) : n.Regular := by
  have hroot := Document.annotates_root o.sensitivity d
  rw [source_of_parse hparse] at hroot
  have hbranch : d.root.isBranch = false := by rw [Node.isBranch, kind_root_of_parse hparse]
  obtain ⟨k, hk, hkbranch, hkn⟩ :=
    h.exists_through (through_standsFor_of_parse hparse) (fun _ hk => hk.1) hbranch hroot
  exact hk.own.2.regular hk.own.1 hkbranch hkn

/-! ## Branches -/

/-- The body of a branch that breaks is a part of its tag, and it takes several lines. -/
theorem exists_feeds_branch {ctx : PrintContext} {prev : Option (Node Facts)} {n b : Node Facts} (hregular : n.Regular)
    (hignored : isIgnored ctx prev = false) (hdivided : n.isBranched = true) (hb : b ∈ n.children)
    (hbreaks : b.breaks ctx.source = true) (style : PageStyle) (formatter : CodeFormatter) (level : Nat)
    (session : Session) :
    ∃ inner later, ∃ body : Body, body = bodyOf ctx (n.isForced ctx.source) b.info b.children
        ((printSiblings ctx formatter inner false none b.children).run later).1 ∧
      (((printNode ctx formatter level prev n).run session).1).Contains body.doc ∧ body.doc.Feeds style true := by
  have hbranched := hdivided
  unfold Node.isBranched at hbranched
  split at hbranched
  next name markup opener closer hkind =>
    simp only [Node.Regular, hkind] at hregular
    obtain ⟨-, hkeeps, hbranches⟩ := hregular
    obtain ⟨bname, bmarkup, bopener, hbkind⟩ := hbranches hdivided b hb
    have hbforced : b.isForced ctx.source = true := by simpa [Node.breaks, Node.breaksIf, hbkind] using hbreaks
    have hne := children_ne_nil_of_isForced (by rw [Node.isBranched, hbkind]) hbforced
    have hforced : n.isForced ctx.source = true := by
      rw [Node.isForced_eq, if_pos hdivided, anyForced_iff.2 ⟨b, hb, hbforced⟩, Bool.or_true]
    obtain ⟨later, part, hpart, hbody⟩ :=
      exists_part_printBranches ctx formatter level hb hbkind hne (n.isForced ctx.source) n.isDividedCase session
    refine ⟨_, later, part.body, hbody, ?_, ?_⟩
    · rw [run_printNode_block hignored (hkeeps hdivided) hkind, blockParts, if_pos hbranched]
      exact contains_printBlock hpart
    · rw [hbody, hforced]
      exact feeds_bodyOf style ctx b.info _ hne
  next => cases hbranched

/-! ## Formatted templates -/

/-- A document is printed as `text` on the way to a page. -/
def Doc.PrintedAs (style : PageStyle) (page : String) (d : Doc) (text : String) : Prop :=
  ∃ (before after : String) (indent : Nat) (flat : Bool) (rest : Nat → Bool) (column : Nat),
    page = before ++ text ++ after ∧ (d.renderOn style indent flat rest ⟨before, column⟩).out = before ++ text

theorem Doc.Contains.exists_layout {d e : Doc} (h : d.Contains e) (style : PageStyle) :
    ∃ text indent flat, e.PrintedAs style (d.render style) text ∧ e.Layout style indent flat text := by
  obtain ⟨indent, flat, rest, ⟨before, column⟩, after, hrender⟩ := h.renderOn style 0 false (fun _ => true) {}
  obtain ⟨text, hlayout, htext⟩ := e.renderOn_layout style indent flat rest ⟨before, column⟩
  refine ⟨text, indent, flat, ⟨before, after, indent, flat, rest, column, ?_, htext⟩, hlayout⟩
  rw [Doc.render, hrender, htext]

theorem Doc.Contains.printedAs {d e : Doc} {style : PageStyle} {feeds : Bool} (h : d.Contains e)
    (hfeeds : e.Feeds style feeds) :
    ∃ text, e.PrintedAs style (d.render style) text ∧ Text.hasLineFeed text = feeds := by
  obtain ⟨text, indent, flat, hprinted, hlayout⟩ := h.exists_layout style
  exact ⟨text, hprinted, hfeeds indent flat text hlayout⟩

/-- **What is said to take several lines does so in the formatted template.** There is a line feed in the text of a
node that breaks exactly if this is not overstated, and in the text of each branch that breaks. -/
theorem format_breaks {o : Options} {formatter : CodeFormatter} {source t : String} {d : Document Unit}
    (hparse : Document.parse source = .ok d) (hfile : d.isIgnored o = false)
    (hformat : (format o formatter source).1 = .ok t) {prev : Option (Node Facts)} {n : Node Facts}
    (hlaid : LaidOut ⟨source.toList, o⟩ (d.annotate o.sensitivity).root prev n)
    (hignored : isIgnored ⟨source.toList, o⟩ prev = false) :
    (n.breaks source.toList = true → ∃ (level : Nat) (session : Session) (text : String),
      (((printNode ⟨source.toList, o⟩ formatter level prev n).run session).1).PrintedAs o.pageStyle t text ∧
        Text.hasLineFeed text = !n.overstates ⟨source.toList, o⟩) ∧
    (n.isBranched = true → ∀ b ∈ n.children, b.breaks source.toList = true →
      ∃ (level : Nat) (session : Session) (text : String),
        ((bodyOf ⟨source.toList, o⟩ (n.isForced source.toList) b.info b.children
          ((printSiblings ⟨source.toList, o⟩ formatter level false none b.children).run session).1).doc).PrintedAs
            o.pageStyle t text ∧ Text.hasLineFeed text = true) := by
  have hregular := hlaid.regular hparse
  have hpage : t = (((printNode ⟨source.toList, o⟩ formatter 0 none (d.annotate o.sensitivity).root).run {}).1).render
      o.pageStyle := by
    rw [format_eq_ok hparse hfile hformat, Document.print, Document.annotate, source_of_parse hparse]
  obtain ⟨level, session, hcontains⟩ := hlaid.contains formatter {}
  rw [hpage]
  constructor
  · intro hbreaks
    obtain ⟨text, hprinted, hfeed⟩ :=
      hcontains.printedAs (feeds_printNode o.pageStyle hregular hignored hbreaks level session)
    exact ⟨level, session, text, hprinted, hfeed⟩
  · intro hdivided b hb hbreaks
    obtain ⟨inner, later, body, rfl, hbody, hfeeds⟩ :=
      exists_feeds_branch hregular hignored hdivided hb hbreaks o.pageStyle formatter level session
    obtain ⟨text, hprinted, hfeed⟩ := (hcontains.trans hbody).printedAs hfeeds
    exact ⟨inner, later, text, hprinted, hfeed⟩

/-- A document whose only node is a branched tag that breaks, as one of its branches does. -/
def hasBrokenBranch (o : Options) (d : Document Unit) : Bool :=
  !d.isIgnored o &&
    match (d.annotate o.sensitivity).root.children with
    | [n] =>
      n.isBranched && n.breaks d.source.toList && !n.overstates ⟨d.source.toList, o⟩ &&
        n.children.any (·.breaks d.source.toList)
    | _ => false

/-- An element on a line of its own inside of a tag, which would fit on one line. -/
theorem broken_tag_and_branch :
    ∃ (d : Document Unit) (t : String) (n b : Node Facts) (level inner : Nat) (session later : Session)
      (text branchText : String),
      Document.parse "\x7b% if a %\x7d\n<b>x</b>\n\x7b% endif %\x7d" = .ok d ∧
      t = "\x7b% if a %\x7d\n  <b>x</b>\n\x7b% endif %\x7d\n" ∧
      LaidOut ⟨d.source.toList, {}⟩ (d.annotate .css).root none n ∧ n.breaks d.source.toList = true ∧ b ∈ n.children ∧
      b.breaks d.source.toList = true ∧
      (((printNode ⟨d.source.toList, {}⟩ .identity level none n).run session).1).PrintedAs
        (Options.pageStyle {}) t text ∧
      Text.hasLineFeed text = true ∧
      ((bodyOf ⟨d.source.toList, {}⟩ (n.isForced d.source.toList) b.info b.children
        ((printSiblings ⟨d.source.toList, {}⟩ .identity inner false none b.children).run later).1).doc).PrintedAs
          (Options.pageStyle {}) t branchText ∧ Text.hasLineFeed branchText = true := by
  obtain ⟨t, hformat, ht⟩ :=
    @exists_eq_ok _ _ (format {} .identity "\x7b% if a %\x7d\n<b>x</b>\n\x7b% endif %\x7d").1
      (fun t => t = "\x7b% if a %\x7d\n  <b>x</b>\n\x7b% endif %\x7d\n") (by decide +kernel)
  obtain ⟨d, hparse, hd⟩ :=
    @exists_eq_ok _ _ (Document.parse "\x7b% if a %\x7d\n<b>x</b>\n\x7b% endif %\x7d") (hasBrokenBranch {})
      (by decide +kernel)
  have hsource := source_of_parse hparse
  simp only [hasBrokenBranch, Bool.and_eq_true, Bool.not_eq_true'] at hd
  obtain ⟨hfile, hlone⟩ := hd
  split at hlone
  next n hchildren =>
    simp only [Bool.and_eq_true, Bool.not_eq_true', List.any_eq_true] at hlone
    obtain ⟨⟨⟨hdivided, hbreaks⟩, hover⟩, b, hb, hbbreaks⟩ := hlone
    have hlaid := @LaidOut.top _ d hparse .css ⟨d.source.toList, {}⟩ [] [] n hchildren
    obtain ⟨hnode, hbranch⟩ := format_breaks (hsource.symm ▸ hparse) hfile (hsource.symm ▸ hformat) hlaid rfl
    obtain ⟨level, session, text, hprinted, hfeed⟩ := hnode hbreaks
    obtain ⟨inner, later, branchText, hprinted', hfeed'⟩ := hbranch hdivided b hb hbbreaks
    rw [hover] at hfeed
    exact ⟨d, t, n, b, level, inner, session, later, text, branchText, hparse, of_decide_eq_true ht, hlaid, hbreaks, hb,
      hbbreaks, hprinted, hfeed, hprinted', hfeed'⟩
  next => cases hlone

/-- A document whose only node is an element around a single node that is said to break and is printed on one line. -/
def hasOverstatedNode (o : Options) (d : Document Unit) : Bool :=
  match (d.annotate o.sensitivity).root.children with
  | [e] =>
    e.laysOutChildren ⟨d.source.toList, o⟩ none && !e.isBranched &&
      match e.children with
      | [⟨info, span, .rawTag name markup body opener closer, nameNodes, attributes, value, children⟩] =>
        let n : Node Facts :=
          ⟨info, span, .rawTag name markup body opener closer, nameNodes, attributes, value, children⟩
        n.breaks d.source.toList && n.overstates ⟨d.source.toList, o⟩
      | _ => false
  | _ => false

/-- Code in a tag that must keep its white space is said to break, but there is no line feed in it, however it is laid
out. The element around it is broken for its sake. -/
theorem unbroken_code_in_tag :
    ∃ (d : Document Unit) (n : Node Facts),
      Document.parse "<span>\x7b% javascript %\x7d\x60\x7b% endjavascript %\x7d</span>" = .ok d ∧
      LaidOut ⟨d.source.toList, {}⟩ (d.annotate .css).root none n ∧ isIgnored ⟨d.source.toList, {}⟩ none = false ∧
      n.breaks d.source.toList = true ∧
      (∀ style level session indent flat text, Doc.Layout style indent flat
        ((printNode ⟨d.source.toList, {}⟩ .identity level none n).run session).1 text → Text.hasLineFeed text = false) ∧
      (format {} .identity "<span>\x7b% javascript %\x7d\x60\x7b% endjavascript %\x7d</span>").1 =
        .ok "<span>\n  \x7b% javascript %\x7d\x60\x7b% endjavascript %\x7d\n</span>\n" := by
  obtain ⟨t, hformat, ht⟩ :=
    @exists_eq_ok _ _ (format {} .identity "<span>\x7b% javascript %\x7d\x60\x7b% endjavascript %\x7d</span>").1
      (fun t => t = "<span>\n  \x7b% javascript %\x7d\x60\x7b% endjavascript %\x7d\n</span>\n") (by decide +kernel)
  obtain ⟨d, hparse, hd⟩ :=
    @exists_eq_ok _ _ (Document.parse "<span>\x7b% javascript %\x7d\x60\x7b% endjavascript %\x7d</span>")
      (hasOverstatedNode {}) (by decide +kernel)
  unfold hasOverstatedNode at hd
  split at hd
  next e hchildren =>
    simp only [Bool.and_eq_true, Bool.not_eq_true'] at hd
    obtain ⟨⟨hshown, hundivided⟩, hlone⟩ := hd
    split at hlone
    next info span name markup body opener closer nameNodes attributes value children hinside =>
      obtain ⟨hbreaks, hover⟩ := Bool.and_eq_true_iff.1 hlone
      have htop := @LaidOut.top _ d hparse .css ⟨d.source.toList, {}⟩ [] [] e hchildren
      have hlaid := @LaidOut.child _ _ _ e _ [] [] htop hshown hundivided hinside
      refine ⟨d, _, hparse, hlaid, rfl, hbreaks, fun style level session => ?_, ?_⟩
      · have hregular := hlaid.regular (o := {}) ((source_of_parse hparse).symm ▸ hparse)
        have hfeeds := @feeds_printNode ⟨d.source.toList, {}⟩ .identity none _ style hregular rfl hbreaks level session
        rwa [hover] at hfeeds
      · rw [hformat, of_decide_eq_true ht]
    next => cases hlone
  next => cases hd

end LiquidTemplate
