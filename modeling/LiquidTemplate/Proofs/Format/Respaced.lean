import LiquidTemplate.Format
import LiquidTemplate.Proofs.Grammar.Respaced

/-!
# Blanks matter only by their class

Formatting sees the blanks between two tokens only by their class: whether there are any, and whether they hold no line
feed, one or more. Blanks at the two ends of a template are not seen at all. So templates that differ in nothing else
are formatted to the same text, with the same requests for embedded code (`format_respaced`). This holds as long as no
part of a template is printed as it stands (`Document.Reflows`).

The offsets of the two trees differ everywhere. Both are compared with one tree that has the nodes of the first
template at the places of the second one (`print_moved`).
-/

namespace LiquidTemplate

/-- No part of a template asks to be printed as it stands: neither the file nor a node is ignored, there is no element
such as `pre` and no `capture` tag. -/
structure Document.Reflows (o : Options) (d : Document Unit) : Prop where
  file : d.isIgnored o = false
  remarks : ∀ n ∈ d.root.preorder, n.Unremarkable o
  layout : ∀ n ∈ d.root.preorder, n.keepsLayout = false

/-! ## Moved documents -/

section

variable {f : Nat → Nat}

theorem Node.keepsLayout_moved {α : Type} (n : Node α) : (n.moved f).keepsLayout = n.keepsLayout := by
  rw [keepsLayout, keepsLayout, kind_moved, spelledName_moved]
  cases n.kind <;> rfl

theorem fileRemark?_moved (n : Node Unit) : fileRemark? (n.moved f) = fileRemark? n := by
  rw [fileRemark?, fileRemark?, Node.kind_moved, Node.remark?_moved]
  cases n.kind with
  | rawTag name markup body opener closer =>
    by_cases hname : name = "comment"
    · subst hname
      rfl
    · simp [Kind.moved, hname]
  | _ => rfl

theorem Document.isIgnored_moved (o : Options) (source source' : String) (nodes : List (Node Unit)) :
    (Document.ofNodes source' (nodes.map (Node.moved f))).isIgnored o =
      (Document.ofNodes source nodes).isIgnored o := by
  rw [isIgnored, isIgnored]
  cases nodes with
  | nil => rfl
  | cons n nodes => exact congrArg (Option.any _) (fileRemark?_moved n)

theorem Document.forall_mem_preorder_ofNodes {P : Node Unit → Prop} (source : String) (nodes : List (Node Unit))
    (hroot : P (Document.ofNodes source nodes).root) :
    (∀ n ∈ (Document.ofNodes source nodes).root.preorder, P n) ↔ ∀ n ∈ Node.preorderOf nodes, P n := by
  have hpreorder : (Document.ofNodes source nodes).root.preorder =
      (Document.ofNodes source nodes).root :: Node.preorderOf nodes := by
    rw [Document.ofNodes, Node.preorder]
    rfl
  rw [hpreorder, List.forall_mem_cons]
  exact and_iff_right hroot

theorem Document.reflows_moved {o : Options} {source source' : String} {nodes : List (Node Unit)} :
    (Document.ofNodes source' (nodes.map (Node.moved f))).Reflows o ↔ (Document.ofNodes source nodes).Reflows o := by
  have hremark (n : Node Unit) : (n.moved f).Unremarkable o ↔ n.Unremarkable o := by
    rw [Node.Unremarkable, Node.Unremarkable, Node.remark?_moved]
  have hnodes (source : String) (nodes : List (Node Unit)) : (Document.ofNodes source nodes).Reflows o ↔
      (Document.ofNodes source nodes).isIgnored o = false ∧ (∀ n ∈ Node.preorderOf nodes, n.Unremarkable o) ∧
        ∀ n ∈ Node.preorderOf nodes, n.keepsLayout = false := by
    have hremarks := @forall_mem_preorder_ofNodes (Node.Unremarkable o) source nodes (by rintro text ⟨⟩)
    have hlayout := @forall_mem_preorder_ofNodes (fun n => n.keepsLayout = false) source nodes rfl
    rw [← hremarks, ← hlayout]
    exact ⟨fun h => ⟨h.file, h.remarks, h.layout⟩, fun h => ⟨h.1, h.2.1, h.2.2⟩⟩
  rw [hnodes, hnodes, isIgnored_moved o source source', ← Node.allMoved_eq_map, Node.preorderOf_allMoved]
  simp only [List.forall_mem_map, hremark, Node.keepsLayout_moved]

end

/-! ## Printing -/

section

variable {o : Options} {formatter : CodeFormatter} {source source' : String} {nodes : List (Node Unit)}

/-- The root of a document, as its children see it. -/
def rootEnclosure : Enclosure :=
  { isRoot := true, display := .block, keepsLayout := false, trimsLeft := false, trimsRight := false }

theorem Document.print_ofNodes (s : Sensitivity) (formatter : CodeFormatter) (source : String)
    (nodes : List (Node Unit)) :
    ((Document.ofNodes source nodes).annotate s).print o formatter =
      if nodes.isEmpty then pure .nil
      else do
        let inner ← printSiblings ⟨source.toList, o⟩ formatter 0 false none
          (Node.withAllFacts source.toList rootEnclosure none (Node.withDisplays s none nodes))
        return .group inner ++ .hardLine := by
  rw [print, annotate, ofNodes, Node.withDisplay, Node.withFacts, printNode]
  cases nodes with
  | nil => rfl
  | cons n nodes => rfl

/-- **The same nodes in two places are printed alike.** -/
theorem Document.print_moved (r : Respacing source.toList source'.toList)
    (hnodes : ∀ n ∈ nodes, n.Through (Node.Settled r o) ∧ n.isBranch = false) (s : Sensitivity)
    (formatter : CodeFormatter) :
    ((Document.ofNodes source' (nodes.map (Node.moved r.move))).annotate s).print o formatter =
      ((Document.ofNodes source nodes).annotate s).print o formatter := by
  have htwins : Node.AllTwins s r.move source.toList source'.toList nodes _ _ :=
    Node.allTwins_withAllFacts nodes none rootEnclosure none
  have hsiblings := Node.printSiblings_twins formatter htwins (fun n hn =>
    ⟨(hnodes n hn).1.own, (Node.printNode_twins formatter (hnodes n hn).1).2 (hnodes n hn).2⟩) 0 false .none
  have hdisplays := @Node.withDisplays_allMoved Unit r.move s none nodes
  rw [Option.map_none] at hsiblings hdisplays
  rw [print_ofNodes, print_ofNodes, List.isEmpty_map, ← Node.allMoved_eq_map, hdisplays, hsiblings]

/-- A respacing that moves the tokens of a template keeps how the template is printed. -/
theorem print_moved_of_parse {tokens : List Token} (htokens : Token.ofSource source = .ok tokens)
    (hparse : Document.parse source = .ok (.ofNodes source nodes)) (hderives : Derives .sequence tokens nodes)
    (hreflows : (Document.ofNodes source nodes).Reflows o) (r : Respacing source.toList source'.toList)
    (hmoves : ∀ t ∈ tokens, t.MovesWith r) {lo hi : Nat} (hinside : Token.Inside lo hi tokens)
    (hinner : ∀ i, r.anchor i → lo < i → i < hi → r.inner i) (s : Sensitivity) (formatter : CodeFormatter) :
    ((Document.ofNodes source' (nodes.map (Node.moved r.move))).annotate s).print o formatter =
      ((Document.ofNodes source nodes).annotate s).print o formatter := by
  have harranged := arranged_of_parse hparse
  have hroot := (harranged _ (Node.mem_preorder.2 (.inl rfl))).undivided rfl
  have hbelow : ∀ n ∈ nodes, ∀ k ∈ n.preorder, k ∈ (Document.ofNodes source nodes).root.preorder :=
    fun n hn k hk => Node.mem_preorder.2 (.inr ⟨n, by simp [Node.members, Document.ofNodes, hn], hk⟩)
  have hitems := (Token.ofSource_tiles htokens).isAttribute_eq_false
  refine Document.print_moved r (fun n hn => ⟨?_, hroot n hn⟩) s formatter
  refine hderives.settled hinner hinside (fun t ht => ⟨hmoves t ht, hitems t ht⟩) (fun n hn k hk => ?_) n hn
  exact ⟨harranged k (hbelow n hn k hk), hreflows.remarks k (hbelow n hn k hk), hreflows.layout k (hbelow n hn k hk)⟩

end

theorem movesWith_refl {source : String} {tokens : List Token} (htokens : Token.ofSource source = .ok tokens) :
    ∀ t ∈ tokens, t.MovesWith (Respacing.refl source.toList) :=
  fun t ht => ⟨fun _ => True, ⟨fun _ _ _ _ => Iff.rfl, fun _ _ _ _ => rfl⟩, fun _ _ => trivial,
    (sound_of_ofSource htokens t ht).imp fun _ _ => ⟨trivial, trivial⟩⟩

/-- Trees of tokens that are moved to the same tokens are moved to the same tree. -/
theorem map_moved_of_derives {f g : Nat → Nat} (hf : Monotone f) (hg : Monotone g) {ts ts' : List Token}
    {ns ns' : List (Node Unit)} (h : Derives .sequence ts ns) (h' : Derives .sequence ts' ns')
    (hplain : ∀ t ∈ ts, t.PlainNames) (hts : ts.map (Token.moved f) = ts'.map (Token.moved g)) :
    ns.map (Node.moved f) = ns'.map (Node.moved g) := by
  have hmoved := h.moved hf
  have hmoved' := h'.moved hg
  have hplains : ∀ t ∈ ts.map (Token.moved f), t.PlainNames := List.forall_mem_map.2 fun t ht => (hplain t ht).moved
  rw [← hts] at hmoved'
  exact Except.ok.inj ((hmoved.runs hplains).ofTokens.symm.trans (hmoved'.runs hplains).ofTokens)

/-! ## Formatting -/

theorem Document.format_congr {o : Options} {formatter : CodeFormatter} {d d' : Document Unit}
    (hd : d.isIgnored o = false) (hd' : d'.isIgnored o = false)
    (hprint : (d.annotate o.sensitivity).print o formatter = (d'.annotate o.sensitivity).print o formatter) :
    d.format o formatter = d'.format o formatter := by
  unfold Document.format
  rw [hd, hd', hprint, if_neg Bool.false_ne_true, if_neg Bool.false_ne_true]

/-- **Blanks matter only by their class.** Templates of the same tokens are formatted to the same text, with the same
requests for embedded code, if the blanks between two tokens are of the same class in both. -/
theorem format_respaced {source source' : String} {tokens tokens' : List Token} {d d' : Document Unit} {o : Options}
    (htokens : Token.ofSource source = .ok tokens) (htokens' : Token.ofSource source' = .ok tokens')
    (hrespaced : Respaced source source' tokens tokens') (hparse : Document.parse source = .ok d)
    (hparse' : Document.parse source' = .ok d') (hreflows : d.Reflows o) (formatter : CodeFormatter) :
    format o formatter source = format o formatter source' := by
  obtain ⟨r, hmoves, htokensMoved, lo, hi, hinside, hinner⟩ := hrespaced.exists_respacing htokens htokens'
  obtain ⟨nodes, hderives, rfl⟩ := derives_of_parse htokens hparse
  obtain ⟨nodes', hderives', rfl⟩ := derives_of_parse htokens' hparse'
  have hnodes : nodes.map (Node.moved r.move) = nodes'.map (Node.moved id) :=
    map_moved_of_derives r.monotone monotone_id hderives hderives' (plainNames_of_ofSource htokens) htokensMoved
  have hreflows' : (Document.ofNodes source' nodes').Reflows o := by
    rw [← @Document.reflows_moved id o source' source' nodes', ← hnodes]
    exact Document.reflows_moved.2 hreflows
  have hprint := print_moved_of_parse htokens hparse hderives hreflows r hmoves hinside hinner o.sensitivity formatter
  have hprint' := print_moved_of_parse htokens' hparse' hderives' hreflows' (Respacing.refl source'.toList)
    (movesWith_refl htokens') (Token.ofSource_tiles htokens').inside (fun _ _ _ _ => trivial) o.sensitivity formatter
  have hformat := Document.format_congr hreflows.file hreflows'.file (hprint.symm.trans (hnodes ▸ hprint'))
  unfold format
  rw [hparse, hparse']
  exact hformat

/-- The tokens of a tag with a text and an element in it, which start at the given offsets. -/
def Token.areBlockAt (i j k l m n : Nat) (ts : List Token) : Bool :=
  match ts with
  | [.blockOpen opener "if" (.plain "?"), .text a, .openTag p [.text name] [], .text b, .closeTag q [.text name'],
      .blockClose closer "if"] =>
    opener = ⟨⟨i, i + 10⟩, false, false⟩ ∧ a = ⟨⟨j, j + 1⟩, "a"⟩ ∧ p = ⟨k, k + 3⟩ ∧ name = ⟨⟨k + 1, k + 2⟩, "p"⟩ ∧
      b = ⟨⟨l, l + 1⟩, "b"⟩ ∧ q = ⟨m, m + 4⟩ ∧ name' = ⟨⟨m + 2, m + 3⟩, "p"⟩ ∧ closer = ⟨⟨n, n + 11⟩, false, false⟩
  | _ => false

/-- A tag with a text and an element in it, with other blanks of the same classes around them. -/
theorem respaced_text_and_element : ∃ tokens tokens' d d',
    Token.ofSource "\x7b% if ? %\x7d a\n<p>b</p>\x7b% endif %\x7d" = .ok tokens ∧
    Token.ofSource "\n\x7b% if ? %\x7d\t\ta \n <p>b</p>\x7b% endif %\x7d " = .ok tokens' ∧
    Respaced "\x7b% if ? %\x7d a\n<p>b</p>\x7b% endif %\x7d" "\n\x7b% if ? %\x7d\t\ta \n <p>b</p>\x7b% endif %\x7d "
      tokens tokens' ∧
    Document.parse "\x7b% if ? %\x7d a\n<p>b</p>\x7b% endif %\x7d" = .ok d ∧
    Document.parse "\n\x7b% if ? %\x7d\t\ta \n <p>b</p>\x7b% endif %\x7d " = .ok d' ∧ d.Reflows {} ∧
    ∀ formatter, format {} formatter "\x7b% if ? %\x7d a\n<p>b</p>\x7b% endif %\x7d" =
      format {} formatter "\n\x7b% if ? %\x7d\t\ta \n <p>b</p>\x7b% endif %\x7d " := by
  obtain ⟨tokens, htokens, hshape⟩ := exists_eq_ok (P := Token.areBlockAt 0 11 13 16 17 21)
    (x := Token.ofSource "\x7b% if ? %\x7d a\n<p>b</p>\x7b% endif %\x7d") (by decide +kernel)
  obtain ⟨tokens', htokens', hshape'⟩ := exists_eq_ok (P := Token.areBlockAt 1 13 17 20 21 25)
    (x := Token.ofSource "\n\x7b% if ? %\x7d\t\ta \n <p>b</p>\x7b% endif %\x7d ") (by decide +kernel)
  obtain ⟨d, hparse, hfacts⟩ := exists_eq_ok
    (P := fun d : Document Unit => !d.isIgnored {} &&
      d.root.preorder.all fun n => n.remark?.isNone && !n.keepsLayout)
    (x := Document.parse "\x7b% if ? %\x7d a\n<p>b</p>\x7b% endif %\x7d") (by decide +kernel)
  obtain ⟨d', hparse', -⟩ := exists_eq_ok (P := fun _ => true)
    (x := Document.parse "\n\x7b% if ? %\x7d\t\ta \n <p>b</p>\x7b% endif %\x7d ") (by decide +kernel)
  unfold Token.areBlockAt at hshape hshape'
  split at hshape
  · split at hshape'
    · simp only [decide_eq_true_eq] at hshape hshape'
      obtain ⟨rfl, rfl, rfl, rfl, rfl, rfl, rfl, rfl⟩ := hshape
      obtain ⟨rfl, rfl, rfl, rfl, rfl, rfl, rfl, rfl⟩ := hshape'
      simp only [Bool.and_eq_true, Bool.not_eq_true', List.all_eq_true, Option.isNone_iff_eq_none] at hfacts
      have hreflows : d.Reflows {} := by
        refine ⟨hfacts.1, fun n hn text htext => ?_, fun n hn => (hfacts.2 n hn).2⟩
        rw [(hfacts.2 n hn).1] at htext
        cases htext
      refine ⟨_, _, d, d', htokens, htokens', ?respaced, hparse, hparse', hreflows,
        format_respaced htokens htokens' ?respaced hparse hparse' hreflows⟩
      exact ⟨rfl, by decide +kernel, by decide +kernel⟩
    · cases hshape'
  · cases hshape

end LiquidTemplate
