import LiquidTemplate.Proofs.Grammar.Fragments
import LiquidTemplate.Proofs.Print.InlineMoved
import Mathlib.Data.List.Chain

/-!
# Names and values without spaces

A space is printed between two items of a name or a value if the source has something between them. It never has:
the fragments follow each other, and in a tag inside of a value so do the tags and what is between them
(`Node.IsContiguous`). So a name or a value is printed as `Node.joinedAll` prints it, which looks at no offset and knows
of no gap. The main statement is `contiguous_of_parse`.
-/

namespace LiquidTemplate

theorem Gapless.isChain {a b : Nat} {ss : List Span} (h : Gapless a ss b) :
    ss.IsChain fun s s' => s.stop = s'.start := by
  induction ss generalizing a with
  | nil => exact .nil
  | cons s ss ih =>
    obtain ⟨-, -, hrest⟩ := h
    cases ss with
    | nil => exact .singleton s
    | cons s' ss => exact .cons_cons hrest.1 (ih hrest)

/-! ## Printing without gaps -/

namespace Node

variable {α : Type}

mutual

/-- A node on one line, with nothing between the parts of a tag. -/
def joined (ctx : PrintContext) (around : Option Quote) : Node α → String
  | ⟨info, span, kind, name, attributes, value, children⟩ =>
    match kind with
    | .block tagName markup opener closer =>
      opener.around (tagHead (ctx.stringQuote around) tagName markup) ++ joinedBranches ctx around children ++
        (match closer with
          | some d => d.around ("end" ++ tagName)
          | none => "")
    | _ => inline ctx around ⟨info, span, kind, name, attributes, value, children⟩

def joinedAll (ctx : PrintContext) (around : Option Quote) : List (Node α) → String
  | [] => ""
  | n :: ns => n.joined ctx around ++ joinedAll ctx around ns

def joinedBranches (ctx : PrintContext) (around : Option Quote) : List (Node α) → String
  | [] => ""
  | ⟨info, span, kind, name, attributes, value, children⟩ :: ns =>
    (match kind with
      | .branch (some branchName) markup opener =>
        opener.around (tagHead (ctx.stringQuote around) branchName markup) ++ joinedAll ctx around children
      | .branch none _ _ => joinedAll ctx around children
      | _ => joined ctx around ⟨info, span, kind, name, attributes, value, children⟩) ++
    joinedBranches ctx around ns

end

theorem gapText_self (stop : Nat) : gapText stop stop = "" := by
  rw [gapText, if_neg (Nat.lt_irrefl stop)]

mutual

/-- **A tag without gaps is printed without gaps.** -/
theorem inline_eq_joined (ctx : PrintContext) (around : Option Quote) (n : Node Unit) (h : n.Seamless) :
    n.inline ctx around = n.joined ctx around := by
  have hjoined := h.own
  have inside := h.children
  obtain ⟨info, span, kind, name, attributes, value, children⟩ := n
  cases kind with
  | block tagName markup opener closer =>
    obtain ⟨hclosed, -, -, hbody⟩ := hjoined _ _ _ _ rfl
    obtain ⟨d, rfl⟩ := Option.isSome_iff_exists.1 hclosed
    obtain ⟨m, hbranches, hcloser, -⟩ := Gapless.append_iff.1 hbody
    have hprinted := inlineBranches_eq_joined ctx around children hbranches inside
    have hcloser : m = d.span.start := hcloser
    simp only [inline, joined, hprinted, hcloser, gapText_self, String.empty_append]
  | _ => rfl

theorem inlineItems_eq_joined (ctx : PrintContext) (around : Option Quote) (ns : List (Node Unit)) {a b : Nat}
    (h : Gapless a (ns.map Node.span) b) (hns : ∀ n ∈ ns, n.Seamless) :
    inlineItems ctx around a ns = (joinedAll ctx around ns, b) := by
  cases ns with
  | nil =>
    obtain rfl : a = b := h
    rfl
  | cons n ns =>
    obtain ⟨rfl, -, hrest⟩ := h
    obtain ⟨hn, hns⟩ := List.forall_mem_cons.1 hns
    simp only [inlineItems, joinedAll, inlineItems_eq_joined ctx around ns hrest hns, gapText_self,
      inline_eq_joined ctx around n hn, String.empty_append]

theorem inlineBranches_eq_joined (ctx : PrintContext) (around : Option Quote) (ns : List (Node Unit)) {a b : Nat}
    (h : Gapless a (ns.flatMap branchRanges) b) (hns : ∀ n ∈ ns, n.Seamless) :
    inlineBranches ctx around a ns = (joinedBranches ctx around ns, b) := by
  cases ns with
  | nil =>
    obtain rfl : a = b := h
    rfl
  | cons n ns =>
    obtain ⟨hn, hns⟩ := List.forall_mem_cons.1 hns
    have hinline := inline_eq_joined ctx around n hn
    have inside := hn.children
    rw [List.flatMap_cons] at h
    obtain ⟨m, hfirst, hrest⟩ := Gapless.append_iff.1 h
    have hothers := inlineBranches_eq_joined ctx around ns hrest hns
    obtain ⟨info, span, kind, name, attributes, value, children⟩ := n
    cases kind with
    | branch branchName markup opener =>
      cases branchName with
      | none =>
        have hitems := inlineItems_eq_joined ctx around children hfirst inside
        simp only [inlineBranches, joinedBranches, hitems, hothers]
      | some branchName =>
        obtain ⟨rfl, -, hfirst⟩ := hfirst
        have hitems := inlineItems_eq_joined ctx around children hfirst inside
        simp only [inlineBranches, joinedBranches, hitems, hothers, gapText_self, String.empty_append]
    | _ =>
      obtain ⟨rfl, -, rfl⟩ := hfirst
      simp only [inlineBranches, joinedBranches, hinline, hothers, gapText_self, String.empty_append]

end

theorem inlineList_eq_joinedAll (ctx : PrintContext) (around : Option Quote) {ns : List (Node Unit)} {a b : Nat}
    (h : Gapless a (ns.map Node.span) b) (hns : ∀ n ∈ ns, n.Seamless) :
    inlineList ctx around ns = joinedAll ctx around ns := by
  cases ns with
  | nil => rfl
  | cons n ns =>
    obtain ⟨rfl, -⟩ := id h
    exact congrArg Prod.fst (inlineItems_eq_joined ctx around (n :: ns) h hns)

theorem Annotates.inlineList_value {ctx : PrintContext} {s : Sensitivity} {source : List Char} {m : Node Unit}
    {n : Node Facts} (h : m.Annotates s source n) (q : Option Quote) :
    inlineList ctx q n.value = inlineList ctx q m.value := by
  obtain ⟨before, around, prev, next, rfl⟩ := h
  cases m
  simp only [withDisplay, withFacts, inlineList, head?_annotated, inlineItems_annotated]

end Node

/-! ## Nodes of a template -/

/-- The name and the value of a node have no gaps, a quoted value is all that stands between its marks, and no tag
inside of a value has a gap. -/
structure Node.IsContiguous (source : List Char) (n : Node Unit) : Prop where
  name : (n.name.map Node.span).IsChain fun a b => a.stop = b.start
  value : (n.value.map Node.span).IsChain fun a b => a.stop = b.start
  quoted : ∀ q, n.kind = .attr (.quoted q) → ∃ start stop,
    Assigns source n.span [q.char] (n.name.map Node.span) (n.value.map Node.span) start stop ∧
      (n.value.map Node.span).flatMap (Text.sliceChars source) = Text.sliceChars source ⟨start, stop⟩
  joined : ∀ v ∈ n.value, ∀ m, v.Reaches m → m.IsJoined

/-- The fragments of a name or a value have no gaps, and neither has anything in them. -/
def Node.AreSeamless (ns : List (Node Unit)) : Prop :=
  (∃ start stop, Gapless start (ns.map Node.span) stop) ∧ ∀ n ∈ ns, n.Seamless

namespace Node

theorem AreSeamless.of_derives {ts : List Token} {ns : List (Node Unit)} (h : Derives .sequence ts ns)
    (hts : ∃ start stop, Gapless start (ts.map Token.span) stop) : AreSeamless ns := by
  obtain ⟨start, stop, hts⟩ := hts
  exact ⟨⟨start, stop, h.gapless hts⟩, h.joins start stop hts⟩

theorem areSeamless_nil : AreSeamless [] :=
  ⟨⟨0, 0, rfl⟩, by simp⟩

theorem AreSeamless.isChain {ns : List (Node Unit)} (h : AreSeamless ns) :
    (ns.map Node.span).IsChain fun a b => a.stop = b.start := by
  obtain ⟨⟨_, _, hgapless⟩, -⟩ := h
  exact hgapless.isChain

end Node

/-- A token at boundaries of the source whose fragments have no gaps. -/
def Token.Laid (source : List Char) (t : Token) : Prop :=
  t.Sound source ∧ t.Fragmented source

theorem Token.Laid.gapless_value {source : List Char} {t : Token} (h : t.Laid source) :
    ∃ start stop, Gapless start (t.valueParts.map Token.span) stop := by
  cases t with
  | attr span style name value =>
    by_cases hstyle : style = .bare
    · subst hstyle
      obtain rfl : value = [] := h.1.bare rfl
      exact ⟨0, 0, rfl⟩
    · obtain ⟨start, stop, hassigns, -⟩ := h.2.assigns span style name value rfl hstyle
      exact ⟨start, stop, hassigns.value⟩
  | _ => exact ⟨0, 0, rfl⟩

theorem Token.attr_of_leafKind? {t : Token} {style : AttributeStyle} (h : t.leafKind? = some (.attr style)) :
    ∃ name value, t = .attr t.span style name value := by
  cases isLeaf_of_leafKind? h with
  | attr _ _ name value => exact ⟨name, value, rfl⟩

theorem Derives.texts {phrase : Phrase} {ts : List Token} {ns : List (Node Unit)} (h : Derives phrase ts ns)
    (hns : ns.all Node.isText = true) : ts.all Token.isText = true ∧ ns.map Node.written = ts.map Token.written := by
  induction h with
  | nil => exact ⟨rfl, rfl⟩
  | @cons ts us n ns _ _ hfirst hrest =>
    rw [List.all_cons, Bool.and_eq_true] at hns
    obtain ⟨hts, hn⟩ := hfirst (by simpa using hns.1)
    obtain ⟨hus, hns⟩ := hrest hns.2
    refine ⟨by rw [List.all_append, hts, hus]; rfl, ?_⟩
    rw [List.map_append, ← hn, ← hns]
    rfl
  | @leaf t kind name attributes value isLeaf =>
    cases t with
    | text s =>
      cases isLeaf
      exact ⟨rfl, rfl⟩
    | tag d name markup =>
      obtain ⟨-, hkind⟩ := Option.ite_none_left_eq_some.1 isLeaf
      cases hkind
      cases hns
    | openTag | closeTag | blockOpen | blockClose => cases isLeaf
    | _ =>
      cases isLeaf
      cases hns
  | element | block | branched | lastBranch | nextBranch => cases hns

namespace Node

variable {source : List Char} {B : Nat → Prop} {n : Node Unit}

theorem Formed.areSeamless (h : n.Formed (Token.Laid source) B) : AreSeamless n.name ∧ AreSeamless n.value := by
  cases h with
  | leaf token _ _ names _ values =>
    exact ⟨.of_derives names token.2.name, .of_derives values token.gapless_value⟩
  | element _ _ _ _ token names => exact ⟨.of_derives names token.2.name, areSeamless_nil⟩
  | document | block | branched | branch => exact ⟨areSeamless_nil, areSeamless_nil⟩

/-- How an attribute with a value is written. If the value is made of texts, then they are what stands in its place. -/
theorem Formed.assigns (h : n.Formed (Token.Laid source) B) {style : AttributeStyle} (hkind : n.kind = .attr style)
    (hstyle : style ≠ .bare) : ∃ start stop,
      Assigns source n.span style.marks (n.name.map Node.span) (n.value.map Node.span) start stop ∧
      (n.value.all isText = true → String.join (n.value.map written) = Text.slice source ⟨start, stop⟩ ∧
        Text.IsPlain style.ends [] (Text.sliceChars source ⟨start, stop⟩)) := by
  cases h with
  | @leaf t kind name attributes value token isLeaf _ names _ values =>
    obtain rfl : kind = .attr style := hkind
    obtain ⟨nameTokens, valueTokens, ht⟩ := Token.attr_of_leafKind? isLeaf
    obtain ⟨start, stop, ⟨⟨nameStop, before, after, hname, hblank, hsign⟩, hvalue, hclosed, hstops⟩, hwritten⟩ :=
      token.2.assigns _ _ _ _ ht hstyle
    rw [ht] at names values
    refine ⟨start, stop, ⟨⟨nameStop, before, after, names.gapless hname, hblank, hsign⟩, values.gapless hvalue, hclosed,
      hstops⟩, fun htext => ?_⟩
    obtain ⟨htokens, hmap⟩ := values.texts htext
    exact ⟨(congrArg String.join hmap).trans (hwritten.written htokens), hwritten.plain htokens⟩
  | document | element | block | branched | branch => cases hkind

end Node

theorem formed_laid_of_parse {source : String} {strictness : Strictness} {d : Document Unit}
    (h : Document.parse source strictness = .ok d) :
    ∀ n ∈ d.root.preorder, n.Formed (Token.Laid source.toList) (Text.IsBoundary source.toList) := by
  obtain ⟨tokens, htokens⟩ := ofSource_of_parse h
  refine formed_of_parse (fun _ ht => ht.1.ends) ⟨Text.isBoundary_zero _, Text.isBoundary_byteSize _⟩ htokens ?_ h
  exact fun t ht => (sound_of_ofSource htokens t ht).and (fragmented_of_ofSource htokens t ht)

/-- **Names and values have no gaps, and none are printed.** In every name and every value of a template each fragment
starts where the one before it ends. The fragments of a quoted value are all that stands between its marks, and in a
tag inside of a value the opening tag, the branches and the closing tag follow each other. So names and values are
printed as their fragments one after the other. -/
theorem contiguous_of_parse {source : String} {strictness : Strictness} {d : Document Unit}
    (h : Document.parse source strictness = .ok d) : ∀ n ∈ d.root.preorder, n.IsContiguous source.toList ∧
      ∀ (s : Sensitivity) (a : Node Facts), n.Annotates s source.toList a → ∀ (ctx : PrintContext) (q : Option Quote),
        Node.inlineList ctx q a.name = Node.joinedAll ctx q n.name ∧
          Node.inlineList ctx q a.value = Node.joinedAll ctx q n.value := by
  intro n hn
  have hformed := formed_laid_of_parse h
  obtain ⟨hname, hvalue⟩ := (hformed n hn).areSeamless
  constructor
  · refine ⟨hname.isChain, hvalue.isChain, fun q hkind => ?_, fun v hv m hm => ((hvalue.2 v hv).of_reaches hm).own⟩
    obtain ⟨start, stop, hassigns, -⟩ := (hformed n hn).assigns hkind (by simp)
    refine ⟨start, stop, hassigns, hassigns.value.flatMap_sliceChars (List.forall_mem_map.2 fun v hv => ?_)⟩
    have hmember : v ∈ n.preorder :=
      Node.mem_preorder.2 (.inr ⟨v, by simp [Node.members, hv], Node.mem_preorder.2 (.inl rfl)⟩)
    exact (hformed v (Node.preorder_subset d.root hn hmember)).ends
  · intro s a ha ctx q
    obtain ⟨⟨_, _, hname⟩, hnames⟩ := hname
    obtain ⟨⟨_, _, hvalue⟩, hvalues⟩ := hvalue
    rw [ha.inlineList_name, ha.inlineList_value]
    exact ⟨Node.inlineList_eq_joinedAll ctx q hname hnames, Node.inlineList_eq_joinedAll ctx q hvalue hvalues⟩

/-- A quoted attribute with a branched tag between two texts as its value. -/
def Node.hasBranchedValue (n : Node Unit) : Bool :=
  match n.kind, n.value with
  | .attr (.quoted _), [before, tag, after] => before.isText && tag.children.length == 2 && after.isText
  | _, _ => false

/-- A class name with two branches in it, on an element that is left open. -/
theorem contiguous_branches_in_class :
    ∃ d, Document.parse
        "<p class=\"a\x7b% if b %\x7dc\x7b\x7b d \x7d\x7d\x7b% else %\x7de\x7b% endif %\x7df\">" .tolerant = .ok d ∧
      ∃ n ∈ d.root.preorder, n.hasBranchedValue = true ∧ n.IsContiguous d.source.toList ∧
        ∀ (s : Sensitivity) (a : Node Facts), n.Annotates s d.source.toList a →
          Node.inlineList ⟨d.source.toList, {}⟩ (some .double) a.value =
            Node.joinedAll ⟨d.source.toList, {}⟩ (some .double) n.value := by
  obtain ⟨d, hd, hany⟩ := exists_eq_ok (P := fun d : Document Unit => d.root.preorder.any Node.hasBranchedValue)
    (x := Document.parse
      "<p class=\"a\x7b% if b %\x7dc\x7b\x7b d \x7d\x7d\x7b% else %\x7de\x7b% endif %\x7df\">" .tolerant)
        (by decide +kernel)
  obtain ⟨n, hn, hvalue⟩ := List.any_eq_true.1 hany
  have hsource := source_of_parse hd
  obtain ⟨hcontiguous, hprinted⟩ := contiguous_of_parse hd n hn
  rw [← hsource] at hcontiguous hprinted
  exact ⟨d, hd, n, hn, hvalue, hcontiguous, fun s a ha => (hprinted s a ha _ _).2⟩

end LiquidTemplate
