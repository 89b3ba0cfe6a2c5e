import LiquidTemplate.Proofs.Grammar.CleanEnds
import LiquidTemplate.Proofs.Grammar.WrittenFilters
import LiquidTemplate.Proofs.Print.InlineMoved
import LiquidTemplate.Proofs.Print.LineEnds

/-!
# Texts that do not end with a carriage return

A text that printing takes over may stand right before a line break. Read from a template, none of them ends with a
carriage return: expressions and filters end with a name, a number or a mark (`Filter.endsClean_render`), and the items
of an attribute list end as they do in the source or with a mark (`Node.DerivedFrom.endsClean_inline`).
-/

namespace LiquidTemplate

/-! ## Expressions -/

namespace Text

theorem IsAskingName.endsClean {cs : List Char} (h : IsAskingName cs) : EndsClean cs := by
  refine endsClean_of_notMem fun hmem => ?_
  rcases h.of_mem hmem with htail | hmark
  · exact absurd htail (by decide)
  · exact absurd hmark (by decide)

theorem IsDigits.endsClean {cs : List Char} (h : IsDigits cs) : EndsClean cs :=
  endsClean_of_notMem (notMem_return_of_all h.2 (by decide))

theorem IsNumber.endsClean {cs : List Char} (h : IsNumber cs) : EndsClean cs := by
  obtain ⟨sign, whole, fraction, rfl, -, hwhole, rfl | ⟨digits, rfl, hdigits⟩⟩ := h
  · rw [List.append_nil]
    exact hwhole.endsClean.of_ne_nil hwhole.1 sign
  · rw [show sign ++ whole ++ '.' :: digits = (sign ++ whole ++ ['.']) ++ digits by simp]
    exact hdigits.endsClean.of_ne_nil hdigits.1 _

/-- A text ends as the last part of it that is not empty. -/
theorem endsClean_append {t : String} (s : String) (ht : EndsClean t.toList) (hne : t.toList ≠ []) :
    EndsClean (s ++ t).toList := by
  rw [String.toList_append]
  exact ht.of_ne_nil hne _

theorem endsClean_append_mark {mark : String} (s : String) (hmark : '\r' ∉ mark.toList) (hne : mark.toList ≠ []) :
    EndsClean (s ++ mark).toList :=
  endsClean_append s (endsClean_of_notMem hmark) hne

theorem endsClean_intercalate {sep : String} {ss : List String} (hsep : EndsClean sep.toList)
    (h : ∀ s ∈ ss, EndsClean s.toList) : EndsClean (sep.intercalate ss).toList := by
  cases ss with
  | nil => simp [endsClean_nil]
  | cons s ss =>
    obtain ⟨hs, hss⟩ := List.forall_mem_cons.1 h
    rw [toList_intercalate_cons]
    refine hs.append ?_
    clear h hs
    induction ss with
    | nil => exact endsClean_nil
    | cons t ss ih =>
      obtain ⟨ht, hss⟩ := List.forall_mem_cons.1 hss
      exact (hsep.append ht).append (ih hss)

end Text

theorem StringLiteral.endsClean_render (q : Quote) (s : StringLiteral) : Text.EndsClean (s.render q).toList := by
  rw [toList_render]
  exact Text.endsClean_concat (by cases (s.norm q).quote <;> decide)

theorem Lookup.endsClean_render (q : Quote) (first : Bool) {step : Lookup} (h : step.Spelled) :
    Text.EndsClean (step.render q first).toList := by
  rcases step.render_cases q first h with ⟨name, hname, hrender, -⟩ | ⟨key, -, hrender, -⟩
  · rw [hrender, String.toList_append]
    exact (Text.endsClean_of_notMem (by decide)).append hname.endsClean
  · rw [hrender]
    exact Text.endsClean_append_mark _ (by decide) (by decide)

theorem endsClean_renderSteps (q : Quote) {before : String} {steps : List Lookup}
    (hbefore : Text.EndsClean before.toList) (h : SpelledSteps steps) :
    Text.EndsClean (renderSteps q before steps).toList := by
  induction steps generalizing before with
  | nil => exact hbefore
  | cons step steps ih =>
    rw [renderSteps]
    refine ih ?_ h.2
    rw [String.toList_append]
    exact hbefore.append (step.endsClean_render q _ h.1)

theorem Expression.endsClean_render (q : Quote) {e : Expression} (h : e.Spelled) :
    Text.EndsClean (e.render q).toList := by
  cases e with
  | string s => exact s.endsClean_render q
  | number digits => exact Text.IsNumber.endsClean h
  | keyword k =>
    have hname : Text.IsAskingName k.word.toList := .inl k.isPlainName
    exact hname.endsClean
  | range first last => exact Text.endsClean_append_mark _ (by decide) (by decide)
  | lookup name steps =>
    refine endsClean_renderSteps q ?_ h.2
    cases name with
    | none => exact Text.endsClean_nil
    | some name => exact Text.IsAskingName.endsClean h.1

theorem Argument.endsClean_render (q : Quote) {a : Argument} (h : a.Spelled) : Text.EndsClean (a.render q).toList := by
  cases a with
  | positional value => exact value.endsClean_render q h.spelled
  | named a =>
    have hvalue := a.value.endsClean_render q h.value.spelled
    have hcolon : Text.EndsClean (a.name ++ ": ").toList := Text.endsClean_append_mark _ (by decide) (by decide)
    rw [render, NamedArgument.render, String.toList_append]
    exact hcolon.append hvalue

theorem Filter.endsClean_render (q : Quote) {f : Filter} (h : f.Spelled) : Text.EndsClean (f.render q).toList := by
  have hname : Text.IsAskingName f.name.toList := .inl h.name
  unfold render
  split
  · rw [String.toList_append]
    exact (Text.endsClean_of_notMem (by decide)).append hname.endsClean
  · have hcolon : Text.EndsClean ("| " ++ f.name ++ ": ").toList := Text.endsClean_append_mark _ (by decide) (by decide)
    rw [String.toList_append]
    refine hcolon.append (Text.endsClean_intercalate (Text.endsClean_of_notMem (by decide)) ?_)
    rw [List.forall_mem_map]
    exact fun a ha => a.endsClean_render q (h.arguments a ha)

theorem Filtered.Spelled.allEndClean {v : Filtered} (h : v.Spelled) (q : Quote) :
    Copied.AllEndClean ((DropMarkup.value v).copied q) := by
  refine List.forall_mem_cons.2 ⟨v.subject.endsClean_render q h.subject.spelled, ?_⟩
  rw [List.forall_mem_map]
  exact fun f hf => f.endsClean_render q (h.filters f hf)

/-! ## Items of a list -/

theorem Delimiter.endsClean_append_around (before : String) (d : Delimiter) (head : String) :
    Text.EndsClean (before ++ d.around head).toList := by
  have hstop : '\r' ∉ d.tagStop.toList ∧ d.tagStop.toList ≠ [] := by
    unfold tagStop
    split <;> decide
  rw [around, ← String.append_assoc]
  exact Text.endsClean_append_mark _ hstop.1 hstop.2

theorem Delimiter.endsClean_around (d : Delimiter) (head : String) : Text.EndsClean (d.around head).toList := by
  simpa using d.endsClean_append_around "" head

theorem endsClean_inlineDrop (q : Quote) (markup : DropMarkup) (d : Delimiter) :
    Text.EndsClean (inlineDrop q markup d).toList := by
  have hstop : '\r' ∉ d.dropStop.toList ∧ d.dropStop.toList ≠ [] := by
    unfold Delimiter.dropStop
    split <;> decide
  exact Text.endsClean_append_mark _ hstop.1 hstop.2

theorem endsClean_assignment (name : String) (q : Quote) (value : String) :
    Text.EndsClean (assignment name q value).toList := by
  unfold assignment
  cases q <;> exact Text.endsClean_append_mark _ (by decide) (by decide)

/-- What reading a template ensures of an item of an attribute list. -/
structure Token.IsItem (source : List Char) (t : Token) : Prop where
  clean : t.Clean source
  notText : t.isText = false
  stops : Text.StopsClean source t.span.stop

namespace Node

variable {ctx : PrintContext}

theorem endsClean_inlineItems (around : Option Quote) {ns : List (Node Unit)}
    (h : ∀ n ∈ ns, Text.EndsClean (n.inline ctx around).toList) (stop : Nat) :
    Text.EndsClean (inlineItems ctx around stop ns).1.toList := by
  induction ns generalizing stop with
  | nil => simp [inlineItems, Text.endsClean_nil]
  | cons n ns ih =>
    obtain ⟨hn, hns⟩ := List.forall_mem_cons.1 h
    have hgap : Text.EndsClean (gapText stop n.span.start).toList := by
      unfold gapText
      split <;> exact Text.endsClean_of_notMem (by decide)
    simp only [inlineItems, String.toList_append]
    exact (hgap.append hn).append (ih hns _)

theorem endsClean_inlineValue (nameText : String) (mark : Option Quote) (value : List (Node Unit)) :
    Text.EndsClean (inlineValue ctx nameText mark value).toList := by
  unfold inlineValue plainAttribute
  split
  · exact endsClean_assignment _ _ _
  · split <;> exact endsClean_assignment _ _ _

theorem DerivedFrom.endsClean_fragment {n : Node Unit} (h : n.DerivedFrom Token.IsNamePart) (around : Option Quote) :
    Text.EndsClean (n.inline ctx around).toList := by
  obtain ⟨ts, hts, h⟩ := h
  cases h with
  | @leaf t kind name attributes value isLeaf =>
    have ht := hts t (List.mem_singleton_self _)
    cases t with
    | text slice =>
      cases isLeaf
      exact Text.endsClean_of_notMem ht
    | drop d written markup =>
      cases isLeaf
      exact endsClean_inlineDrop _ _ _
    | _ => exact ht.elim
  | element => exact (hts _ List.mem_cons_self).elim
  | block => exact (hts _ List.mem_cons_self).elim
  | branched => exact (hts _ List.mem_cons_self).elim

theorem endsClean_inlineList_name {ts : List Token} {ns : List (Node Unit)} (h : Derives .sequence ts ns)
    (hts : ∀ t ∈ ts, t.IsNamePart) (around : Option Quote) : Text.EndsClean (inlineList ctx around ns).toList :=
  endsClean_inlineItems around (fun n hn => (h.derivedFrom_of_mem hts n hn).endsClean_fragment around) _

theorem endsClean_inline_attr {ts : List Token} {name attributes value children : List (Node Unit)} {span : Span}
    {style : AttributeStyle} (h : Derives .sequence ts name) (hts : ∀ t ∈ ts, t.IsNamePart) (around : Option Quote) :
    Text.EndsClean (inline ctx around ⟨(), span, .attr style, name, attributes, value, children⟩).toList := by
  cases style with
  | bare => exact endsClean_inlineList_name h hts around
  | unquoted => exact endsClean_inlineValue _ _ _
  | quoted mark => exact endsClean_inlineValue _ _ _

theorem endsClean_inline_block {n : Node Unit} {name : String} {markup : Markup} {opener closer : Delimiter}
    (hkind : n.kind = .block name markup opener (some closer)) (around : Option Quote) :
    Text.EndsClean (n.inline ctx around).toList := by
  obtain ⟨info, span, kind, nameNodes, attributes, value, children⟩ := n
  cases hkind
  rw [inline, ← String.append_assoc]
  exact closer.endsClean_append_around _ _

theorem DerivedFrom.endsClean_slice {Q : Token → Prop} {n : Node Unit} {s : List Char} (h : n.DerivedFrom Q)
    (hQ : ∀ t, Q t → Text.StopsClean s t.span.stop) : Text.EndsClean (Text.slice s n.span).toList := by
  suffices hstops : Text.StopsClean s n.span.stop by simpa [Text.slice] using hstops n.span.start
  obtain ⟨ts, hts, h⟩ := h
  cases h with
  | leaf => exact hQ _ (hts _ (List.mem_singleton_self _))
  | @element opener closer name attributes body closerName =>
    exact hQ (.closeTag closer closerName) (hts _ (by simp))
  | @block opener closer name => exact hQ (.blockClose closer name) (hts _ (by simp))
  | @branched opener closer name => exact hQ (.blockClose closer name) (hts _ (by simp))

/-- **An item of an attribute list does not end with a carriage return** when it is written on one line. -/
theorem DerivedFrom.endsClean_inline {n : Node Unit} (h : n.DerivedFrom (Token.IsItem ctx.source))
    (around : Option Quote) :
    Text.EndsClean (n.inline ctx around).toList := by
  have hslice := h.endsClean_slice fun t ht => ht.stops
  obtain ⟨ts, hts, h⟩ := h
  cases h with
  | @leaf t kind name attributes value isLeaf names =>
    have ht := hts t (List.mem_singleton_self _)
    cases t with
    | text slice => cases ht.notText
    | drop d written markup =>
      cases isLeaf
      exact endsClean_inlineDrop _ _ _
    | tag d tagName markup =>
      obtain ⟨-, hkind⟩ := Option.ite_none_left_eq_some.1 isLeaf
      cases hkind
      exact d.endsClean_around _
    | attr span style nameTokens valueTokens =>
      cases isLeaf
      exact endsClean_inline_attr names ht.clean.name around
    | openTag | closeTag | blockOpen | blockClose => cases isLeaf
    | _ =>
      cases isLeaf
      exact hslice
  | element => exact hslice
  | block => exact endsClean_inline_block rfl around
  | branched => exact endsClean_inline_block rfl around

theorem allEndClean_copiedItems {sensitivity : Sensitivity} {ms : List (Node Unit)} {ns : List (Node Facts)}
    (h : List.Forall₂ (Annotates sensitivity ctx.source) ms ns)
    (hms : ∀ m ∈ ms, m.DerivedFrom (Token.IsItem ctx.source))
    (prev : Option (Node Facts)) : Copied.AllEndClean (copiedItems ctx prev ns) := by
  induction h generalizing prev with
  | nil => simp [copiedItems, Copied.AllEndClean]
  | @cons m n ms ns first rest ih =>
    obtain ⟨hm, hms⟩ := List.forall_mem_cons.1 hms
    have hinline : Text.EndsClean (n.inline ctx none).toList := by
      rw [first.inline_eq]
      exact hm.endsClean_inline none
    have hslice : Text.EndsClean (Text.slice ctx.source n.span).toList := by
      rw [first.span]
      exact hm.endsClean_slice fun t ht => ht.stops
    refine List.forall_mem_cons.2 ⟨?_, ih hms (some n)⟩
    unfold copiedItem
    split
    · rw [Copied.text]
      split
      · exact hslice
      · exact hinline
    · exact hinline

end Node

/-! ## Names of elements -/

theorem Text.eq_return_of_toLower {x : Char} (h : x.toLower = '\r') : x = '\r' := by
  unfold Char.toLower at h
  split at h
  next hupper =>
    have hshift : x.val + ('a'.val - 'A'.val) = '\r'.val := congrArg Char.val h
    have hval : x.val = '\r'.val - ('a'.val - 'A'.val) := by
      rw [← hshift]
      simp
    rw [hval] at hupper
    exact absurd hupper (by decide)
  next => exact h

theorem Text.notMem_return_lower {name : String} (h : '\r' ∉ name.toList) : '\r' ∉ (Text.lower name).toList := by
  rw [Text.lower, String.toList_ofList, List.mem_map]
  rintro ⟨x, hx, hlower⟩
  exact h (eq_return_of_toLower hlower ▸ hx)

theorem endsClean_printName {ctx : PrintContext} {fragments : List (Node Facts)}
    (h : Text.EndsClean (Node.inlineList ctx none fragments).toList) :
    Text.EndsClean (printName ctx fragments).toList := by
  have hnames : ∀ name ∈ htmlNames, '\r' ∉ name.toList := by decide +kernel
  unfold printName
  dsimp only
  split
  next hname => exact Text.endsClean_of_notMem (hnames _ hname)
  · exact h

/-! ## Nodes of a template -/

/-- What reading a template ensures of a token that is not part of another one. -/
structure Token.Tidy (source : List Char) (t : Token) : Prop where
  everywhere : t.Everywhere (Token.Clean source)
  spelled : t.Spelled
  stops : Text.StopsClean source t.span.stop

theorem Token.tidy_of_ofSource {source : String} {tokens : List Token} (h : Token.ofSource source = .ok tokens) :
    ∀ t ∈ tokens, t.Tidy source.toList := by
  intro t ht
  have hspelled := Grammar.spelledRules.ofSource Grammar.givesReadable_readNested trivial h
  exact ⟨clean_of_ofSource h t ht, (hspelled t ht).here, (isWord_of_ofSource h t ht).stopsClean⟩

theorem Token.Tidy.isItem {s : List Char} {t u : Token} (h : t.Tidy s) (hu : u ∈ t.attributeParts) : u.IsItem s :=
  ⟨(h.everywhere.inAttributes u hu).here, (h.everywhere.here.attributes u hu).1, (h.everywhere.here.attributes u hu).2⟩

namespace Node.DerivedFrom

variable {s : List Char} {n : Node Unit} (h : n.DerivedFrom (Token.Tidy s))

include h

theorem attributes : ∀ a ∈ n.attributes, a.DerivedFrom (Token.IsItem s) := by
  obtain ⟨ts, hts, h⟩ := h
  cases h with
  | leaf _ _ items =>
    have ht := hts _ (List.mem_singleton_self _)
    exact items.derivedFrom_of_mem fun u hu => ht.isItem hu
  | element _ items =>
    have ht := hts _ List.mem_cons_self
    exact items.derivedFrom_of_mem fun u hu => ht.isItem hu
  | block => simp
  | branched => simp

theorem endsClean_name (ctx : PrintContext) (around : Option Quote) :
    Text.EndsClean (inlineList ctx around n.name).toList := by
  obtain ⟨ts, hts, h⟩ := h
  cases h with
  | leaf _ names =>
    exact endsClean_inlineList_name names (hts _ (List.mem_singleton_self _)).everywhere.here.name around
  | element names => exact endsClean_inlineList_name names (hts _ List.mem_cons_self).everywhere.here.name around
  | block => exact Text.endsClean_nil
  | branched => exact Text.endsClean_nil

end Node.DerivedFrom

end LiquidTemplate
