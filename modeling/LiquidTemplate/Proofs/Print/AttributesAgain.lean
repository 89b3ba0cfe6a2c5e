import LiquidTemplate.Proofs.Grammar.WrittenAttributes
import LiquidTemplate.Proofs.Print.InlineJoined

/-!
# Attributes that were printed

An attribute whose value has no Liquid is printed between marks that its value does not hold, with the marks of the
other kind written as they are. The value that is printed says what the source says, and printing it again gives the
same text (`plainAttribute_again`). The main statement `quoted_of_parse` says so for all attributes of all templates,
also for what is read from the text that was printed.
-/

namespace LiquidTemplate

/-! ## Marks -/

/-- A value holds no more than one kind of marks. -/
def HasOneMark (value : List Char) : Prop :=
  '"' ∉ value ∨ '\'' ∉ value

theorem Text.IsPlain.hasOneMark {style : AttributeStyle} {rest value : List Char}
    (h : Text.IsPlain style.ends rest value) : HasOneMark value := by
  have hallowed := h.allowed
  match style with
  | .quoted .double => exact .inl fun hmem => absurd (hallowed _ hmem) (by decide)
  | .quoted .single => exact .inr fun hmem => absurd (hallowed _ hmem) (by decide)
  | .bare | .unquoted => exact .inl fun hmem => absurd (hallowed _ hmem) (by decide)

theorem char_valueQuote_notMem {value : String} (preferred : Quote) (h : HasOneMark value.toList) :
    (valueQuote preferred value).char ∉ value.toList := by
  unfold valueQuote
  simp only [List.contains_iff_mem]
  split
  next hdouble => exact h.resolve_left (not_not_intro hdouble)
  next hdouble =>
    split
    · exact hdouble
    next hsingle =>
      cases preferred with
      | double => exact hdouble
      | single => exact hsingle

def quotedValue (preferred : Quote) (value : String) : String :=
  Text.replaceAll (unescapes (valueQuote preferred value)) value

theorem toList_quotedValue (preferred : Quote) (value : String) :
    (quotedValue preferred value).toList = Text.unescape (valueQuote preferred value) value.toList := by
  rw [quotedValue, Text.replaceAll, String.toList_ofList, Text.unescape]

theorem valueQuote_eq_double {value : String} (preferred : Quote) (hdouble : '"' ∉ value.toList)
    (h : preferred = .double ∨ '\'' ∈ value.toList) : valueQuote preferred value = .double := by
  unfold valueQuote
  simp only [List.contains_iff_mem, if_neg hdouble]
  split
  · rfl
  next hsingle => exact h.resolve_right hsingle

theorem valueQuote_eq_single {value : String} (preferred : Quote)
    (h : '"' ∈ value.toList ∨ '\'' ∉ value.toList ∧ preferred = .single) : valueQuote preferred value = .single := by
  unfold valueQuote
  simp only [List.contains_iff_mem]
  split
  · rfl
  next hdouble =>
    obtain ⟨hsingle, rfl⟩ := h.resolve_left hdouble
    rw [if_neg hsingle]

theorem valueQuote_quotedValue (preferred : Quote) (value : String) :
    valueQuote preferred (quotedValue preferred value) = valueQuote preferred value := by
  have hchars := toList_quotedValue preferred value
  by_cases hdouble : '"' ∈ value.toList
  · have hquote : valueQuote preferred value = .single := valueQuote_eq_single preferred (.inl hdouble)
    rw [hquote] at hchars ⊢
    refine valueQuote_eq_single preferred (.inl ?_)
    rw [hchars]
    exact Text.mem_unescape (.inl rfl) hdouble
  by_cases hsingle : '\'' ∈ value.toList
  · have hquote : valueQuote preferred value = .double := valueQuote_eq_double preferred hdouble (.inr hsingle)
    rw [hquote] at hchars ⊢
    refine valueQuote_eq_double preferred ?_ (.inr ?_)
    · rw [hchars]
      exact Text.notMem_unescape (q := .double) hdouble
    · rw [hchars]
      exact Text.mem_unescape (.inr rfl) hsingle
  -- a value without marks can only get marks of the kind that is not preferred
  cases preferred with
  | double =>
    have hquote : valueQuote .double value = .double := valueQuote_eq_double .double hdouble (.inl rfl)
    rw [hquote] at hchars ⊢
    refine valueQuote_eq_double .double ?_ (.inl rfl)
    rw [hchars]
    exact Text.notMem_unescape (q := .double) hdouble
  | single =>
    have hquote : valueQuote .single value = .single := valueQuote_eq_single .single (.inr ⟨hsingle, rfl⟩)
    rw [hquote] at hchars ⊢
    refine valueQuote_eq_single .single (.inr ⟨?_, rfl⟩)
    rw [hchars]
    exact Text.notMem_unescape (q := .single) hsingle

/-- **Printing a value again changes nothing.** -/
theorem plainAttribute_again (preferred : Quote) (name value : String) :
    plainAttribute preferred name (quotedValue preferred value) =
      assignment name (valueQuote preferred value) (quotedValue preferred value) := by
  rw [plainAttribute, valueQuote_quotedValue]
  refine congrArg (assignment name (valueQuote preferred value)) ?_
  rw [Text.replaceAll, toList_quotedValue]
  change String.ofList (Text.unescape _ _) = _
  rw [Text.unescape_unescape, ← toList_quotedValue, String.ofList_toList]

example : plainAttribute .double "a" "b\" &quot;&#x27;" = "a='b\" \"&#x27;'" := by decide +kernel

/-! ## Attributes with plain values -/

namespace Node

variable {α : Type}

theorem inline_attr_of_isText {n : Node α} {style : AttributeStyle} (hkind : n.kind = .attr style)
    (hstyle : style ≠ .bare) (htext : n.value.all isText = true) (ctx : PrintContext) (around : Option Quote) :
    n.inline ctx around = plainAttribute ctx.options.htmlQuotes (inlineList ctx around n.name)
      (String.join (n.value.map written)) := by
  obtain ⟨info, span, kind, name, attributes, value, children⟩ := n
  obtain rfl : kind = .attr style := hkind
  have hvalue (mark : Option Quote) (nameText : String) : inlineValue ctx nameText mark value =
      plainAttribute ctx.options.htmlQuotes nameText (String.join (value.map written)) := by
    cases value with
    | nil => rfl
    | cons n ns =>
      have hall : (n :: ns).all isText = true := htext
      rw [inlineValue, if_pos hall]
  cases style with
  | bare => exact absurd rfl hstyle
  | unquoted => exact hvalue none _
  | quoted mark => exact hvalue (some mark) _

theorem inline_attributeOf (name : String) (q : Quote) (value : String) (offset : Nat) (ctx : PrintContext)
    (around : Option Quote) :
    (attributeOf name q value offset).inline ctx around = plainAttribute ctx.options.htmlQuotes name value := by
  have htext : (attributeOf name q value offset).value.all isText = true := by
    simp only [attributeOf]
    split <;> rfl
  have hname : inlineList ctx around (attributeOf name q value offset).name = name := by
    simp [attributeOf, textOf, inlineList, inlineItems, inline, gapText]
  have hvalue : String.join ((attributeOf name q value offset).value.map written) = value := by
    simp only [attributeOf]
    split
    next hempty => exact hempty.symm
    next => simp [textOf, written, String.join]
  rw [inline_attr_of_isText rfl (by simp) htext, hname, hvalue]

end Node

/-- A value between marks: it holds neither the mark nor Liquid, and says what a value in the source says. -/
structure IsQuoted (written : List Char) (q : Quote) (value : String) : Prop where
  mark : q.char ∉ value.toList
  liquid : ¬ dropOpen.toList <:+: value.toList ∧ ¬ tagOpen.toList <:+: value.toList
  meaning : Text.decodeQuotes value.toList = Text.decodeQuotes written

theorem isQuoted_quotedValue {style : AttributeStyle} {value : String} (preferred : Quote)
    (h : Text.IsPlain style.ends [] value.toList) :
    IsQuoted value.toList (valueQuote preferred value) (quotedValue preferred value) ∧
      Text.IsPlain (· == (valueQuote preferred value).char) [] (quotedValue preferred value).toList := by
  have hmark := char_valueQuote_notMem preferred h.hasOneMark
  rw [toList_quotedValue]
  have hplain := h.unescape hmark
  refine ⟨⟨?_, ?_, ?_⟩, hplain⟩
  · rw [toList_quotedValue]
    exact Text.notMem_unescape hmark
  · rw [toList_quotedValue]
    exact hplain.not_infix
  · rw [toList_quotedValue, Text.decodeQuotes_unescape]

/-- **Printing an attribute keeps its value.** An attribute with a value of texts only is printed with marks of one kind
around a value that holds no such mark and no Liquid and says what the source says between its own marks. What is read
from an element with that value as an attribute of any name is printed with the same marks around the same value. -/
theorem quoted_of_parse {source : String} {strictness : Strictness} {d : Document Unit}
    (h : Document.parse source strictness = .ok d) {n : Node Unit} (hn : n ∈ d.root.preorder) {style : AttributeStyle}
    (hkind : n.kind = .attr style) (hstyle : style ≠ .bare) (htext : n.value.all Node.isText = true) :
    ∃ start stop,
      Assigns source.toList n.span style.marks (n.name.map Node.span) (n.value.map Node.span) start stop ∧
      ∀ preferred : Quote, ∃ (q : Quote) (value : String),
        IsQuoted (Text.sliceChars source.toList ⟨start, stop⟩) q value ∧
        (∀ (s : Sensitivity) (a : Node Facts), n.Annotates s source.toList a → ∀ (ctx : PrintContext)
          (around : Option Quote), ctx.options.htmlQuotes = preferred →
            a.inline ctx around = assignment (Node.inlineList ctx around a.name) q value) ∧
        ∀ name, IsLiteralName name → ∀ mode, ∃ d' br item, Document.parse (breakText name q value) mode = .ok d' ∧
          d'.root.children = [br] ∧ br.kind = .voidElement "br" ∧ br.attributes = [item] ∧
          ∀ (s : Sensitivity) (a : Node Facts), item.Annotates s (breakText name q value).toList a →
            ∀ (ctx : PrintContext) (around : Option Quote), ctx.options.htmlQuotes = preferred →
              a.inline ctx around = assignment name q value := by
  obtain ⟨start, stop, hassigns, hwritten⟩ := (formed_laid_of_parse h n hn).assigns hkind hstyle
  obtain ⟨hjoin, hplain⟩ := hwritten htext
  refine ⟨start, stop, hassigns, fun preferred => ?_⟩
  rw [← String.toList_ofList (l := Text.sliceChars source.toList ⟨start, stop⟩)] at hplain
  obtain ⟨hquoted, hvalue⟩ := isQuoted_quotedValue preferred hplain
  rw [String.toList_ofList] at hquoted
  refine ⟨_, _, hquoted, ?_, ?_⟩
  · rintro s a ha ctx around rfl
    rw [ha.inline_eq, ha.inlineList_name, Node.inline_attr_of_isText hkind hstyle htext, hjoin]
    rfl
  · intro name hname mode
    refine ⟨_, _, _, parse_breakText hname hvalue mode, rfl, rfl, rfl, ?_⟩
    rintro s a ha ctx around rfl
    rw [ha.inline_eq, Node.inline_attributeOf, plainAttribute_again]

/-- An attribute between single marks, with a value of texts only. -/
def Node.isSingleQuoted (n : Node Unit) : Bool :=
  match n.kind with
  | .attr (.quoted .single) => n.value.all isText
  | _ => false

/-- A title with a mark of the other kind and with the names of both kinds. -/
theorem quoted_title_with_marks :
    ∃ d, Document.parse "<a title='say \"b\" &quot;c&#x27;'>" .tolerant = .ok d ∧
      ∃ n ∈ d.root.preorder, n.isSingleQuoted = true ∧ IsLiteralName "x" ∧ ∃ start stop q value,
        IsQuoted (Text.sliceChars d.source.toList ⟨start, stop⟩) q value ∧
        ∃ d' br item, Document.parse (breakText "x" q value) .strict = .ok d' ∧ d'.root.children = [br] ∧
          br.attributes = [item] ∧
          ∀ (s : Sensitivity) (a : Node Facts), item.Annotates s (breakText "x" q value).toList a →
            a.inline ⟨[], {}⟩ none = assignment "x" q value := by
  obtain ⟨d, hd, hany⟩ := exists_eq_ok (P := fun d : Document Unit => d.root.preorder.any Node.isSingleQuoted)
    (x := Document.parse "<a title='say \"b\" &quot;c&#x27;'>" .tolerant) (by decide +kernel)
  obtain ⟨n, hn, hsingle⟩ := List.any_eq_true.1 hany
  have hchar : endsAttributeName 'x' = false := by decide
  have hname : IsLiteralName "x" := ⟨by decide, by simpa using hchar, by decide⟩
  have hkind : n.kind = .attr (.quoted .single) ∧ n.value.all Node.isText = true := by
    unfold Node.isSingleQuoted at hsingle
    split at hsingle
    next heq => exact ⟨heq, hsingle⟩
    next => cases hsingle
  have hsource := source_of_parse hd
  obtain ⟨start, stop, -, hall⟩ := quoted_of_parse hd hn hkind.1 (by simp) hkind.2
  obtain ⟨q, value, hquoted, -, hagain⟩ := hall .double
  obtain ⟨d', br, item, hparse, hchildren, -, hitems, hprinted⟩ := hagain "x" hname .strict
  rw [← hsource] at hquoted
  exact ⟨d, hd, n, hn, hsingle, hname, start, stop, q, value, hquoted, d', br, item, hparse, hchildren, hitems,
    fun s a ha => hprinted s a ha _ _ rfl⟩

end LiquidTemplate
