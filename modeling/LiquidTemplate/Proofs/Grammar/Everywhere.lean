import LiquidTemplate.Grammar.Template
import LiquidTemplate.Proofs.Nesting.Derivation
import LiquidTemplate.Proofs.Peg.Yields

/-!
# What holds of all tokens

A token holds further tokens in its name, its attributes and its value. `t.Everywhere P` says that `P` holds of `t`
and of all tokens inside of it. `TokenRules H I P` collects what has to be known of the single rules of the grammar;
from it `P` follows for all tokens of a template (`TokenRules.ofSource`).
-/

namespace LiquidTemplate

/-- A property of a token and of all tokens inside of it. -/
inductive Token.Everywhere (P : Token → Prop) : Token → Prop where
  | mk {t : Token} (own : P t) (name : ∀ u ∈ t.nameParts, u.Everywhere P)
      (attributes : ∀ u ∈ t.attributeParts, u.Everywhere P) (value : ∀ u ∈ t.valueParts, u.Everywhere P) :
      t.Everywhere P

namespace Token.Everywhere

variable {P : Token → Prop} {t : Token}

theorem here (h : t.Everywhere P) : P t := by
  cases h
  assumption

theorem imp {Q : Token → Prop} (h : t.Everywhere P) (himp : ∀ u, P u → Q u) : t.Everywhere Q := by
  induction h with
  | mk own _ _ _ inName inAttributes inValue => exact .mk (himp _ own) inName inAttributes inValue

theorem and {Q : Token → Prop} (h : t.Everywhere P) (h' : t.Everywhere Q) : t.Everywhere fun u => P u ∧ Q u := by
  induction h with
  | mk own _ _ _ inName inAttributes inValue =>
    obtain ⟨own', name, attributes, value⟩ := h'
    exact .mk ⟨own, own'⟩ (fun u hu => inName u hu (name u hu)) (fun u hu => inAttributes u hu (attributes u hu))
      fun u hu => inValue u hu (value u hu)

theorem of_parts_nil (own : P t) (hname : t.nameParts = []) (hattributes : t.attributeParts = [])
    (hvalue : t.valueParts = []) : t.Everywhere P :=
  ⟨own, by simp [hname], by simp [hattributes], by simp [hvalue]⟩

end Token.Everywhere

structure Token.PartsHave (P : Token → Prop) (t : Token) : Prop where
  name : ∀ u ∈ t.nameParts, u.Everywhere P
  attributes : ∀ u ∈ t.attributeParts, u.Everywhere P
  value : ∀ u ∈ t.valueParts, u.Everywhere P

theorem Token.holds_ofOpening {P : Token → Prop} {span : Span} {name attributes : List Token} (slash : Bool)
    (hopen : P (.openTag span name attributes)) (hvoid : ∀ text, P (.voidElement span text attributes))
    (hself : P (.selfClosing span name attributes)) : P (.ofOpening span name attributes slash) := by
  unfold Token.ofOpening
  split
  · exact hself
  · split
    · split
      · exact hvoid _
      · exact hopen
    · exact hopen

namespace Grammar

open Peg Token

variable {H : (Cursor → Option (Expression × Cursor)) → Prop} {I : Cursor → Prop} {P : Token → Prop}

/-- What the rules of the grammar give has the property `P`, where `I` holds of the two ends of each match. -/
structure TokenRules (H : (Cursor → Option (Expression × Cursor)) → Prop) (I : Cursor → Prop) (P : Token → Prop) :
    Prop extends Tracks H I where
  liquidTag : liquidTag.ReadsGiven H fun c t _ => I c → P t
  drop : drop.ReadsGiven H fun c t _ => I c → P t
  text : ∀ c d : Cursor, I c → I d → P (.text (c.sliceTo d))
  frontMatter : ∀ c d : Cursor, I c → I d → ∀ body, P (.frontMatter ⟨c.offset, d.offset⟩ body)
  comment : ∀ c d : Cursor, I c → I d → ∀ body, P (.comment ⟨c.offset, d.offset⟩ body)
  doctype : ∀ c d : Cursor, I c → I d → ∀ legacy, P (.doctype ⟨c.offset, d.offset⟩ legacy)
  openTag : openTag.ReadsGiven H fun c t _ => I c → P t
  closeTag : closeTag.ReadsGiven H fun c t _ => I c → P t
  rawElement : rawElement.ReadsGiven H fun c t _ => I c → P t
  attr : attr.ReadsGiven H fun c t _ => I c → P t

theorem yields_spanned {α : Type} {p : Grammar (Span → α)} {A : α → Prop}
    (hp : p.Yields H I fun k => ∀ c d : Cursor, I c → I d → A (k ⟨c.offset, d.offset⟩)) : (spanned p).Yields H I A :=
  yields_map (yields_slice hp) fun _ h => h

theorem reads_openTag_of (h : Tracks H I)
    (hopen : ∀ c d : Cursor, I c → I d → ∀ name attributes, P (.openTag ⟨c.offset, d.offset⟩ name attributes))
    (hvoid : ∀ c d : Cursor, I c → I d → ∀ name attributes, P (.voidElement ⟨c.offset, d.offset⟩ name attributes))
    (hself : ∀ c d : Cursor, I c → I d → ∀ name attributes, P (.selfClosing ⟨c.offset, d.offset⟩ name attributes)) :
    openTag.ReadsGiven H fun c t _ => I c → P t := by
  have hyields : openTag.Yields H I P := by
    refine yields_named (yields_spanned (yields_seq (yields_seq (yields_map (h.yields_true _) ?_) (h.yields_true _))
      (h.yields_true _)))
    exact fun _ _ _ _ slash _ c d hc hd =>
      holds_ofOpening slash (hopen c d hc hd _ _) (fun _ => hvoid c d hc hd _ _) (hself c d hc hd _ _)
  exact ReadsGiven.imp hyields fun _ _ _ ht hc => (ht hc).1

theorem reads_closeTag_of (h : Tracks H I)
    (hP : ∀ c d : Cursor, I c → I d → ∀ name, P (.closeTag ⟨c.offset, d.offset⟩ name)) :
    closeTag.ReadsGiven H fun c t _ => I c → P t := by
  have hyields : closeTag.Yields H I P :=
    yields_named (yields_spanned (yields_map (h.yields_true _) fun name _ c d hc hd => hP c d hc hd name))
  exact ReadsGiven.imp hyields fun _ _ _ ht hc => (ht hc).1

theorem reads_attr_of (h : Tracks H I) (hP : ∀ c d : Cursor, I c → I d → ∀ style name value,
    (style = .bare → value = []) → P (.attr ⟨c.offset, d.offset⟩ style name value)) :
    attr.ReadsGiven H fun c t _ => I c → P t := by
  have hpart {rule : Rule} {style : AttributeStyle} {parts : Grammar (List Token × List Token)}
      (hbare : parts.Yields H I fun part => style = .bare → part.2 = []) :
        (attributeOf rule style parts).Yields H I P :=
    yields_named (yields_spanned (yields_map hbare fun part hbare c d hc hd => hP c d hc hd style _ _ hbare))
  have hvalue {style : AttributeStyle} (parts : Grammar (List Token × List Token)) (hstyle : style ≠ .bare) :
      parts.Yields H I fun part => style = .bare → part.2 = [] :=
    (h.yields_true parts).imp fun _ _ hbare => absurd hbare hstyle
  have hyields : attr.Yields H I P := by
    refine yields_orElse (hpart (hvalue _ ?_)) (yields_orElse (hpart (hvalue _ ?_)) (yields_orElse (hpart (hvalue _ ?_))
      (hpart (yields_map (h.yields_true _) fun _ _ _ => rfl)))) <;> exact nofun
  exact ReadsGiven.imp hyields fun _ _ _ ht hc => (ht hc).1

theorem reads_rawElement_of (h : Tracks H I) (hP : ∀ c d : Cursor, I c → I d → ∀ name attributes body opener closer,
    P (.rawElement ⟨c.offset, d.offset⟩ name attributes body opener closer)) :
    rawElement.ReadsGiven H fun c t _ => I c → P t := by
  have hyields : rawElement.Yields H I P := by
    refine yields_named (yields_spanned (yields_seq (yields_seq (yields_map (h.yields_true _) ?_) (h.yields_true _))
      (h.yields_true _)))
    exact fun _ _ _ _ _ _ c d hc hd => hP c d hc hd _ _ _ _ _
  exact ReadsGiven.imp hyields fun _ _ _ ht hc => (ht hc).1

theorem parts_liquidTag : liquidTag.ReadsGiven H fun _ t _ =>
    t.nameParts = [] ∧ t.attributeParts = [] ∧ t.valueParts = [] := by
  have hmap {α : Type} {f : α → Token} {p : Grammar α}
      (hf : ∀ x, (f x).nameParts = [] ∧ (f x).attributeParts = [] ∧ (f x).valueParts = []) :
      (f <$> p).ReadsGiven H fun _ t _ => t.nameParts = [] ∧ t.attributeParts = [] ∧ t.valueParts = [] :=
    reads_map fun _ _ _ x _ _ => hf x
  refine reads_orElse (reads_named (reads_map (reads_slice ?_)))
    (reads_orElse (hmap fun _ => ⟨rfl, rfl, rfl⟩)
      (reads_orElse (hmap fun _ => ⟨rfl, rfl, rfl⟩) (hmap fun _ => ⟨rfl, rfl, rfl⟩)))
  refine reads_seq (P := fun _ _ _ => True) (reads_seq (P := fun _ _ _ => True) (reads_map ?_) ?_) ?_
  · exact fun _ _ _ _ _ _ _ _ _ _ _ _ => ⟨rfl, rfl, rfl⟩
  · exact fun _ _ _ _ _ _ => trivial
  · exact fun _ _ _ _ _ _ => trivial

/-- A token has a property everywhere if it has it itself and all tokens inside of it have. -/
theorem yields_own {p : Grammar Token} (hown : p.ReadsGiven H fun c t _ => I c → P t)
    (hparts : p.Yields H I (PartsHave P)) : p.Yields H I (Everywhere P) := by
  refine (hown.and hparts).imp ?_
  rintro c t d ⟨hP, hparts⟩ hc
  obtain ⟨⟨hname, hattributes, hvalue⟩, hd⟩ := hparts hc
  exact ⟨⟨hP hc, hname, hattributes, hvalue⟩, hd⟩

theorem yields_attributeOf (rule : Rule) (style : AttributeStyle) {parts : Grammar (List Token × List Token)}
    (hparts : parts.Yields H I fun part => (∀ t ∈ part.1, t.Everywhere P) ∧ ∀ t ∈ part.2, t.Everywhere P) :
    (attributeOf rule style parts).Yields H I (PartsHave P) := by
  refine yields_named (yields_spanned (yields_map hparts ?_))
  rintro part ⟨hname, hvalue⟩ c d - -
  exact ⟨hname, by simp [attributeParts], hvalue⟩

namespace TokenRules

variable (h : TokenRules H I P)

include h

/-! ## Liquid and texts -/

theorem yields_liquidTag : Grammar.liquidTag.Yields H I (Everywhere P) := by
  refine h.yields ((h.liquidTag.and parts_liquidTag).imp ?_)
  rintro c t d ⟨hP, hname, hattributes, hvalue⟩ hc
  exact .of_parts_nil (hP hc) hname hattributes hvalue

theorem yields_drop : Grammar.drop.Yields H I (Everywhere P) := by
  have hparts : Grammar.drop.ReadsGiven H fun _ t _ =>
      t.nameParts = [] ∧ t.attributeParts = [] ∧ t.valueParts = [] :=
    reads_named (reads_map fun _ _ _ _ _ _ => ⟨rfl, rfl, rfl⟩)
  refine h.yields ((h.drop.and hparts).imp ?_)
  rintro c t d ⟨hP, hname, hattributes, hvalue⟩ hc
  exact .of_parts_nil (hP hc) hname hattributes hvalue

theorem yields_liquid : liquid.Yields H I (Everywhere P) :=
  yields_orElse h.yields_liquidTag h.yields_drop

theorem yields_textOf {α : Type} (p : Grammar α) :
    ((fun m => Token.text m.1) <$> Peg.slice p).Yields H I (Everywhere P) := by
  refine yields_map (A := fun m => P (.text m.1)) (yields_slice ?_) fun m hm => .of_parts_nil hm rfl rfl rfl
  exact (h.yields_true p).imp fun _ _ c d hc hd => h.text c d hc hd

theorem yields_textWithout (rule : Rule) (excluded : Char → Bool) :
    (textWithout rule excluded).Yields H I (Everywhere P) :=
  yields_atom (h.yields_textOf _)

/-! ## Attributes -/

theorem yields_attributeName : attributeName.Yields H I fun ts => ∀ t ∈ ts, t.Everywhere P :=
  yields_many1 (yields_orElse (h.yields_textOf _) h.yields_drop)

theorem yields_attributeHead : attributeHead.Yields H I fun ts => ∀ t ∈ ts, t.Everywhere P :=
  have htracks := h.toTracks
  yields_seqLeft (yields_seqLeft (yields_seqLeft h.yields_attributeName htracks _) htracks _) htracks _

theorem yields_attributeQuoted (rule valueRule textRule : Rule) (q : Quote) :
    (attributeQuoted rule valueRule textRule q).Yields H I (PartsHave P) := by
  have hvalue := yields_many (yields_orElse h.yields_liquid (h.yields_textWithout textRule (· == q.char)))
  refine yields_attributeOf rule _ (yields_seq (yields_map (yields_seqLeft h.yields_attributeHead h.toTracks _) ?_)
    (yields_seqLeft (yields_named hvalue) h.toTracks _))
  exact fun name hname value hvalue => ⟨hname, hvalue⟩

theorem yields_attr : Grammar.attr.Yields H I (Everywhere P) := by
  have hparts : Grammar.attr.Yields H I (PartsHave P) := by
    refine yields_orElse (h.yields_attributeQuoted _ _ _ _)
      (yields_orElse (h.yields_attributeQuoted _ _ _ _) (yields_orElse ?_ ?_))
    · have hvalue := yields_many1 (yields_orElse h.yields_drop (h.yields_textWithout .attrTextUnquoted endsUnquoted))
      refine yields_attributeOf _ _ (yields_seq (yields_map h.yields_attributeHead ?_) (yields_named hvalue))
      exact fun name hname value hvalue => ⟨hname, hvalue⟩
    · exact yields_attributeOf _ _ (yields_map h.yields_attributeName fun name hname => ⟨hname, by simp⟩)
  exact yields_own h.attr hparts

theorem yields_attributes : attributes.Yields H I fun ts => ∀ t ∈ ts, t.Everywhere P :=
  yields_seqLeft (yields_many (yields_seqRight h.toTracks _ (yields_orElse h.yields_liquidTag h.yields_attr)))
    h.toTracks _

/-! ## HTML -/

theorem yields_elementName : elementName.Yields H I fun ts => ∀ t ∈ ts, t.Everywhere P :=
  yields_many1 (yields_orElse (h.yields_textOf _) h.yields_drop)

theorem yields_closeTag : Grammar.closeTag.Yields H I (Everywhere P) := by
  have hname := yields_seqLeft (yields_seqLeft (yields_seqRight h.toTracks (.text "</") h.yields_elementName)
    h.toTracks blanks) h.toTracks (.text ">")
  refine yields_own h.closeTag (yields_named (yields_spanned (yields_map hname ?_)))
  exact fun name hname c d _ _ => ⟨hname, by simp [attributeParts], by simp [valueParts]⟩

theorem yields_openTag : Grammar.openTag.Yields H I (Everywhere P) := by
  refine yields_own h.openTag (yields_named (yields_spanned (yields_seq (yields_seq (yields_map
    (yields_seqRight h.toTracks _ h.yields_elementName) ?_) h.yields_attributes) (h.yields_true _))))
  intro name hname attributes hattributes slash _ c d _ _
  refine holds_ofOpening slash ⟨hname, hattributes, ?_⟩ (fun _ => ⟨?_, hattributes, ?_⟩) ⟨hname, hattributes, ?_⟩ <;>
    simp [nameParts, valueParts]

theorem yields_rawElement : Grammar.rawElement.Yields H I (Everywhere P) := by
  have hopener : (Peg.slice (Prod.mk <$> (.text "<" *> .push rawElementName) <*> (attributes <* .text ">"))
      : Grammar (Slice × String × List Token)).Yields H I fun r => ∀ t ∈ r.2.2, t.Everywhere P :=
    yields_slice (yields_seq (yields_map (h.yields_true _) fun _ _ _ hts _ _ _ _ => hts)
      (yields_seqLeft h.yields_attributes h.toTracks _))
  refine yields_own h.rawElement (yields_named (yields_spanned (yields_seq (yields_seq
    (yields_map (yields_named hopener) ?_) (h.yields_true _)) (h.yields_true _))))
  exact fun _ hattributes _ _ _ _ _ _ _ _ => ⟨by simp [nameParts], hattributes, by simp [valueParts]⟩

theorem yields_html : html.Yields H I (Everywhere P) := by
  refine yields_orElse (yields_named (yields_spanned (yields_map (h.yields_true _) ?_)))
    (yields_orElse (yields_named (yields_spanned (yields_map (h.yields_true _) ?_)))
      (yields_orElse h.yields_rawElement (yields_orElse h.yields_closeTag h.yields_openTag)))
  · exact fun body _ c d hc hd => .of_parts_nil (h.comment c d hc hd body) rfl rfl rfl
  · exact fun legacy _ c d hc hd => .of_parts_nil (h.doctype c d hc hd _) rfl rfl rfl

/-! ## Documents -/

theorem yields_node : node.Yields H I (Everywhere P) :=
  yields_orElse h.yields_liquid (yields_orElse h.yields_html (yields_atom (h.yields_textOf _)))

theorem yields_frontMatter : Grammar.frontMatter.Yields H I (Everywhere P) :=
  yields_named (yields_spanned (yields_map (h.yields_true _)
    fun body _ c d hc hd => .of_parts_nil (h.frontMatter c d hc hd body) rfl rfl rfl))

theorem yields_document : document.Yields H I fun ts => ∀ t ∈ ts, t.Everywhere P := by
  have hfront := yields_seqLeft (yields_seqRight h.toTracks blanks (yields_opt h.yields_frontMatter)) h.toTracks blanks
  have hnodes := yields_many (yields_seqLeft h.yields_node h.toTracks blanks)
  refine yields_named (yields_seq (yields_map hfront ?_) (yields_seqLeft hnodes h.toTracks _))
  intro front hfront nodes hnodes t ht
  rcases List.mem_append.1 ht with ht | ht
  · exact hfront t (Option.mem_toList.1 ht)
  · exact hnodes t ht

/-- What the single rules give on the run over a template holds of all its tokens. -/
theorem ofSource_at {source : String} {tokens : List Token}
    (hrecur : H (readNested expression (source.toList.length + 1))) (hstart : I (.ofText source.toList))
    (htokens : Token.ofSource source = .ok tokens) : ∀ t ∈ tokens, t.Everywhere P := by
  unfold Token.ofSource at htokens
  split at htokens
  next ts d a hrun =>
    cases htokens
    exact (h.yields_document _ hrecur _ _ _ (read_of_run hrun) hstart).1
  · cases htokens

/-- **What the single rules give holds of all tokens of a template.** -/
theorem ofSource (hrecur : ∀ depth, H (readNested expression depth)) {source : String} {tokens : List Token}
    (hstart : I (.ofText source.toList)) (htokens : Token.ofSource source = .ok tokens) :
    ∀ t ∈ tokens, t.Everywhere P :=
  h.ofSource_at (hrecur _) hstart htokens

end TokenRules

end Grammar

end LiquidTemplate
