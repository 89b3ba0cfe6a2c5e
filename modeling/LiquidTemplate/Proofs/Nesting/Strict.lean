import LiquidTemplate.Proofs.Nesting.Invariant

/-!
# Strict reading accepts exactly the well nested templates

The tokens of every template have plain names, whatever it holds, so a template whose tokens can be read is
accepted by strict reading exactly if the grammar of nesting derives them, and the children of the document
are then the nodes of the derivation (`parse_eq_ok_iff_derives`).
-/

namespace LiquidTemplate

/-! ## Tokens of a template -/

namespace Token

theorem plainNames_of_parts_nil {t : Token} (hname : t.nameParts = []) (hattributes : t.attributeParts = [])
    (hvalue : t.valueParts = []) : t.PlainNames :=
  ⟨by simp [hname], by simp [hattributes], by simp [hvalue]⟩

end Token

namespace Grammar

open Peg Token

theorem gives_spanned {α : Type} {p : Grammar (Span → α)} {P : α → Prop}
    (h : p.Gives fun k => ∀ span, P (k span)) : (spanned p).Gives P :=
  gives_map (gives_slice h) fun m hm => hm m.1.span

theorem gives_drop : drop.Gives fun t => t.isFragment = true :=
  gives_named (gives_map (gives_true _) fun _ _ => rfl)

theorem gives_textWithout (rule : Rule) (excluded : Char → Bool) :
    (textWithout rule excluded).Gives fun t => t.isFragment = true :=
  gives_atom (gives_map (gives_true _) fun _ _ => rfl)

theorem gives_attributeNameText : attributeNameText.Gives fun t => t.isFragment = true :=
  gives_atom (gives_map (gives_true _) fun _ _ => rfl)

theorem gives_attributeName : attributeName.Gives fun ts => ∀ t ∈ ts, t.isFragment = true :=
  gives_named (gives_many1 (gives_orElse gives_attributeNameText gives_drop))

theorem gives_elementName : elementName.Gives fun ts => ∀ t ∈ ts, t.isFragment = true :=
  gives_named (gives_many1 (gives_orElse (gives_atom (gives_map (gives_true _) fun _ _ => rfl)) gives_drop))

theorem gives_rawTag : rawTag.Gives PlainNames := by
  refine gives_named (gives_spanned (gives_seq (gives_seq (gives_map (gives_true _) ?_) (gives_true _)) (gives_true _)))
  exact fun _ _ _ _ _ _ _ => plainNames_of_parts_nil rfl rfl rfl

theorem gives_liquidTag : liquidTag.Gives PlainNames := by
  refine gives_orElse gives_rawTag (gives_orElse ?_ (gives_orElse ?_ ?_))
  · exact gives_named (gives_map (gives_true _) fun _ _ => plainNames_of_parts_nil rfl rfl rfl)
  · exact gives_named (gives_map (gives_true _) fun _ _ => plainNames_of_parts_nil rfl rfl rfl)
  · exact gives_named (gives_map (gives_true _) fun _ _ => plainNames_of_parts_nil rfl rfl rfl)

theorem gives_liquid : liquid.Gives PlainNames :=
  gives_orElse gives_liquidTag (gives_drop.imp fun _ => .of_isFragment)

theorem gives_attributeOf (rule : Rule) (style : AttributeStyle) {parts : Grammar (List Token × List Token)}
    (h : parts.Gives fun part => (∀ t ∈ part.1, t.isFragment = true) ∧ ∀ t ∈ part.2, t.PlainNames) :
    (attributeOf rule style parts).Gives PlainNames := by
  refine gives_named (gives_spanned (gives_map h ?_))
  rintro part ⟨hname, hvalue⟩ span
  exact ⟨hname, by simp [attributeParts], hvalue⟩

theorem gives_attributeHead : attributeHead.Gives fun ts => ∀ t ∈ ts, t.isFragment = true :=
  gives_seqLeft (gives_seqLeft (gives_seqLeft gives_attributeName))

theorem gives_attributeQuoted (rule valueRule textRule : Rule) (q : Quote) :
    (attributeQuoted rule valueRule textRule q).Gives PlainNames := by
  have hvalue : (Peg.many (liquid <|> textWithout textRule (· == q.char))).Gives fun ts => ∀ t ∈ ts, t.PlainNames :=
    gives_many (gives_orElse gives_liquid ((gives_textWithout _ _).imp fun _ => .of_isFragment))
  refine gives_attributeOf _ _ (gives_seq (gives_map (gives_seqLeft gives_attributeHead) ?_)
    (gives_seqLeft (gives_named hvalue)))
  exact fun name hname value hvalue => ⟨hname, hvalue⟩

theorem gives_attr : attr.Gives PlainNames := by
  refine gives_orElse (gives_attributeQuoted _ _ _ _)
    (gives_orElse (gives_attributeQuoted _ _ _ _) (gives_orElse ?_ ?_))
  · have hvalue := gives_many1 (gives_orElse gives_drop (gives_textWithout .attrTextUnquoted endsUnquoted))
    refine gives_attributeOf _ _ (gives_seq (gives_map gives_attributeHead ?_) (gives_named hvalue))
    exact fun name hname value hvalue => ⟨hname, fun t ht => .of_isFragment (hvalue t ht)⟩
  · exact gives_attributeOf _ _ (gives_map gives_attributeName fun name hname => ⟨hname, by simp⟩)

theorem gives_attributes : attributes.Gives fun ts => ∀ t ∈ ts, t.PlainNames :=
  gives_seqLeft (gives_many (gives_seqRight (gives_orElse gives_liquidTag gives_attr)))

theorem plainNames_ofOpening {span : Span} {name attributes : List Token} {slash : Bool}
    (hname : ∀ t ∈ name, t.isFragment = true) (hattributes : ∀ t ∈ attributes, t.PlainNames) :
    (ofOpening span name attributes slash).PlainNames := by
  have hopen : (Token.openTag span name attributes).PlainNames := ⟨hname, hattributes, by simp [valueParts]⟩
  unfold ofOpening
  split
  · exact ⟨hname, hattributes, by simp [valueParts]⟩
  · split
    · split
      · exact ⟨by simp [nameParts], hattributes, by simp [valueParts]⟩
      · exact hopen
    · exact hopen

theorem gives_openTag : openTag.Gives PlainNames := by
  refine gives_named (gives_spanned (gives_seq (gives_seq (gives_map (gives_seqRight gives_elementName) ?_)
    gives_attributes) (gives_true _)))
  exact fun name hname attributes hattributes slash _ span => plainNames_ofOpening hname hattributes

theorem gives_closeTag : closeTag.Gives PlainNames := by
  refine gives_named (gives_spanned (gives_map (gives_seqLeft (gives_seqLeft (gives_seqRight gives_elementName))) ?_))
  exact fun name hname span => ⟨hname, by simp [attributeParts], by simp [valueParts]⟩

theorem gives_rawElement : rawElement.Gives PlainNames := by
  have hopener : (Peg.slice (Prod.mk <$> (.text "<" *> .push rawElementName) <*> (attributes <* .text ">"))).Gives
      fun r => ∀ t ∈ r.2.2, t.PlainNames :=
    gives_slice (P := fun r : String × List Token => ∀ t ∈ r.2, t.PlainNames)
      (gives_seq (gives_map (gives_true _) fun _ _ _ h => h) (gives_seqLeft gives_attributes))
  refine gives_named (gives_spanned (gives_seq (gives_seq (gives_map (gives_named hopener) ?_) (gives_true _))
    (gives_true _)))
  exact fun opener hattributes _ _ _ _ _ => ⟨by simp [nameParts], hattributes, by simp [valueParts]⟩

theorem gives_html : html.Gives PlainNames := by
  refine gives_orElse ?_ (gives_orElse ?_ (gives_orElse gives_rawElement (gives_orElse gives_closeTag gives_openTag)))
  · exact gives_named (gives_spanned (gives_map (gives_true _) fun _ _ _ => plainNames_of_parts_nil rfl rfl rfl))
  · exact gives_named (gives_spanned (gives_map (gives_true _) fun _ _ _ => plainNames_of_parts_nil rfl rfl rfl))

theorem gives_node : node.Gives PlainNames :=
  gives_orElse gives_liquid (gives_orElse gives_html
    (gives_atom (gives_map (gives_true _) fun _ _ => plainNames_of_parts_nil rfl rfl rfl)))

theorem gives_frontMatter : frontMatter.Gives PlainNames :=
  gives_named (gives_spanned (gives_map (gives_true _) fun _ _ _ => plainNames_of_parts_nil rfl rfl rfl))

theorem gives_document : document.Gives fun ts => ∀ t ∈ ts, t.PlainNames := by
  refine gives_named (gives_seq (gives_map (gives_seqLeft (gives_seqRight (gives_opt gives_frontMatter))) ?_)
    (gives_seqLeft (gives_many (gives_seqLeft gives_node))))
  intro front hfront nodes hnodes t ht
  rcases List.mem_append.1 ht with ht | ht
  · exact hfront t (by simpa using ht)
  · exact hnodes t ht

end Grammar

theorem plainNames_of_ofSource {source : String} {tokens : List Token} (h : Token.ofSource source = .ok tokens) :
    ∀ t ∈ tokens, t.PlainNames := by
  unfold Token.ofSource at h
  split at h
  next found rest attempts hrun =>
    rw [Except.ok.injEq] at h
    subst h
    exact Grammar.gives_document.of_run hrun
  · simp at h

/-! ## Strict reading -/

theorem parse_of_ofSource {source : String} {tokens : List Token} (h : Token.ofSource source = .ok tokens)
    (strictness : Strictness) :
    Document.parse source strictness =
      match Node.ofTokens strictness tokens with
      | .error fault => .error (.nesting fault)
      | .ok nodes => .ok (.ofNodes source nodes) := by
  unfold Document.parse
  rewrite [h]
  rfl

theorem ofSource_of_parse {source : String} {strictness : Strictness} {d : Document Unit}
    (h : Document.parse source strictness = .ok d) : ∃ tokens, Token.ofSource source = .ok tokens := by
  unfold Document.parse at h
  generalize Token.ofSource source = tokens at h ⊢
  cases tokens with
  | error attempts => cases h
  | ok tokens => exact ⟨tokens, rfl⟩

theorem derives_of_parse {source : String} {tokens : List Token} {d : Document Unit}
    (h : Token.ofSource source = .ok tokens) (hparse : Document.parse source .strict = .ok d) :
    ∃ nodes, Derives .sequence tokens nodes ∧ d = .ofNodes source nodes := by
  rw [parse_of_ofSource h] at hparse
  cases hnodes : Node.ofTokens .strict tokens with
  | error fault => simp [hnodes] at hparse
  | ok nodes =>
    simp only [hnodes, Except.ok.injEq] at hparse
    exact ⟨nodes, Nesting.sound (plainNames_of_ofSource h) nodes hnodes, hparse.symm⟩

theorem parse_of_derives {source : String} {tokens : List Token} {nodes : List (Node Unit)}
    (h : Token.ofSource source = .ok tokens) (hderives : Derives .sequence tokens nodes) :
    Document.parse source .strict = .ok (.ofNodes source nodes) := by
  rw [parse_of_ofSource h]
  simp only [(hderives.runs (plainNames_of_ofSource h)).ofTokens]

/-- **Strict reading accepts exactly the well nested templates**, and the children of the document are the nodes
that the grammar of nesting derives from the tokens. -/
theorem parse_eq_ok_iff_derives {source : String} {tokens : List Token} (h : Token.ofSource source = .ok tokens)
    (d : Document Unit) :
    Document.parse source .strict = .ok d ↔ ∃ nodes, Derives .sequence tokens nodes ∧ d = .ofNodes source nodes := by
  constructor
  · exact derives_of_parse h
  · rintro ⟨nodes, hderives, rfl⟩
    exact parse_of_derives h hderives

theorem exists_eq_ok {ε α : Type} {x : Except ε α} {P : α → Bool} (h : x.toOption.any P = true) :
    ∃ a, x = .ok a ∧ P a = true := by
  cases x with
  | error e => cases h
  | ok a => exact ⟨a, rfl, h⟩

/-- An element whose two ends differ in case, around a tag with two branches. -/
theorem derives_element_around_branches :
    ∃ tokens nodes,
      Token.ofSource "<A>\x7b% if a %\x7dx\x7b% else %\x7dy\x7b% endif %\x7d</a>" = .ok tokens ∧
      Document.parse "<A>\x7b% if a %\x7dx\x7b% else %\x7dy\x7b% endif %\x7d</a>" .strict =
        .ok (.ofNodes "<A>\x7b% if a %\x7dx\x7b% else %\x7dy\x7b% endif %\x7d</a>" nodes) ∧
      Derives .sequence tokens nodes := by
  obtain ⟨d, hd, -⟩ :=
    @exists_eq_ok _ _ (Document.parse "<A>\x7b% if a %\x7dx\x7b% else %\x7dy\x7b% endif %\x7d</a>" .strict)
      (fun _ => true) (by decide +kernel)
  obtain ⟨tokens, htokens⟩ := ofSource_of_parse hd
  obtain ⟨nodes, hderives, rfl⟩ := (parse_eq_ok_iff_derives htokens d).1 hd
  exact ⟨tokens, nodes, htokens, hd, hderives⟩

end LiquidTemplate
