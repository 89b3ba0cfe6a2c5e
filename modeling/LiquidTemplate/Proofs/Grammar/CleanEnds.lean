import LiquidTemplate.Proofs.Grammar.Edges
import LiquidTemplate.Proofs.Grammar.RawElements
import LiquidTemplate.Proofs.Grammar.TagNames
import LiquidTemplate.Proofs.Text.LineEnds

/-!
# Where carriage returns cannot be

A carriage return is a blank, so no token of a template ends with one, and neither does an item of an attribute list.
There is none in the texts of a name, and the tags that open a block are named by words (`clean_of_ofSource`).
-/

namespace LiquidTemplate

/-! ## Offsets in a text -/

namespace Text

/-- No part of a text that stops at this offset ends with a carriage return. -/
def StopsClean (s : List Char) (stop : Nat) : Prop :=
  ∀ start, EndsClean (sliceChars s ⟨start, stop⟩)

variable {s p : List Char}

theorem stopsClean_append (hp : EndsClean p) (q : List Char) : StopsClean (p ++ q) (byteSize p) := by
  intro start
  unfold sliceChars
  cases h : slice? (p ++ q) ⟨start, byteSize p⟩ with
  | none => exact endsClean_nil
  | some w =>
    obtain ⟨a, b, hsplit, hspan⟩ := exists_of_slice? h
    have hsize : byteSize p = byteSize (a ++ w) := by
      rw [byteSize_append]
      exact congrArg Span.stop hspan
    rw [← List.append_assoc] at hsplit
    -- the text up to the offset is one and the same in both readings
    obtain ⟨v, hv⟩ := prefix_of_byteSize_le ⟨q, rfl⟩ ⟨b, hsplit.symm⟩ hsize.le
    have hnil : v = [] := eq_nil_of_byteSize (by rw [← hv, byteSize_append] at hsize; omega)
    rw [hnil, List.append_nil] at hv
    rw [hv] at hp
    exact hp.of_append

theorem ne_return_of_isBlank {x : Char} (h : isBlank x = false) : x ≠ '\r' := by
  rintro rfl
  exact absurd h (by decide)

theorem notMem_return_of_all {q : Char → Bool} {w : List Char} (h : w.all q = true) (hq : q '\r' = false) :
    '\r' ∉ w := by
  intro hmem
  rw [List.all_eq_true.1 h _ hmem] at hq
  cases hq

theorem IsWord.stopsClean {span : Span} (h : IsWord (sliceChars s span)) : StopsClean s span.stop := by
  obtain ⟨-, v, x, hlast, hx⟩ := h
  unfold sliceChars at hlast
  cases hslice : slice? s span with
  | none => simp [hslice] at hlast
  | some w =>
    obtain ⟨a, b, rfl, rfl⟩ := exists_of_slice? hslice
    rw [hslice, Option.getD_some] at hlast
    have hends : EndsClean (a ++ w) := by
      rw [hlast, ← List.append_assoc]
      exact endsClean_concat (ne_return_of_isBlank hx)
    have hstops := stopsClean_append hends b
    rwa [byteSize_append, List.append_assoc] at hstops

end Text

theorem Grammar.EndsInText.stopsClean {s : List Char} {c d : Cursor} (h : EndsInText c d) (hc : c.IsIn s)
    (hd : d.IsIn s) : Text.StopsClean s d.offset := by
  obtain ⟨v, x, hrest, hx⟩ := h
  obtain ⟨a, rfl, -⟩ := hc
  obtain ⟨b, hsplit, hsize⟩ := hd
  have hb : b = a ++ v ++ [x] := by
    have hsame : b ++ d.rest = (a ++ v ++ [x]) ++ d.rest := by
      rw [← hsplit, hrest]
      simp
    exact List.append_cancel_right hsame
  rw [hsplit, ← hsize]
  exact Text.stopsClean_append (hb ▸ Text.endsClean_concat (Text.ne_return_of_isBlank hx)) d.rest

/-! ## Tokens -/

namespace Token

/-- A text without carriage returns, or a drop. -/
def IsNamePart : Token → Prop
  | text slice => '\r' ∉ slice.text.toList
  | drop _ _ _ => True
  | _ => False

/-- The name of an element that is known by its name. -/
def literalName? : Token → Option String
  | voidElement _ name _ | rawElement _ name _ _ _ _ => some name
  | _ => none

def opensBlock : Token → Bool
  | blockOpen _ _ _ => true
  | _ => false

/-- No carriage return is in the name of a token, none is at the end of an item of its attribute list, and no line feed
is in the name of a tag that opens a block. -/
structure Clean (s : List Char) (t : Token) : Prop where
  name : ∀ u ∈ t.nameParts, u.IsNamePart
  literal : ∀ name ∈ t.literalName?, '\r' ∉ name.toList
  attributes : ∀ u ∈ t.attributeParts, u.isText = false ∧ Text.StopsClean s u.span.stop
  block : ∀ d name markup, t = .blockOpen d name markup → '\n' ∉ name.toList

theorem notMem_of_not_opensBlock {t : Token} (h : t.opensBlock = false) :
    ∀ d name markup, t = .blockOpen d name markup → '\n' ∉ name.toList := by
  rintro d name markup rfl
  cases h

end Token

namespace Grammar

open Peg Token

/-! ## Names -/

theorem reads_many1_all {p : Grammar Char} {q : Char → Bool}
    (hp : p.Reads fun c x d => c.rest = x :: d.rest ∧ q x = true) :
    (many1 p).Reads fun c _ d => ∃ w, c.rest = w ++ d.rest ∧ w.all q = true := by
  have hmany : (Peg.many p).Reads fun c w d => c.rest = w ++ d.rest ∧ w.all q = true := by
    refine reads_many hp (fun c => ⟨rfl, rfl⟩) ?_
    rintro c x d w e ⟨hrest, hx⟩ ⟨hrest', hw⟩
    exact ⟨by rw [hrest, hrest', List.cons_append], by simp [hx, hw]⟩
  refine reads_seq (reads_map (hp.imp ?_)) hmany
  rintro c x d ⟨hrest, hx⟩ w e ⟨hw, hall⟩
  exact ⟨x :: w, by rw [hrest, hw, List.cons_append], by simp [hx, hall]⟩

theorem isNamePart_textOf {p : Grammar Char} {q : Char → Bool} (hq : q '\r' = false)
    (hp : p.Reads fun c x d => c.rest = x :: d.rest ∧ q x = true) :
    ((fun m => Token.text m.1) <$> Peg.slice (many1 p)).Reads fun _ t _ => t.IsNamePart := by
  refine reads_map (reads_slice ((reads_many1_all hp).imp ?_))
  rintro c - d ⟨w, hw, hall⟩
  have hchars : c.charsTo d = w := by simp [Cursor.charsTo, hw]
  simpa [IsNamePart, Cursor.sliceTo, hchars] using Text.notMem_return_of_all hall hq

theorem isNamePart_drop : drop.Reads fun _ t _ => t.IsNamePart :=
  reads_named (reads_map ((reads_true _).imp fun _ _ _ _ => trivial))

theorem yields_elementName_isNamePart (s : List Char) :
    elementName.Yields Forward (Cursor.IsIn s) fun ts => ∀ t ∈ ts, t.IsNamePart := by
  have htext := isNamePart_textOf (q := isTagNameChar) (by decide) (reads_char fun _ _ _ hrest _ hx => ⟨hrest, hx⟩)
  exact yields_named (yields_many1 ((tracks_isIn s).yields
    (reads_orElse (reads_atom (htext.imp fun _ _ _ ht _ => ht)) (isNamePart_drop.imp fun _ _ _ ht _ => ht))))

theorem yields_attributeName_isNamePart (s : List Char) :
    attributeName.Yields Forward (Cursor.IsIn s) fun ts => ∀ t ∈ ts, t.IsNamePart := by
  have hchar : (Peg.notAhead (liquidStart <|> .text "/>") *>
      .char fun c => !(Text.isBlank c || c == '=' || c == '>' || c == '"' || c == '\'' || c == '<') :
        Grammar Char).Reads
      fun c x d => c.rest = x :: d.rest ∧ (!Text.isBlank x) = true := by
    refine reads_seqRight (reads_notAhead fun _ c _ y e hy => hy) (reads_char fun c d x hrest _ hx => ⟨hrest, ?_⟩)
    simp only [Bool.not_eq_true', Bool.or_eq_false_iff] at hx
    simp [hx.1.1.1.1.1]
  have htext := isNamePart_textOf (by decide) hchar
  exact yields_named (yields_many1 ((tracks_isIn s).yields
    (reads_orElse (reads_atom (htext.imp fun _ _ _ ht _ => ht)) (isNamePart_drop.imp fun _ _ _ ht _ => ht))))

theorem reads_textNoCase {s : String} : (Peg.textNoCase s : Grammar Unit).Reads fun c _ d =>
    ∃ w, c.rest = w ++ d.rest ∧ w.map Char.toLower = s.toList.map Char.toLower := by
  intro recur _ c x d hread
  simp only [Peg.read, Cursor.skipNoCase?] at hread
  obtain ⟨e, he, hxd⟩ := Option.map_eq_some_iff.1 hread
  obtain ⟨hsame, hskip⟩ := Option.ite_none_right_eq_some.1 he
  obtain ⟨hrest, -⟩ := Cursor.skip?_eq_some hskip
  cases hxd
  exact ⟨_, hrest, eq_of_beq hsame⟩

theorem spellsRaw_rawElementName : rawElementName.Reads fun _ name _ => ∃ word, SpellsRaw word name := by
  have hword (s : String) (hs : s ∈ rawElementWords) : (Peg.textNoCase s : Grammar Unit).Reads fun c _ d =>
      ∃ w, c.rest = w ++ d.rest ∧ ∃ word, SpellsRaw word (String.ofList w) := by
    refine reads_textNoCase.imp ?_
    rintro c - d ⟨w, hw, hsame⟩
    refine ⟨w, hw, s, hs, ?_⟩
    simp [Text.eqIgnoringCase, hsame]
  have hends : (Peg.notAhead (.char fun c => Text.isWordChar c || c == '-' || c == ':') : Grammar Unit).Reads
      fun c _ d => d = c := reads_notAhead fun _ _ _ => rfl
  have hname : ((.textNoCase "script" <|> .textNoCase "style") <*
      .notAhead (.char fun c => Text.isWordChar c || c == '-' || c == ':') : Grammar Unit).Reads fun c _ d =>
        ∃ w, c.rest = w ++ d.rest ∧ ∃ word, SpellsRaw word (String.ofList w) := by
    refine reads_seqLeft ((reads_orElse (hword "script" (by decide)) (hword "style" (by decide))).imp ?_) hends
    rintro c - d hw - e rfl
    exact hw
  refine reads_atom ((reads_covered (A := fun w _ => ∃ word, SpellsRaw word (String.ofList w)) hname).imp ?_)
  rintro c name d ⟨-, hspells⟩
  rwa [String.ofList_toList] at hspells

theorem yields_blockOpen_name {H : (Cursor → Option (Expression × Cursor)) → Prop}
    {I : Cursor → Prop} (h : Tracks H I) :
    blockOpen.Yields H I fun t => ∃ d name markup, t = .blockOpen d name markup ∧ name ∈ blockNames := by
  have hword (s : String) (hs : s ∈ blockNames) : (word s).Yields H I (· ∈ blockNames) :=
    (yields_word h s).imp fun name hname => hname ▸ hs
  have htrue {α : Type} (p : Grammar α) := h.yields_true p
  have hhead {p : Grammar String} (hp : p.Yields H I (· ∈ blockNames)) :
      (p <* blanks1).Yields H I (· ∈ blockNames) := yields_seqLeft hp h _
  have hpair {α : Type} {p : Grammar String} {q : Grammar α} {f : α → Markup} (hp : p.Yields H I (· ∈ blockNames)) :
      (Prod.mk <$> p <*> (f <$> q)).Yields H I fun x => x.1 ∈ blockNames :=
    yields_seq (yields_map hp fun _ hx _ _ => hx) (htrue _)
  have hmarkup : blockMarkup.Yields H I fun x => x.1 ∈ blockNames := by
    refine yields_orElse (hpair (hhead (yields_orElse (hword "if" (by decide)) (hword "unless" (by decide))))) <|
      yields_orElse (hpair (hhead (hword "case" (by decide)))) <|
      yields_orElse ?loop <|
      yields_orElse (hpair (hhead (hword "capture" (by decide)))) ?paginate
    case loop =>
      have hname := hhead (yields_orElse (hword "for" (by decide)) (hword "tablerow" (by decide)))
      exact yields_named (yields_seq (yields_seq (yields_seq (yields_seq (yields_map hname
        fun _ hx _ _ _ _ _ _ _ _ => hx) (htrue _)) (htrue _)) (htrue _)) (htrue _))
    case paginate =>
      exact yields_named (yields_seq (yields_seq (yields_seq (yields_map (hhead (hword "paginate" (by decide)))
        fun _ hx _ _ _ _ _ _ => hx) (htrue _)) (htrue _)) (htrue _))
  have hname : blockName.Yields H I (· ∈ blockNames) := by
    refine yields_atom (yields_orElse ?_ (yields_orElse ?_ (yields_orElse ?_ (yields_orElse ?_ (yields_orElse ?_
      (yields_orElse ?_ (yields_orElse ?_ ?_))))))) <;> exact hword _ (by decide)
  have hplain : (plainTag blockName).Yields H I fun x => x.1 ∈ blockNames :=
    yields_seq (yields_map (yields_seqLeft hname h _) fun _ hx _ _ => hx) (htrue _)
  have hinner := yields_orElse (yields_seqLeft hmarkup h (.ahead tagEnd)) hplain
  have htag : (delimited tagOpen tagClose (blockMarkup <* .ahead tagEnd <|> plainTag blockName)).Yields H I
      fun d => d.inner.1 ∈ blockNames := by
    refine yields_map (yields_slice (yields_seq (yields_seq (yields_map (htrue _) ?_) (yields_seqLeft hinner h _))
      (htrue _))) fun _ hx => hx
    exact fun _ _ _ hx _ _ _ _ _ _ => hx
  exact yields_named (yields_map htag fun d hd => ⟨_, _, _, rfl, hd⟩)

/-! ## Items of attribute lists -/

theorem closes_char {q : Char → Bool} (hq : ∀ x, q x = true → Text.isBlank x = false) : Closes (Peg.char q) :=
  reads_char fun _ _ x hrest _ hx => ⟨[], x, hrest, hq x hx⟩

theorem closes_many1 {α : Type} {p : Grammar α} (hp : Closes p) : Closes (many1 p) := by
  have hmany : (Peg.many p).Reads fun c _ d => c = d ∨ EndsInText c d := by
    refine reads_many ((reads_stepsTo p).and hp) (fun c => .inl rfl) ?_
    rintro c x d xs e ⟨hsteps, hends⟩ (rfl | hlater)
    · exact .inr hends
    · exact .inr (.of_stepsTo hsteps hlater)
  refine reads_seq (reads_map (((reads_stepsTo p).and hp).imp ?_)) hmany
  rintro c x d ⟨hsteps, hends⟩ xs e (rfl | hlater)
  · exact hends
  · exact .of_stepsTo hsteps hlater

theorem closes_orElse {α : Type} {p q : Grammar α} (hp : Closes p) (hq : Closes q) : Closes (p <|> q) :=
  reads_orElse hp hq

theorem closes_attr : Closes attr := by
  have hmark (q : Quote) : Closes (Peg.char (· == q.char)) :=
    closes_char fun x hx => by
      rw [beq_iff_eq.1 hx]
      cases q <;> decide
  have hof {rule : Rule} {style : AttributeStyle} {parts : Grammar (List Token × List Token)} (h : Closes parts) :
      Closes (attributeOf rule style parts) :=
    reads_named (closes_map (closes_slice (closes_map h)))
  have hquoted (rule valueRule textRule : Rule) (q : Quote) : Closes (attributeQuoted rule valueRule textRule q) :=
    hof (closes_seq (closes_seqLeft (hmark q)))
  have htext {α : Type} {rule : Rule} {p : Grammar α} {q : Char → Bool}
      (hq : ∀ x, q x = true → Text.isBlank x = false) :
      Closes (atom rule ((fun m => Token.text m.1) <$> Peg.slice (many1 (p *> .char q)))) :=
    reads_atom (closes_map (closes_slice (closes_many1 (closes_seqRight (closes_char hq)))))
  have hunquoted : ∀ x, (!endsUnquoted x) = true → Text.isBlank x = false := by
    intro x hx
    simp only [endsUnquoted, Bool.not_eq_true', Bool.or_eq_false_iff] at hx
    exact hx.1.1.1.1.1.1
  have hname : Closes attributeName := by
    refine reads_named (closes_many1 (closes_orElse (htext fun x hx => ?_) readsWord_drop.closes))
    simp only [Bool.not_eq_true', Bool.or_eq_false_iff] at hx
    exact hx.1.1.1.1.1
  refine closes_orElse (hquoted _ _ _ _) (closes_orElse (hquoted _ _ _ _) (closes_orElse ?_ ?_))
  · exact hof (closes_seq (reads_named (closes_many1 (closes_orElse readsWord_drop.closes (htext hunquoted)))))
  · exact hof (closes_map hname)

theorem isText_attr : attr.Reads fun _ t _ => t.isText = false :=
  (reads_attr_of tracks_forward fun _ _ _ _ _ _ _ _ => rfl).imp fun _ _ _ ht => ht trivial

theorem yields_attributes_stopsClean (s : List Char) : attributes.Yields Forward (Cursor.IsIn s) fun ts =>
    ∀ t ∈ ts, t.isText = false ∧ Text.StopsClean s t.span.stop := by
  have hitem {p : Grammar Token} (hplace : p.Reads fun c t d => t.Occupies c.offset d.offset) (hcloses : Closes p)
      (htext : p.Reads fun _ t _ => t.isText = false) :
      p.Yields Forward (Cursor.IsIn s) fun t => t.isText = false ∧ Text.StopsClean s t.span.stop := by
    refine (tracks_isIn s).yields (((reads_stepsTo p).and (hplace.and (hcloses.and htext))).imp ?_)
    rintro c t d ⟨hsteps, ⟨hspan, -⟩, hends, htext⟩ hc
    refine ⟨htext, ?_⟩
    rw [hspan]
    exact hends.stopsClean hc (hc.steps hsteps)
  have htag := hitem reads_liquidTag readsWord_liquidTag.closes (isMarkup_liquidTag.imp fun _ _ _ ht => ht.2)
  have hattr := hitem reads_attr closes_attr isText_attr
  exact yields_seqLeft (yields_many (yields_seqRight (tracks_isIn s) blanks (yields_orElse htag hattr))) (tracks_isIn s)
    blanks

/-! ## Templates -/

theorem clean_of_none {s : List Char} {t : Token} (hname : ∀ u ∈ t.nameParts, u.IsNamePart)
    (hattributes : ∀ u ∈ t.attributeParts, u.isText = false ∧ Text.StopsClean s u.span.stop)
    (hliteral : t.literalName? = none) (hblock : t.opensBlock = false) : t.Clean s where
  name := hname
  literal := by simp [hliteral]
  attributes := hattributes
  block := notMem_of_not_opensBlock hblock

theorem clean_of_parts_nil {s : List Char} {t : Token} (hname : t.nameParts = []) (hattributes : t.attributeParts = [])
    (hliteral : t.literalName? = none) (hblock : t.opensBlock = false) : t.Clean s :=
  clean_of_none (by simp [hname]) (by simp [hattributes]) hliteral hblock

theorem clean_ofOpening {s : List Char} (span : Span) {name attributes : List Token} (hname : ∀ t ∈ name, t.IsNamePart)
    (hattributes : ∀ t ∈ attributes, t.isText = false ∧ Text.StopsClean s t.span.stop) (slash : Bool) :
    (Token.ofOpening span name attributes slash).Clean s := by
  unfold Token.ofOpening
  split
  · exact clean_of_none hname hattributes rfl rfl
  split
  next slice =>
    split
    · refine ⟨by simp [nameParts], ?_, hattributes, notMem_of_not_opensBlock rfl⟩
      rintro _ ⟨⟩
      exact hname _ (List.mem_singleton_self _)
    · exact clean_of_none hname hattributes rfl rfl
  next => exact clean_of_none hname hattributes rfl rfl

theorem cleanRules (s : List Char) : TokenRules Forward (Cursor.IsIn s) (Token.Clean s) where
  toTracks := tracks_isIn s
  liquidTag := by
    have hplain {α : Type} {rule : Rule} {f : α → Token} {p : Grammar α} (hf : ∀ x, (f x).Clean s) :
        (named rule (f <$> p)).Reads fun c t _ => c.IsIn s → t.Clean s :=
      reads_named (reads_map ((reads_true _).imp fun _ x _ _ _ => hf x))
    refine reads_orElse ?_ (reads_orElse (hplain fun _ => clean_of_parts_nil rfl rfl rfl rfl) (reads_orElse ?_
      (hplain fun _ => clean_of_parts_nil rfl rfl rfl rfl)))
    · refine reads_named (reads_spanned (reads_seq (reads_seq (reads_map ?_) (reads_true _)) (reads_true _)))
      exact (reads_true _).imp fun _ _ _ _ _ _ _ _ _ _ _ => clean_of_parts_nil rfl rfl rfl rfl
    · refine ReadsGiven.imp (yields_blockOpen_name (tracks_isIn s)) fun c t d ht hc => ?_
      obtain ⟨delimiter, name, markup, rfl, hname⟩ := (ht hc).1
      refine ⟨by simp [nameParts], by simp [literalName?], by simp [attributeParts], ?_⟩
      rintro _ _ _ ⟨⟩
      have hnames : ∀ name ∈ blockNames, '\n' ∉ name.toList := by decide
      exact hnames name hname
  drop := reads_named (reads_map ((reads_true _).imp fun _ _ _ _ _ => clean_of_parts_nil rfl rfl rfl rfl))
  text _ _ _ _ := clean_of_parts_nil rfl rfl rfl rfl
  frontMatter _ _ _ _ _ := clean_of_parts_nil rfl rfl rfl rfl
  comment _ _ _ _ _ := clean_of_parts_nil rfl rfl rfl rfl
  doctype _ _ _ _ _ := clean_of_parts_nil rfl rfl rfl rfl
  openTag := by
    have htracks := tracks_isIn s
    have hyields : openTag.Yields Forward (Cursor.IsIn s) (Token.Clean s) := by
      refine yields_named (yields_spanned (yields_seq (yields_seq (yields_map (yields_seqRight htracks (.text "<")
        (yields_elementName_isNamePart s)) ?_) (yields_attributes_stopsClean s)) (htracks.yields_true _)))
      exact fun name hname attributes hattributes slash _ c d _ _ => clean_ofOpening _ hname hattributes slash
    exact ReadsGiven.imp hyields fun _ _ _ ht hc => (ht hc).1
  closeTag := by
    have htracks := tracks_isIn s
    have hyields : closeTag.Yields Forward (Cursor.IsIn s) (Token.Clean s) := by
      have hname := yields_seqLeft (yields_seqLeft (yields_seqRight htracks (.text "</")
        (yields_elementName_isNamePart s)) htracks blanks) htracks (.text ">")
      refine yields_named (yields_spanned (yields_map hname ?_))
      exact fun name hname c d _ _ => clean_of_none hname (by simp [attributeParts]) rfl rfl
    exact ReadsGiven.imp hyields fun _ _ _ ht hc => (ht hc).1
  rawElement := by
    have htracks := tracks_isIn s
    have hpushed : (Peg.push rawElementName).Yields Forward (Cursor.IsIn s) fun name => '\r' ∉ name.toList := by
      refine htracks.yields (reads_push (spellsRaw_rawElementName.imp ?_))
      rintro _ _ _ ⟨_, hname⟩ _ _
      exact hname.notMem (by decide)
    have hopener : (Peg.slice (Prod.mk <$> (.text "<" *> .push rawElementName) <*> (attributes <* .text ">"))
        : Grammar (Slice × String × List Token)).Yields Forward (Cursor.IsIn s) fun r => '\r' ∉ r.2.1.toList ∧
          ∀ t ∈ r.2.2, t.isText = false ∧ Text.StopsClean s t.span.stop :=
      yields_slice (yields_seq (yields_map (yields_seqRight htracks _ hpushed)
        fun _ hname _ hts _ _ _ _ => ⟨hname, hts⟩)
        (yields_seqLeft (yields_attributes_stopsClean s) htracks _))
    have hyields : rawElement.Yields Forward (Cursor.IsIn s) (Token.Clean s) := by
      refine yields_named (yields_spanned (yields_seq (yields_seq (yields_map (yields_named hopener) ?_)
        (htracks.yields_true _)) (htracks.yields_true _)))
      rintro r ⟨hname, hattributes⟩ _ _ _ _ _ _ _ _
      refine ⟨by simp [nameParts], ?_, hattributes, notMem_of_not_opensBlock rfl⟩
      rintro _ ⟨⟩
      exact hname
    exact ReadsGiven.imp hyields fun _ _ _ ht hc => (ht hc).1
  attr := by
    have htracks := tracks_isIn s
    have hof {rule : Rule} {style : AttributeStyle} {parts : Grammar (List Token × List Token)}
        (hparts : parts.Yields Forward (Cursor.IsIn s) fun part => ∀ t ∈ part.1, t.IsNamePart) :
        (attributeOf rule style parts).Yields Forward (Cursor.IsIn s) (Token.Clean s) :=
      yields_named (yields_spanned (yields_map hparts
        fun _ hname _ _ _ _ => clean_of_none hname (by simp [attributeParts]) rfl rfl))
    have hname := yields_attributeName_isNamePart s
    have hhead : attributeHead.Yields Forward (Cursor.IsIn s) fun ts => ∀ t ∈ ts, t.IsNamePart :=
      yields_seqLeft (yields_seqLeft (yields_seqLeft hname htracks _) htracks _) htracks _
    have hpair {p : Grammar (List Token)} (value : Grammar (List Token))
        (hp : p.Yields Forward (Cursor.IsIn s) fun ts => ∀ t ∈ ts, t.IsNamePart) :
        (Prod.mk <$> p <*> value).Yields Forward (Cursor.IsIn s) fun part => ∀ t ∈ part.1, t.IsNamePart :=
      yields_seq (yields_map hp fun _ hname _ _ => hname) (htracks.yields_true value)
    have hquoted (rule valueRule textRule : Rule) (q : Quote) :
        (attributeQuoted rule valueRule textRule q).Yields Forward (Cursor.IsIn s) (Token.Clean s) :=
      hof (hpair _ (yields_seqLeft hhead htracks _))
    have hyields : attr.Yields Forward (Cursor.IsIn s) (Token.Clean s) :=
      yields_orElse (hquoted _ _ _ _) (yields_orElse (hquoted _ _ _ _)
        (yields_orElse (hof (hpair _ hhead)) (hof (yields_map hname fun _ hname => hname))))
    exact ReadsGiven.imp hyields fun _ _ _ ht hc => (ht hc).1

end Grammar

/-- **The tokens of a template are clean**, wherever they stand. -/
theorem clean_of_ofSource {source : String} {tokens : List Token} (h : Token.ofSource source = .ok tokens) :
    ∀ t ∈ tokens, t.Everywhere (Token.Clean source.toList) :=
  (Grammar.cleanRules source.toList).ofSource (Peg.forward_readNested _) ⟨[], rfl, rfl⟩ h

end LiquidTemplate
