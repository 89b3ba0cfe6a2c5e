import LiquidTemplate.Grammar.Template
import LiquidTemplate.Proofs.Nesting.Derivation
import LiquidTemplate.Proofs.Peg.Read

/-!
# Where tokens stand

The range of a token is exactly what its rule matched, and it is never empty. The name, the attributes and
the value of a token lie inside of its range, one part after the other, and so do their own parts
(`Token.Placed`). One lemma for each rule of the grammar says so of the tokens that the rule gives.
-/

namespace LiquidTemplate

/-! ## Ranges in order -/

namespace Span

def InOrder : (start stop : Nat) → List Span → Prop
  | start, stop, [] => start ≤ stop
  | start, stop, s :: ss => start ≤ s.start ∧ s.start ≤ s.stop ∧ InOrder s.stop stop ss

namespace InOrder

variable {a b c : Nat} {s : Span} {ss ts : List Span}

theorem le (h : InOrder a b ss) : a ≤ b := by
  induction ss generalizing a with
  | nil => exact h
  | cons s ss ih =>
    obtain ⟨hstart, hrange, hrest⟩ := h
    have := ih hrest
    omega

theorem widen {a' b' : Nat} (h : InOrder a b ss) (ha : a' ≤ a) (hb : b ≤ b') : InOrder a' b' ss := by
  induction ss generalizing a a' with
  | nil => exact Nat.le_trans ha (Nat.le_trans h hb)
  | cons s ss ih =>
    obtain ⟨hstart, hrange, hrest⟩ := h
    exact ⟨Nat.le_trans ha hstart, hrange, ih hrest (Nat.le_refl _)⟩

theorem append (h : InOrder a b ss) (h' : InOrder b c ts) : InOrder a c (ss ++ ts) := by
  induction ss generalizing a with
  | nil => exact h'.widen h (Nat.le_refl _)
  | cons s ss ih =>
    obtain ⟨hstart, hrange, hrest⟩ := h
    exact ⟨hstart, hrange, ih hrest⟩

theorem split (h : InOrder a c (ss ++ ts)) : ∃ b, InOrder a b ss ∧ InOrder b c ts := by
  induction ss generalizing a with
  | nil => exact ⟨a, Nat.le_refl _, h⟩
  | cons s ss ih =>
    obtain ⟨hstart, hrange, hrest⟩ := h
    obtain ⟨b, hss, hts⟩ := ih hrest
    exact ⟨b, ⟨hstart, hrange, hss⟩, hts⟩

theorem bounds (h : InOrder a b ss) (hs : s ∈ ss) : a ≤ s.start ∧ s.start ≤ s.stop ∧ s.stop ≤ b := by
  induction ss generalizing a with
  | nil => cases hs
  | cons t ss ih =>
    obtain ⟨hstart, hrange, hrest⟩ := h
    rcases List.mem_cons.1 hs with rfl | hs
    · exact ⟨hstart, hrange, hrest.le⟩
    · have := ih hrest hs
      omega

theorem pairwise (h : InOrder a b ss) : ss.Pairwise fun s t => s.stop ≤ t.start := by
  induction ss generalizing a with
  | nil => exact .nil
  | cons s ss ih =>
    obtain ⟨hstart, hrange, hrest⟩ := h
    exact .cons (fun t ht => (hrest.bounds ht).1) (ih hrest)

end InOrder

end Span

/-! ## Places of tokens -/

namespace Token

/-- A token covers something, and its parts stand one after the other inside of it, and so on for theirs. -/
inductive Placed : Token → Prop where
  | mk {t : Token} (nonempty : t.span.start < t.span.stop)
      (name : Span.InOrder t.span.start t.span.stop (t.nameParts.map span))
      (attributes : Span.InOrder t.span.start t.span.stop (t.attributeParts.map span))
      (value : Span.InOrder t.span.start t.span.stop (t.valueParts.map span))
      (nameParts : ∀ u ∈ t.nameParts, u.Placed) (attributeParts : ∀ u ∈ t.attributeParts, u.Placed)
      (valueParts : ∀ u ∈ t.valueParts, u.Placed) : t.Placed

/-- Tokens one after the other between two offsets, each with its parts in their places. -/
def Inside (start stop : Nat) (ts : List Token) : Prop :=
  Span.InOrder start stop (ts.map span) ∧ ∀ t ∈ ts, t.Placed

/-- A token that covers exactly what is between two offsets. -/
def Occupies (t : Token) (start stop : Nat) : Prop :=
  t.span = ⟨start, stop⟩ ∧ t.Placed

section

variable {a b c : Nat} {t : Token} {ts us : List Token}

theorem Placed.nonempty' (h : t.Placed) : t.span.start < t.span.stop := by
  cases h
  assumption

theorem inside_nil (h : a ≤ b) : Inside a b [] :=
  ⟨h, by simp⟩

theorem Inside.widen {a' b' : Nat} (h : Inside a b ts) (ha : a' ≤ a) (hb : b ≤ b') : Inside a' b' ts :=
  ⟨h.1.widen ha hb, h.2⟩

theorem Inside.cons (ha : a ≤ t.span.start) (hb : t.span.stop ≤ b) (ht : t.Placed) (h : Inside b c ts) :
    Inside a c (t :: ts) := by
  refine ⟨⟨ha, Nat.le_of_lt ht.nonempty', h.1.widen hb (Nat.le_refl _)⟩, ?_⟩
  intro u hu
  rcases List.mem_cons.1 hu with rfl | hu
  · exact ht
  · exact h.2 u hu

theorem Inside.uncons (h : Inside a b (t :: ts)) :
    a ≤ t.span.start ∧ t.span.start < t.span.stop ∧ t.Placed ∧ Inside t.span.stop b ts := by
  obtain ⟨⟨hstart, -, hrest⟩, hplaced⟩ := h
  obtain ⟨ht, hts⟩ := List.forall_mem_cons.1 hplaced
  exact ⟨hstart, ht.nonempty', ht, hrest, hts⟩

theorem Inside.split (h : Inside a b (ts ++ us)) : ∃ m, Inside a m ts ∧ Inside m b us := by
  obtain ⟨horder, hplaced⟩ := h
  rw [List.map_append] at horder
  obtain ⟨m, hts, hus⟩ := horder.split
  obtain ⟨hplaced, hplaced'⟩ := List.forall_mem_append.1 hplaced
  exact ⟨m, ⟨hts, hplaced⟩, hus, hplaced'⟩

theorem Inside.between {u : Token} (h : Inside a b (t :: (ts ++ [u]))) :
    a ≤ t.span.start ∧ t.span.start < t.span.stop ∧ t.Placed ∧ Inside t.span.stop u.span.start ts ∧
      u.span.start < u.span.stop ∧ u.span.stop ≤ b := by
  obtain ⟨hstart, hlt, ht, hrest⟩ := h.uncons
  obtain ⟨m, hts, hu⟩ := hrest.split
  obtain ⟨hm, hlt', -, hend⟩ := hu.uncons
  exact ⟨hstart, hlt, ht, hts.widen (Nat.le_refl _) hm, hlt', hend.1⟩

theorem Occupies.of_parts (hspan : t.span = ⟨a, b⟩) (hlt : a < b) (hname : Inside a b t.nameParts)
    (hattributes : Inside a b t.attributeParts) (hvalue : Inside a b t.valueParts) : t.Occupies a b := by
  refine ⟨hspan, ?_, ?_, ?_, ?_, hname.2, hattributes.2, hvalue.2⟩ <;> rw [hspan]
  · exact hlt
  · exact hname.1
  · exact hattributes.1
  · exact hvalue.1

theorem Occupies.within (h : t.Occupies a b) : a ≤ t.span.start ∧ t.span.stop ≤ b ∧ t.Placed := by
  obtain ⟨hspan, ht⟩ := h
  simp [hspan, ht]

theorem Occupies.lt (h : t.Occupies a b) : a < b := by
  obtain ⟨hspan, ht⟩ := h
  simpa [hspan] using ht.nonempty'

theorem occupies_of_parts_nil (hspan : t.span = ⟨a, b⟩) (hlt : a < b)
    (hparts : t.nameParts = [] ∧ t.attributeParts = [] ∧ t.valueParts = []) : t.Occupies a b := by
  obtain ⟨hname, hattributes, hvalue⟩ := hparts
  have hle : a ≤ b := Nat.le_of_lt hlt
  refine .of_parts hspan hlt ?_ ?_ ?_
  · simpa [hname] using inside_nil hle
  · simpa [hattributes] using inside_nil hle
  · simpa [hvalue] using inside_nil hle

theorem occupies_ofOpening {name attributes : List Token} {slash : Bool} (hlt : a < b) (hname : Inside a b name)
    (hattributes : Inside a b attributes) : (ofOpening ⟨a, b⟩ name attributes slash).Occupies a b := by
  have hnil : Inside a b [] := inside_nil (Nat.le_of_lt hlt)
  have hopen : (openTag ⟨a, b⟩ name attributes).Occupies a b := .of_parts rfl hlt hname hattributes hnil
  unfold ofOpening
  split
  · exact .of_parts rfl hlt hname hattributes hnil
  · split
    · split
      · exact .of_parts rfl hlt hnil hattributes hnil
      · exact hopen
    · exact hopen

end

end Token

/-! ## Rules -/

namespace Grammar

open Peg Token

theorem reads_sliced {α : Type} {p : Grammar (Slice → α)} {P : Cursor → α → Cursor → Prop}
    (h : p.Reads fun c k d => P c (k (c.sliceTo d)) d) : (sliced p).Reads P :=
  reads_map (reads_slice h)

theorem reads_spanned {α : Type} {p : Grammar (Span → α)} {P : Cursor → α → Cursor → Prop}
    (h : p.Reads fun c k d => P c (k ⟨c.offset, d.offset⟩) d) : (spanned p).Reads P :=
  reads_map (reads_slice h)

theorem reads_delimited {α : Type} {opening : String} (hopening : opening.toList ≠ []) (closing : String)
    (inner : Grammar α) : (delimited opening closing inner).Reads fun c x d =>
      x.delimiter.span = ⟨c.offset, d.offset⟩ ∧ c.offset < d.offset := by
  refine reads_sliced ?_
  refine ReadsGiven.and ?_ ?_
  · refine reads_seq (reads_seq (reads_map ?_) (reads_true _)) (reads_true _)
    exact (reads_true _).imp fun c x d _ y e _ z f _ => rfl
  · exact consumes_seq (consumes_seq (consumes_map (consumes_seqLeft (consumes_seqRight (consumes_text hopening)))))

theorem reads_spanned_leaf {p : Grammar (Span → Token)} (hconsumes : p.Consumes)
    (hleaf : p.Reads fun _ k _ => ∀ span, (k span).span = span ∧
      (k span).nameParts = [] ∧ (k span).attributeParts = [] ∧ (k span).valueParts = []) :
    (spanned p).Reads fun c t d => t.Occupies c.offset d.offset := by
  refine reads_spanned ((hconsumes.and hleaf).imp ?_)
  rintro c k d ⟨hlt, hk⟩
  obtain ⟨hspan, hparts⟩ := hk ⟨c.offset, d.offset⟩
  exact occupies_of_parts_nil hspan hlt hparts

/-- A token without parts whose rule reads something between two marks. -/
theorem reads_enclosed {α β γ : Type} {rule : Rule} {opening : Grammar β} {inner : Grammar α} {closing : Grammar γ}
    {k : α → Span → Token} (hopening : opening.Consumes)
    (hleaf : ∀ x span, (k x span).span = span ∧
      (k x span).nameParts = [] ∧ (k x span).attributeParts = [] ∧ (k x span).valueParts = []) :
    (named rule (spanned (k <$> (opening *> inner <* closing)))).Reads fun c t d => t.Occupies c.offset d.offset := by
  have hconsumes := consumes_seqLeft (q := closing) (consumes_seqRight (q := inner) hopening)
  exact reads_named (reads_spanned_leaf (consumes_map hconsumes)
    (reads_map ((reads_true _).imp fun _ x _ _ => hleaf x)))

theorem reads_textOf {α : Type} {p : Grammar α} (hconsumes : p.Consumes) :
    ((fun m => Token.text m.1) <$> Peg.slice p).Reads fun c t d => t.Occupies c.offset d.offset :=
  reads_map (reads_slice (hconsumes.imp fun _ _ _ hlt => occupies_of_parts_nil rfl hlt ⟨rfl, rfl, rfl⟩))

theorem reads_many_inside {p : Grammar Token}
    (hp : p.Reads fun c t d => c.offset ≤ t.span.start ∧ t.span.stop ≤ d.offset ∧ t.Placed) :
    (Peg.many p).Reads fun c ts d => Inside c.offset d.offset ts :=
  reads_many hp (fun _ => inside_nil (Nat.le_refl _)) fun _ _ _ _ _ ⟨ha, hb, ht⟩ hts => hts.cons ha hb ht

theorem reads_many1_inside {p : Grammar Token} (hp : p.Reads fun c t d => t.Occupies c.offset d.offset) :
    (many1 p).Reads fun c ts d => c.offset < d.offset ∧ Inside c.offset d.offset ts := by
  refine reads_seq (reads_map (hp.imp ?_)) (reads_many_inside (hp.imp fun _ _ _ ht => ht.within))
  intro c t d ht ts e hts
  obtain ⟨ha, hb, hplaced⟩ := ht.within
  exact ⟨Nat.lt_of_lt_of_le ht.lt hts.1.le, hts.cons ha hb hplaced⟩

theorem reads_inside_seqLeft {α : Type} {p : Grammar (List Token)} (q : Grammar α)
    (hp : p.Reads fun c ts d => Inside c.offset d.offset ts) :
    (p <* q).Reads fun c ts d => Inside c.offset d.offset ts :=
  reads_seqLeft (hp.imp fun _ _ _ hts _ _ hle => hts.widen (Nat.le_refl _) hle) (reads_offset_le q)

theorem reads_filled_seqLeft {α : Type} {p : Grammar (List Token)} (q : Grammar α)
    (hp : p.Reads fun c ts d => c.offset < d.offset ∧ Inside c.offset d.offset ts) :
    (p <* q).Reads fun c ts d => c.offset < d.offset ∧ Inside c.offset d.offset ts :=
  ReadsGiven.and (consumes_seqLeft (hp.imp fun _ _ _ h => h.1)) (reads_inside_seqLeft q (hp.imp fun _ _ _ h => h.2))

/-! ### Liquid -/

theorem reads_drop : drop.Reads fun c t d => t.Occupies c.offset d.offset := by
  refine reads_named (reads_map ((reads_delimited (by simp [dropOpen]) _ _).imp ?_))
  rintro c x d ⟨hspan, hlt⟩
  exact occupies_of_parts_nil hspan hlt ⟨rfl, rfl, rfl⟩

theorem reads_rawTag : rawTag.Reads fun c t d => t.Occupies c.offset d.offset := by
  refine reads_named (reads_spanned_leaf ?_ ?_)
  · refine consumes_seq (consumes_seq (consumes_map (reads_named ?_)))
    exact (reads_delimited (by simp [tagOpen]) _ _).imp fun _ _ _ h => h.2
  · refine reads_seq (reads_seq (reads_map ?_) (reads_true _)) (reads_true _)
    exact (reads_true _).imp fun _ _ _ _ _ _ _ _ _ _ _ => ⟨rfl, rfl, rfl, rfl⟩

theorem reads_liquidTag : liquidTag.Reads fun c t d => t.Occupies c.offset d.offset := by
  have htag {α : Type} (inner : Grammar α) := @reads_delimited α tagOpen (by simp [tagOpen]) tagClose inner
  refine reads_orElse reads_rawTag (reads_orElse ?_ (reads_orElse ?_ ?_)) <;>
  · refine reads_named (reads_map ((htag _).imp ?_))
    rintro c x d ⟨hspan, hlt⟩
    exact occupies_of_parts_nil hspan hlt ⟨rfl, rfl, rfl⟩

theorem reads_liquid : liquid.Reads fun c t d => t.Occupies c.offset d.offset :=
  reads_orElse reads_liquidTag reads_drop

/-! ### Attributes -/

theorem reads_textWithout (rule : Rule) (excluded : Char → Bool) :
    (textWithout rule excluded).Reads fun c t d => t.Occupies c.offset d.offset :=
  reads_atom (reads_textOf (consumes_many1 (consumes_ap_right consumes_char)))

theorem reads_attributeName : attributeName.Reads fun c ts d => c.offset < d.offset ∧ Inside c.offset d.offset ts :=
  reads_named (reads_many1_inside (reads_orElse
    (reads_atom (reads_textOf (consumes_many1 (consumes_ap_right consumes_char)))) reads_drop))

theorem reads_attributeHead : attributeHead.Reads fun c ts d => c.offset < d.offset ∧ Inside c.offset d.offset ts :=
  reads_filled_seqLeft _ (reads_filled_seqLeft _ (reads_filled_seqLeft _ reads_attributeName))

theorem reads_attributeOf (rule : Rule) (style : AttributeStyle) {parts : Grammar (List Token × List Token)}
    (h : parts.Reads fun c part d =>
      c.offset < d.offset ∧ Inside c.offset d.offset part.1 ∧ Inside c.offset d.offset part.2) :
    (attributeOf rule style parts).Reads fun c t d => t.Occupies c.offset d.offset := by
  refine reads_named (reads_spanned (reads_map (h.imp ?_)))
  rintro c part d ⟨hlt, hname, hvalue⟩
  exact .of_parts rfl hlt hname (inside_nil (Nat.le_of_lt hlt)) hvalue

theorem reads_parts {name value : Grammar (List Token)}
    (hname : name.Reads fun c ts d => c.offset < d.offset ∧ Inside c.offset d.offset ts)
    (hvalue : value.Reads fun c ts d => Inside c.offset d.offset ts) :
    (Prod.mk <$> name <*> value).Reads fun c part d =>
      c.offset < d.offset ∧ Inside c.offset d.offset part.1 ∧ Inside c.offset d.offset part.2 := by
  refine reads_seq (reads_map (hname.imp ?_)) hvalue
  rintro c ts d ⟨hlt, hts⟩ us e hus
  have hle := hus.1.le
  exact ⟨Nat.lt_of_lt_of_le hlt hle, hts.widen (Nat.le_refl _) hle, hus.widen (Nat.le_of_lt hlt) (Nat.le_refl _)⟩

theorem reads_attributeQuoted (rule valueRule textRule : Rule) (q : Quote) :
    (attributeQuoted rule valueRule textRule q).Reads fun c t d => t.Occupies c.offset d.offset := by
  have hpart := reads_orElse reads_liquid (reads_textWithout textRule (· == q.char))
  have hvalue := reads_many_inside (hpart.imp fun _ _ _ ht => ht.within)
  exact reads_attributeOf _ _ (reads_parts (reads_filled_seqLeft _ reads_attributeHead)
    (reads_inside_seqLeft _ (reads_named hvalue)))

theorem reads_attr : attr.Reads fun c t d => t.Occupies c.offset d.offset := by
  refine reads_orElse (reads_attributeQuoted _ _ _ _)
    (reads_orElse (reads_attributeQuoted _ _ _ _) (reads_orElse ?_ ?_))
  · have hvalue := reads_many1_inside (reads_orElse reads_drop (reads_textWithout .attrTextUnquoted endsUnquoted))
    exact reads_attributeOf _ _ (reads_parts reads_attributeHead (reads_named (hvalue.imp fun _ _ _ h => h.2)))
  · refine reads_attributeOf _ _ (reads_map (reads_attributeName.imp ?_))
    rintro c ts d ⟨hlt, hts⟩
    exact ⟨hlt, hts, inside_nil (Nat.le_of_lt hlt)⟩

theorem reads_attributes : attributes.Reads fun c ts d => Inside c.offset d.offset ts := by
  refine reads_inside_seqLeft _ (reads_many_inside ?_)
  refine reads_seqRight ((reads_offset_le blanks).imp ?_) (reads_orElse reads_liquidTag reads_attr)
  intro c _ d hle t e ht
  obtain ⟨ha, hb, hplaced⟩ := ht.within
  exact ⟨Nat.le_trans hle ha, hb, hplaced⟩

/-! ### HTML -/

theorem reads_comment : comment.Reads fun c t d => t.Occupies c.offset d.offset :=
  reads_enclosed (consumes_text (by simp)) fun _ _ => ⟨rfl, rfl, rfl, rfl⟩

theorem reads_doctype : doctype.Reads fun c t d => t.Occupies c.offset d.offset :=
  reads_enclosed (consumes_seqRight (consumes_text (by simp))) fun _ _ => ⟨rfl, rfl, rfl, rfl⟩

theorem reads_elementName : elementName.Reads fun c ts d => c.offset < d.offset ∧ Inside c.offset d.offset ts :=
  reads_named (reads_many1_inside (reads_orElse
    (reads_atom (reads_textOf (consumes_many1 consumes_char))) reads_drop))

theorem reads_closeTag : closeTag.Reads fun c t d => t.Occupies c.offset d.offset := by
  refine reads_named (reads_spanned (reads_map ?_))
  refine reads_seqLeft (reads_seqLeft (reads_seqRight ((reads_offset_le _).imp ?_) reads_elementName)
    (reads_offset_le _)) (reads_offset_le _)
  rintro c - d hd name e ⟨hlt, hname⟩ - f hf - g hg
  have hname' : Inside c.offset g.offset name := hname.widen hd (Nat.le_trans hf hg)
  have hlt' : c.offset < g.offset := by omega
  exact .of_parts rfl hlt' hname' (inside_nil (Nat.le_of_lt hlt')) (inside_nil (Nat.le_of_lt hlt'))

theorem reads_openTag : openTag.Reads fun c t d => t.Occupies c.offset d.offset := by
  refine reads_named (reads_spanned (reads_seq (reads_seq (reads_map
    (reads_seqRight ((reads_offset_le _).imp ?_) reads_elementName)) reads_attributes) (reads_offset_le _)))
  rintro c - d hd name e ⟨hlt, hname⟩ attributes f hattributes slash g hg
  have hf := hattributes.1.le
  exact occupies_ofOpening (by omega) (hname.widen hd (Nat.le_trans hf hg)) (hattributes.widen (by omega) hg)

theorem reads_rawElement : rawElement.Reads fun c t d => t.Occupies c.offset d.offset := by
  have hname : (.text "<" *> .push rawElementName : Grammar String).Consumes :=
    consumes_seqRight (consumes_text (by simp))
  have hopener : (Peg.slice (Prod.mk <$> (.text "<" *> .push rawElementName) <*> (attributes <* .text ">"))
      : Grammar (Slice × String × List Token)).Reads
      fun c r d => c.offset < d.offset ∧ Inside c.offset d.offset r.2.2 := by
    refine reads_slice (reads_seq (reads_map (hname.imp ?_)) (reads_inside_seqLeft _ reads_attributes))
    exact fun c name d hlt ts e hts => ⟨Nat.lt_of_lt_of_le hlt hts.1.le, hts.widen (Nat.le_of_lt hlt) (Nat.le_refl _)⟩
  refine reads_named (reads_spanned (reads_seq (reads_seq (reads_map ((reads_named hopener).imp ?_))
    (reads_offset_le _)) (reads_offset_le _)))
  rintro c opener d ⟨hlt, hattributes⟩ body e he closer f hf
  have hlt' : c.offset < f.offset := by omega
  exact .of_parts rfl hlt' (inside_nil (Nat.le_of_lt hlt')) (hattributes.widen (Nat.le_refl _) (Nat.le_trans he hf))
    (inside_nil (Nat.le_of_lt hlt'))

theorem reads_html : html.Reads fun c t d => t.Occupies c.offset d.offset :=
  reads_orElse reads_comment (reads_orElse reads_doctype
    (reads_orElse reads_rawElement (reads_orElse reads_closeTag reads_openTag)))

/-! ### Text and documents -/

theorem consumes_textChar : textChar.Consumes :=
  consumes_ap_right consumes_char

theorem reads_textRun : textRun.Reads fun c t d => t.Occupies c.offset d.offset :=
  reads_atom (reads_textOf (consumes_seqRight (consumes_many1 consumes_textChar)))

theorem reads_frontMatter : frontMatter.Reads fun c t d => t.Occupies c.offset d.offset :=
  reads_enclosed (consumes_text (by simp)) fun _ _ => ⟨rfl, rfl, rfl, rfl⟩

end Grammar

end LiquidTemplate
