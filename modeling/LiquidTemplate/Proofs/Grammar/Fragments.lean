import LiquidTemplate.Proofs.Nesting.Seamless
import LiquidTemplate.Proofs.Nesting.Sound
import LiquidTemplate.Proofs.Text.Slices

/-!
# How names and values are written

The fragments of a name follow each other without a gap, and so do those of a value. Between the name of an attribute
and its value there is a sign with blanks around it, and then the mark that opens the value; right after the value
stands the mark that closes it (`Assigns`). A value of texts only has no character that ends it and starts nothing of
Liquid (`Text.IsPlain`). `Token.Fragmented` collects this, and it holds of all tokens of a template
(`fragmented_of_ofSource`).
-/

namespace LiquidTemplate

/-! ## Characters between cursors -/

/-- From a cursor over some characters to another one. -/
def Cursor.Over (c : Cursor) (w : List Char) (d : Cursor) : Prop :=
  c.rest = w ++ d.rest ∧ d.offset = c.offset + Text.byteSize w

namespace Cursor.Over

variable {c d e : Cursor} {v w s : List Char}

theorem refl (c : Cursor) : c.Over [] c :=
  ⟨rfl, rfl⟩

theorem trans (h : c.Over v d) (h' : d.Over w e) : c.Over (v ++ w) e := by
  obtain ⟨hrest, hoffset⟩ := h
  obtain ⟨hrest', hoffset'⟩ := h'
  refine ⟨by rw [hrest, hrest', List.append_assoc], ?_⟩
  rw [hoffset', hoffset, Text.byteSize_append, Nat.add_assoc]

theorem isIn (h : c.Over w d) (hc : c.IsIn s) : d.IsIn s :=
  hc.steps ⟨w, h⟩

theorem charsTo (h : c.Over w d) : c.charsTo d = w := by
  simp [Cursor.charsTo, h.1]

theorem sliceChars (h : c.Over w d) (hc : c.IsIn s) : Text.sliceChars s ⟨c.offset, d.offset⟩ = w := by
  obtain ⟨hrest, hoffset⟩ := h
  obtain ⟨a, rfl, ha⟩ := hc
  rw [hoffset, ← ha, hrest, Text.sliceChars_append]

end Cursor.Over

/-! ## Slices in a row -/

theorem Text.IsBoundary.sliceChars_append {s : List Char} {i j k : Nat} (hi : IsBoundary s i) (hj : IsBoundary s j)
    (hk : IsBoundary s k) (hij : i ≤ j) (hjk : j ≤ k) :
    sliceChars s ⟨i, j⟩ ++ sliceChars s ⟨j, k⟩ = sliceChars s ⟨i, k⟩ := by
  obtain ⟨a, _, hs, rfl⟩ := hi
  obtain ⟨_, _, hs', rfl⟩ := hj
  obtain ⟨_, r, rfl, rfl⟩ := hk
  obtain ⟨w, rfl⟩ := prefix_of_byteSize_le ⟨_, hs'.symm⟩ (List.prefix_append _ r) hjk
  obtain ⟨v, rfl⟩ := prefix_of_byteSize_le ⟨_, hs.symm⟩
    ((List.prefix_append _ w).trans (List.prefix_append _ r)) hij
  have hleft : sliceChars (a ++ v ++ w ++ r) ⟨byteSize a, byteSize (a ++ v)⟩ = v := by
    rw [byteSize_append, List.append_assoc, List.append_assoc, Text.sliceChars_append]
  have hright : sliceChars (a ++ v ++ w ++ r) ⟨byteSize (a ++ v), byteSize (a ++ v ++ w)⟩ = w := by
    rw [byteSize_append (a ++ v), List.append_assoc, Text.sliceChars_append]
  have hboth : sliceChars (a ++ v ++ w ++ r) ⟨byteSize a, byteSize (a ++ v ++ w)⟩ = v ++ w := by
    rw [List.append_assoc a, byteSize_append, List.append_assoc, Text.sliceChars_append]
  rw [hleft, hright, hboth]

theorem Gapless.isBoundary {s : List Char} {a b : Nat} {ss : List Span} (h : Gapless a ss b)
    (ha : Text.IsBoundary s a) (hss : ∀ r ∈ ss, r.EndsIn (Text.IsBoundary s)) : Text.IsBoundary s b := by
  induction ss generalizing a with
  | nil =>
    obtain rfl : a = b := h
    exact ha
  | cons r ss ih =>
    obtain ⟨hr, hss⟩ := List.forall_mem_cons.1 hss
    exact ih h.2.2 hr.2 hss

/-- What ranges without gaps hold is all that is between their two ends. -/
theorem Gapless.flatMap_sliceChars {s : List Char} {a b : Nat} {ss : List Span} (h : Gapless a ss b)
    (hss : ∀ r ∈ ss, r.EndsIn (Text.IsBoundary s)) : ss.flatMap (Text.sliceChars s) = Text.sliceChars s ⟨a, b⟩ := by
  induction ss generalizing a with
  | nil =>
    obtain rfl : a = b := h
    exact (Text.sliceChars_of_le s (Nat.le_refl a)).symm
  | cons r ss ih =>
    obtain ⟨rfl, hle, hrest⟩ := h
    obtain ⟨hr, hss⟩ := List.forall_mem_cons.1 hss
    rw [List.flatMap_cons, ih hrest hss]
    exact hr.1.sliceChars_append hr.2 (Gapless.isBoundary hrest hr.2 hss) hle (Gapless.le hrest)

/-! ## Texts without Liquid -/

namespace Text

def opensLiquid (cs : List Char) : Bool :=
  opensWith dropOpen cs || opensWith tagOpen cs

/-- Characters outside of a class, none of which starts Liquid where `rest` follows them. -/
def IsPlain (excluded : Char → Bool) (rest : List Char) : List Char → Prop
  | [] => True
  | x :: w => excluded x = false ∧ opensLiquid (x :: w ++ rest) = false ∧ IsPlain excluded rest w

variable {excluded : Char → Bool} {v w rest : List Char}

theorem opensWith_iff {s : String} : opensWith s w = true ↔ s.toList <+: w := by
  rw [opensWith, Option.isSome_iff_exists]
  constructor
  · rintro ⟨rest, hrest⟩
    exact ⟨rest, (stripStart?_eq_some_iff.1 hrest).symm⟩
  · rintro ⟨rest, rfl⟩
    exact ⟨rest, stripStart?_eq_some_iff.2 rfl⟩

theorem opensLiquid_append (h : opensLiquid (w ++ rest) = false) : opensLiquid w = false := by
  rw [opensLiquid, Bool.or_eq_false_iff, ← Bool.not_eq_true, ← Bool.not_eq_true, opensWith_iff, opensWith_iff] at h ⊢
  exact ⟨fun hopen => h.1 (hopen.trans (List.prefix_append w rest)),
    fun hopen => h.2 (hopen.trans (List.prefix_append w rest))⟩

theorem isPlain_append_iff :
    IsPlain excluded rest (v ++ w) ↔ IsPlain excluded (w ++ rest) v ∧ IsPlain excluded rest w := by
  induction v with
  | nil => simp [IsPlain]
  | cons x v ih => simp only [List.cons_append, IsPlain, ih, List.append_assoc, and_assoc]

namespace IsPlain

theorem allowed (h : IsPlain excluded rest w) : ∀ x ∈ w, excluded x = false := by
  induction w with
  | nil => simp
  | cons x w ih => exact List.forall_mem_cons.2 ⟨h.1, ih h.2.2⟩

theorem alone (h : IsPlain excluded rest w) : IsPlain excluded [] w := by
  induction w with
  | nil => trivial
  | cons x w ih =>
    refine ⟨h.1, ?_, ih h.2.2⟩
    rw [List.append_nil]
    exact opensLiquid_append h.2.1

theorem not_opensLiquid (h : IsPlain excluded rest (v ++ w)) (hw : w ≠ []) : opensLiquid w = false := by
  have hw' := (isPlain_append_iff.1 h).2
  cases w with
  | nil => exact absurd rfl hw
  | cons x w => exact opensLiquid_append hw'.2.1

theorem not_infix (h : IsPlain excluded rest w) : ¬ dropOpen.toList <:+: w ∧ ¬ tagOpen.toList <:+: w := by
  have hnone {s : String} (hs : s.toList ≠ []) (hopens : ∀ cs, opensWith s cs = true → opensLiquid cs = true) :
      ¬ s.toList <:+: w := by
    rintro ⟨u, v, rfl⟩
    rw [List.append_assoc] at h
    have hclosed := h.not_opensLiquid (by simp [hs])
    rw [hopens _ (opensWith_iff.2 (List.prefix_append _ v))] at hclosed
    cases hclosed
  exact ⟨hnone (by decide) (by simp +contextual [opensLiquid]), hnone (by decide) (by simp +contextual [opensLiquid])⟩

end IsPlain

end Text

/-! ## Attributes -/

namespace AttributeStyle

/-- What stands on both sides of a value. -/
def marks : AttributeStyle → List Char
  | quoted q => [q.char]
  | _ => []

/-- The characters that a text in a value cannot have. -/
def ends : AttributeStyle → Char → Bool
  | quoted q => (· == q.char)
  | _ => Grammar.endsUnquoted

end AttributeStyle

/-- An attribute over a range: its name, a sign with blanks around it, and between marks its value, which goes from
`start` to `stop`. -/
structure Assigns (source : List Char) (span : Span) (marks : List Char) (name value : List Span) (start stop : Nat) :
    Prop where
  sign : ∃ nameStop before after, Gapless span.start name nameStop ∧
    (before.all Text.isBlank = true ∧ after.all Text.isBlank = true) ∧
    Text.sliceChars source ⟨nameStop, start⟩ = before ++ '=' :: (after ++ marks)
  value : Gapless start value stop
  closed : Text.sliceChars source ⟨stop, span.stop⟩ = marks
  stops : span.stop = stop + Text.byteSize marks

/-- Fragments of a value from one offset to another. If they are texts only, then nothing in them ends the value or
starts Liquid. -/
structure Token.IsValue (source : List Char) (style : AttributeStyle) (value : List Token) (start stop : Nat) :
    Prop where
  written : value.all isText = true → String.join (value.map written) = Text.slice source ⟨start, stop⟩
  plain : value.all isText = true → Text.IsPlain style.ends [] (Text.sliceChars source ⟨start, stop⟩)

/-- The fragments of a token follow each other, and an attribute is written as an assignment. -/
structure Token.Fragmented (source : List Char) (t : Token) : Prop where
  name : ∃ start stop, Gapless start (t.nameParts.map span) stop
  assigns : ∀ span style name value, t = .attr span style name value → style ≠ .bare →
    ∃ start stop, Assigns source span style.marks (name.map Token.span) (value.map Token.span) start stop ∧
      IsValue source style value start stop

namespace Grammar

open Peg Token

/-! ## Fragments -/

theorem reads_many_gapless {p : Grammar Token} (hp : p.Reads fun c t d => t.Occupies c.offset d.offset) :
    (Peg.many p).Reads fun c ts d => Gapless c.offset (ts.map Token.span) d.offset := by
  refine reads_many hp (fun _ => rfl) ?_
  intro c t d ts e ht hts
  have hspan : t.span = ⟨c.offset, d.offset⟩ := ht.1
  rw [List.map_cons, hspan]
  exact ⟨rfl, Nat.le_of_lt ht.lt, hts⟩

theorem reads_many1_gapless {p : Grammar Token} (hp : p.Reads fun c t d => t.Occupies c.offset d.offset) :
    (many1 p).Reads fun c ts d => Gapless c.offset (ts.map Token.span) d.offset := by
  refine reads_seq (reads_map (hp.imp ?_)) (reads_many_gapless hp)
  intro c t d ht ts e hts
  have hspan : t.span = ⟨c.offset, d.offset⟩ := ht.1
  rw [List.map_cons, hspan]
  exact ⟨rfl, Nat.le_of_lt ht.lt, hts⟩

theorem gapless_attributeName :
    attributeName.Reads fun c ts d => Gapless c.offset (ts.map Token.span) d.offset :=
  reads_named (reads_many1_gapless (reads_orElse
    (reads_atom (reads_textOf (consumes_many1 (consumes_ap_right consumes_char)))) reads_drop))

theorem gapless_elementName :
    elementName.Reads fun c ts d => Gapless c.offset (ts.map Token.span) d.offset :=
  reads_named (reads_many1_gapless (reads_orElse (reads_atom (reads_textOf (consumes_many1 consumes_char))) reads_drop))

theorem over_blanks : blanks.Reads fun c _ d => ∃ w, c.Over w d ∧ w.all Text.isBlank = true := by
  refine reads_blanks.imp ?_
  rintro c - d ⟨hrest, hoffset⟩
  refine ⟨c.rest.takeWhile Text.isBlank, ⟨?_, hoffset⟩, List.all_takeWhile⟩
  rw [hrest, List.takeWhile_append_dropWhile]

theorem over_text {s : String} : (Peg.text s : Grammar Unit).Reads fun c _ d => c.Over s.toList d :=
  reads_text fun _ _ hrest hoffset => ⟨hrest, hoffset⟩

theorem over_mark (q : Quote) : (Peg.char (· == q.char) : Grammar Char).Reads fun c _ d => c.Over [q.char] d := by
  refine reads_char fun c d x hrest hoffset hx => ?_
  rw [beq_iff_eq.1 hx] at hrest hoffset
  exact ⟨hrest, by simpa [Text.byteSize] using hoffset⟩

theorem over_attributeHead : attributeHead.Reads fun c ts e => ∃ d before after, c.StepsTo d ∧
    Gapless c.offset (ts.map Token.span) d.offset ∧
    (before.all Text.isBlank = true ∧ after.all Text.isBlank = true) ∧ d.Over (before ++ '=' :: after) e := by
  refine reads_seqLeft (reads_seqLeft (reads_seqLeft (((reads_stepsTo _).and gapless_attributeName).imp ?_)
    over_blanks) over_text) over_blanks
  rintro c ts d ⟨hsteps, hname⟩ - e ⟨before, hbefore, hblank⟩ - f hsign - g ⟨after, hafter, hblank'⟩
  refine ⟨d, before, after, hsteps, hname, ⟨hblank, hblank'⟩, ?_⟩
  have hover := (hbefore.trans hsign).trans hafter
  rwa [List.append_assoc] at hover

/-! ## Texts in values -/

theorem isSome_read_liquidStart {recur : Cursor → Option (Expression × Cursor)} {c : Cursor} :
    (liquidStart.read recur c).isSome = Text.opensLiquid c.rest := by
  simp only [liquidStart, read_orElse, Option.isSome_or, isSome_read_text, Text.opensLiquid]

theorem reads_plainChar (excluded : Char → Bool) :
    (Peg.notAhead liquidStart *> .char (! excluded ·) : Grammar Char).Reads fun c x d =>
      c.Over [x] d ∧ Text.IsPlain excluded d.rest [x] := by
  refine reads_seqRight (Q := fun c x d => c.Over [x] d ∧ excluded x = false) (reads_notAhead ?_) (reads_char ?_)
  · rintro recur c hnone x d ⟨hover, hx⟩
    have hclosed : Text.opensLiquid c.rest = false := by
      rw [← @isSome_read_liquidStart recur, hnone, Option.isSome_none]
    rw [hover.1] at hclosed
    exact ⟨hover, hx, hclosed, trivial⟩
  · intro c d x hrest hoffset hx
    exact ⟨⟨hrest, by simpa [Text.byteSize] using hoffset⟩, by simpa using hx⟩

theorem reads_plainChars (excluded : Char → Bool) :
    (many1 (.notAhead liquidStart *> .char (! excluded ·)) : Grammar (List Char)).Reads fun c _ d =>
      ∃ w, c.Over w d ∧ Text.IsPlain excluded d.rest w := by
  have hcons {c d e : Cursor} {x : Char} (hx : c.Over [x] d ∧ Text.IsPlain excluded d.rest [x])
      (hw : ∃ w, d.Over w e ∧ Text.IsPlain excluded e.rest w) : ∃ w, c.Over w e ∧ Text.IsPlain excluded e.rest w := by
    obtain ⟨hfirst, hplain⟩ := hx
    obtain ⟨w, hover, hplain'⟩ := hw
    rw [hover.1] at hplain
    exact ⟨[x] ++ w, hfirst.trans hover, Text.isPlain_append_iff.2 ⟨hplain, hplain'⟩⟩
  have hmany : (Peg.many (.notAhead liquidStart *> .char (! excluded ·)) : Grammar (List Char)).Reads fun c _ d =>
      ∃ w, c.Over w d ∧ Text.IsPlain excluded d.rest w :=
    reads_many (reads_plainChar excluded) (fun c => ⟨[], .refl c, trivial⟩) fun _ _ _ _ _ => hcons
  exact reads_seq (reads_map ((reads_plainChar excluded).imp fun _ _ _ hx _ _ => hcons hx)) hmany

/-- Fragments that were read between two cursors: if they are texts only, then they are plain. -/
def PlainBetween (excluded : Char → Bool) (c : Cursor) (ts : List Token) (d : Cursor) : Prop :=
  ts.all isText = true → ∃ w, c.Over w d ∧ String.join (ts.map written) = String.ofList w ∧
    Text.IsPlain excluded d.rest w

theorem PlainBetween.append {excluded : Char → Bool} {c d e : Cursor} {ts us : List Token}
    (h : PlainBetween excluded c ts d) (h' : PlainBetween excluded d us e) : PlainBetween excluded c (ts ++ us) e := by
  intro htext
  rw [List.all_append, Bool.and_eq_true] at htext
  obtain ⟨v, hover, hv, hplain⟩ := h htext.1
  obtain ⟨w, hover', hw, hplain'⟩ := h' htext.2
  rw [hover'.1] at hplain
  refine ⟨v ++ w, hover.trans hover', ?_, Text.isPlain_append_iff.2 ⟨hplain, hplain'⟩⟩
  rw [List.map_append, String.join_append, hv, hw, String.ofList_append]

theorem plain_textWithout (rule : Rule) (excluded : Char → Bool) :
    (textWithout rule excluded).Reads fun c t d => PlainBetween excluded c [t] d := by
  refine reads_atom (reads_map (reads_slice ((reads_plainChars excluded).imp ?_)))
  rintro c - d ⟨w, hover, hplain⟩ -
  refine ⟨w, hover, ?_, hplain⟩
  simp [String.join, Token.written, Cursor.sliceTo, hover.charsTo]

theorem plain_of_isMarkup {p : Grammar Token} (excluded : Char → Bool) (hp : p.Reads fun _ t _ => IsMarkup t) :
    p.Reads fun c t d => PlainBetween excluded c [t] d := by
  refine hp.imp fun c t d hmarkup htext => ?_
  have hnot : t.isText = false := hmarkup.2
  simp [hnot] at htext

theorem plain_many {p : Grammar Token} {excluded : Char → Bool}
    (hp : p.Reads fun c t d => PlainBetween excluded c [t] d) :
    (Peg.many p).Reads fun c ts d => PlainBetween excluded c ts d :=
  reads_many hp (fun c _ => ⟨[], .refl c, rfl, trivial⟩) fun _ _ _ _ _ ht hts => ht.append hts

theorem plain_many1 {p : Grammar Token} {excluded : Char → Bool}
    (hp : p.Reads fun c t d => PlainBetween excluded c [t] d) :
    (many1 p).Reads fun c ts d => PlainBetween excluded c ts d :=
  reads_seq (reads_map (hp.imp fun _ _ _ ht _ _ hts => ht.append hts)) (plain_many hp)

/-! ## Attributes -/

theorem assigns_of_over {s : List Char} (style : AttributeStyle) {c d e f g : Cursor} {name value : List Token}
    {before after : List Char} (hc : c.IsIn s) (hsteps : c.StepsTo d)
    (hname : Gapless c.offset (name.map Token.span) d.offset)
    (hblank : before.all Text.isBlank = true ∧ after.all Text.isBlank = true)
    (hsign : d.Over (before ++ '=' :: (after ++ style.marks)) e)
    (hvalue : Gapless e.offset (value.map Token.span) f.offset) (hplain : PlainBetween style.ends e value f)
    (hcloses : e.StepsTo f) (hmark : f.Over style.marks g) :
    Assigns s ⟨c.offset, g.offset⟩ style.marks (name.map Token.span) (value.map Token.span) e.offset f.offset ∧
      IsValue s style value e.offset f.offset := by
  have hd : d.IsIn s := hc.steps hsteps
  have he : e.IsIn s := hsign.isIn hd
  refine ⟨⟨⟨d.offset, before, after, hname, hblank, hsign.sliceChars hd⟩, hvalue,
    hmark.sliceChars (he.steps hcloses), hmark.2⟩, fun htext => ?_, fun htext => ?_⟩
  · obtain ⟨w, hover, hwritten, -⟩ := hplain htext
    rw [hwritten, Text.slice, hover.sliceChars he]
  · obtain ⟨w, hover, -, hw⟩ := hplain htext
    rw [hover.sliceChars he]
    exact hw.alone

theorem fragmented_attributeOf {s : List Char} (rule : Rule) (style : AttributeStyle)
    {parts : Grammar (List Token × List Token)}
    (hname : parts.Reads fun _ part _ => ∃ start stop, Gapless start (part.1.map Token.span) stop)
    (hassigns : parts.Reads fun c part d => c.IsIn s → style ≠ .bare → ∃ start stop,
      Assigns s ⟨c.offset, d.offset⟩ style.marks (part.1.map Token.span) (part.2.map Token.span) start stop ∧
        IsValue s style part.2 start stop) :
    (attributeOf rule style parts).Reads fun c t _ => c.IsIn s → t.Fragmented s := by
  refine reads_named (reads_spanned (reads_map ((hname.and hassigns).imp ?_)))
  rintro c part d ⟨hname, hassigns⟩ hc
  refine ⟨hname, ?_⟩
  rintro _ _ _ _ ⟨⟩ hstyle
  exact hassigns hc hstyle

theorem gapless_attributeHead :
    attributeHead.Reads fun _ ts _ => ∃ start stop, Gapless start (ts.map Token.span) stop :=
  over_attributeHead.imp fun c _ _ ⟨d, _, _, _, hname, _⟩ => ⟨c.offset, d.offset, hname⟩

theorem fragmented_attributeQuoted (s : List Char) (rule valueRule textRule : Rule) (q : Quote) :
    (attributeQuoted rule valueRule textRule q).Reads fun c t _ => c.IsIn s → t.Fragmented s := by
  have hpart := reads_orElse reads_liquid (reads_textWithout textRule (· == q.char))
  have hplain := reads_orElse (plain_of_isMarkup (· == q.char) isMarkup_liquid)
    (plain_textWithout textRule (· == q.char))
  have hvalue := (reads_stepsTo _).and ((reads_many_gapless hpart).and (plain_many hplain))
  refine fragmented_attributeOf rule (.quoted q) ?_ ?_
  · exact reads_seq (reads_map (reads_seqLeft (gapless_attributeHead.imp fun _ _ _ h _ _ _ _ _ _ => h) (reads_true _)))
      (reads_true _)
  · have hclosed : (named valueRule (.many (liquid <|> textWithout textRule (· == q.char))) <*
        .char (· == q.char)).Reads fun c ts e => ∃ d, c.StepsTo d ∧ Gapless c.offset (ts.map Token.span) d.offset ∧
          PlainBetween (· == q.char) c ts d ∧ d.Over [q.char] e := by
      refine reads_seqLeft ((reads_named hvalue).imp ?_) (over_mark q)
      rintro c ts d ⟨hsteps, hvalue, hplain⟩ - e hmark
      exact ⟨d, hsteps, hvalue, hplain, hmark⟩
    refine reads_seq (reads_map (reads_seqLeft (over_attributeHead.imp ?_) (over_mark q))) hclosed
    rintro c name e ⟨d, before, after, hsteps, hname, hblank, hsign⟩ - f hopens value h ⟨g, hcloses, hvalue, hplain,
      hmark⟩ hc -
    have hover := hsign.trans hopens
    rw [List.append_assoc, List.cons_append] at hover
    exact ⟨_, _, assigns_of_over (.quoted q) hc hsteps hname hblank hover hvalue hplain hcloses hmark⟩

theorem fragmented_attr (s : List Char) : attr.Reads fun c t _ => c.IsIn s → t.Fragmented s := by
  refine reads_orElse (fragmented_attributeQuoted s _ _ _ _)
    (reads_orElse (fragmented_attributeQuoted s _ _ _ _) (reads_orElse ?_ ?_))
  · have hpart := reads_orElse reads_drop (reads_textWithout .attrTextUnquoted endsUnquoted)
    have hplain := reads_orElse (plain_of_isMarkup endsUnquoted isMarkup_drop)
      (plain_textWithout .attrTextUnquoted endsUnquoted)
    have hvalue := (reads_stepsTo _).and ((reads_many1_gapless hpart).and (plain_many1 hplain))
    refine fragmented_attributeOf _ .unquoted ?_ ?_
    · exact reads_seq (reads_map (gapless_attributeHead.imp fun _ _ _ h _ _ _ => h)) (reads_true _)
    · refine reads_seq (reads_map (over_attributeHead.imp ?_)) (reads_named hvalue)
      rintro c name e ⟨d, before, after, hsteps, hname, hblank, hsign⟩ value f ⟨hcloses, hvalue, hplain⟩ hc -
      have hover : d.Over (before ++ '=' :: (after ++ [])) e := by rwa [List.append_nil]
      exact ⟨_, _, assigns_of_over .unquoted hc hsteps hname hblank hover hvalue hplain hcloses (.refl f)⟩
  · refine fragmented_attributeOf _ .bare (reads_map (gapless_attributeName.imp fun c _ d h => ⟨_, _, h⟩)) ?_
    exact reads_map ((reads_true _).imp fun _ _ _ _ _ hstyle => absurd rfl hstyle)

/-! ## Templates -/

theorem fragmented_of_nameParts_eq_nil {s : List Char} {t : Token} (hname : t.nameParts = [])
    (hattr : t.isAttribute = false) : t.Fragmented s := by
  refine ⟨⟨0, 0, by rw [hname]; rfl⟩, ?_⟩
  rintro span style name value rfl
  cases hattr

theorem fragmented_ofOpening {s : List Char} {span : Span} {name attributes : List Token} (slash : Bool)
    (hname : ∃ start stop, Gapless start (name.map Token.span) stop) :
    (Token.ofOpening span name attributes slash).Fragmented s :=
  holds_ofOpening slash ⟨hname, nofun⟩ (fun _ => fragmented_of_nameParts_eq_nil rfl rfl) ⟨hname, nofun⟩

theorem fragmentedRules (s : List Char) : TokenRules Forward (Cursor.IsIn s) (Token.Fragmented s) where
  toTracks := tracks_isIn s
  liquidTag := (parts_liquidTag.and isMarkup_liquidTag).imp
    fun _ _ _ ⟨⟨hname, _⟩, hmarkup⟩ _ => fragmented_of_nameParts_eq_nil hname hmarkup.1
  drop := reads_named (reads_map fun _ _ _ _ _ _ _ => fragmented_of_nameParts_eq_nil rfl rfl)
  text _ _ _ _ := fragmented_of_nameParts_eq_nil rfl rfl
  frontMatter _ _ _ _ _ := fragmented_of_nameParts_eq_nil rfl rfl
  comment _ _ _ _ _ := fragmented_of_nameParts_eq_nil rfl rfl
  doctype _ _ _ _ _ := fragmented_of_nameParts_eq_nil rfl rfl
  openTag := by
    refine reads_named (reads_spanned (reads_seq (reads_seq (reads_map (reads_seqRight (Q := fun c ts d =>
      Gapless c.offset (ts.map Token.span) d.offset) ?_ gapless_elementName)) (reads_true _)) (reads_true _)))
    exact (reads_true _).imp fun _ _ _ _ _ _ hname _ _ _ slash _ _ _ => fragmented_ofOpening slash ⟨_, _, hname⟩
  closeTag := by
    refine reads_named (reads_spanned (reads_map (reads_seqLeft (reads_seqLeft (reads_seqRight (Q := fun c ts d =>
      Gapless c.offset (ts.map Token.span) d.offset) ?_ gapless_elementName) (reads_true _)) (reads_true _))))
    exact (reads_true _).imp fun _ _ _ _ _ _ hname _ _ _ _ _ _ _ => ⟨⟨_, _, hname⟩, nofun⟩
  rawElement := reads_rawElement_of (tracks_isIn s) fun _ _ _ _ _ _ _ _ _ => fragmented_of_nameParts_eq_nil rfl rfl
  attr := fragmented_attr s

end Grammar

/-- **The fragments of names and values follow each other**, wherever in a template they stand. -/
theorem fragmented_of_ofSource {source : String} {tokens : List Token} (h : Token.ofSource source = .ok tokens) :
    ∀ t ∈ tokens, t.Everywhere (Token.Fragmented source.toList) :=
  (Grammar.fragmentedRules source.toList).ofSource (Peg.forward_readNested _) ⟨[], rfl, rfl⟩ h

end LiquidTemplate
