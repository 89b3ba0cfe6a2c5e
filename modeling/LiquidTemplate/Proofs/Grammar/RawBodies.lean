import LiquidTemplate.Proofs.Grammar.Delimited
import LiquidTemplate.Proofs.Grammar.Unstuck
import LiquidTemplate.Proofs.Nesting.Sound
import LiquidTemplate.Proofs.Peg.Restored
import LiquidTemplate.Proofs.Text.Slices

/-!
# Bodies up to the first closing tag

The opening tag of a raw element or a raw tag pushes its name, the body ends where the closing tag of that name could
be read for the first time, and the closing tag pops the name. So the body is what stands between the two tags, no
closing tag of this name starts in it (`Raw.Verbatim`), and every node of a template is read with the stack empty
before it and after it (`rawBodies_of_parse`).
-/

namespace LiquidTemplate

open Grammar (dash closingChars)

theorem Cursor.StepsTo.offset_eq {c d : Cursor} {w : List Char} (h : c.StepsTo d) (hw : c.rest = w ++ d.rest) :
    d.offset = c.offset + Text.byteSize w := by
  obtain ⟨v, hv, hoffset⟩ := h
  obtain rfl : v = w := List.append_cancel_right (hv.symm.trans hw)
  exact hoffset

/-! ## Raw nodes -/

/-- The two ways in which a body that is not read is enclosed. -/
inductive RawForm where
  | element
  | tag

namespace RawForm

/-- A name does not end before this character. -/
def isNameChar : RawForm → Char → Bool
  | element, c => Text.isWordChar c || c == '-' || c == ':'
  | tag, c => Text.isWordChar c

/-- The texts of opening tags with a name. -/
def Opens : RawForm → (name w : List Char) → Prop
  | element, name, w => ∃ inner, (inner ++ ">".toList).head?.any element.isNameChar = false ∧
      w = "<".toList ++ (name ++ (inner ++ ">".toList))
  | tag, name, w => ∃ left gap inner, gap.all Text.isBlank = true ∧
      (inner ++ tagClose.toList).head?.any tag.isNameChar = false ∧
      w = tagOpen.toList ++ (dash left ++ (gap ++ (name ++ (inner ++ tagClose.toList))))

/-- The texts of closing tags with a name. -/
def Closes : RawForm → (name w : List Char) → Prop
  | element, name, w => ∃ gap, gap.all Text.isBlank = true ∧ w = "</".toList ++ (name ++ (gap ++ ">".toList))
  | tag, name, w => ∃ left gap gap' right, gap.all Text.isBlank = true ∧ gap'.all Text.isBlank = true ∧
      w = tagOpen.toList ++ (dash left ++ (gap ++ ("end".toList ++ (name ++ (gap' ++ closingChars tagClose right)))))

end RawForm

/-- A body that is not read, with the tags around it. -/
structure Raw where
  form : RawForm
  name : String
  opener : Span
  body : Slice
  closer : Span

def Token.raw? : Token → Option Raw
  | rawElement _ name _ body opener closer => some ⟨.element, name, opener, body, closer⟩
  | rawTag _ name _ body opener closer => some ⟨.tag, name, opener.span, body, closer.span⟩
  | _ => none

def Kind.raw? : Kind → Option Raw
  | .rawElement name body opener closer => some ⟨.element, name, opener, body.slice, closer⟩
  | .rawTag name _ body opener closer => some ⟨.tag, name, opener.span, body.slice, closer.span⟩
  | _ => none

theorem Token.raw?_of_leafKind? {t : Token} {kind : Kind} (h : t.leafKind? = some kind) : kind.raw? = t.raw? := by
  cases isLeaf_of_leafKind? h <;> rfl

/-- In the source `s`, a body is what stands between its opening tag and the first closing tag of the same name. -/
structure Raw.Verbatim (s : List Char) (span : Span) (raw : Raw) : Prop where
  opener_start : raw.opener.start = span.start
  body_start : raw.body.span.start = raw.opener.stop
  body_stop : raw.body.span.stop = raw.closer.start
  closer_stop : raw.closer.stop = span.stop
  body : Text.slice? s raw.body.span = some raw.body.text.toList
  opening : ∃ w, Text.slice? s raw.opener = some w ∧ raw.form.Opens raw.name.toList w
  closing : ∃ w, Text.slice? s raw.closer = some w ∧ raw.form.Closes raw.name.toList w
  first : ∀ offset rest, raw.body.span.start ≤ offset → offset < raw.body.span.stop →
    Text.dropBytes? s offset = some rest → ∀ w, raw.form.Closes raw.name.toList w → ¬ w <+: rest

theorem Raw.verbatim_of_append {form : RawForm} {name : String} {a opening body closing z : List Char}
    (hopens : form.Opens name.toList opening) (hcloses : form.Closes name.toList closing)
    (hfirst : ∀ u v, body = u ++ v → v ≠ [] → ∀ w, form.Closes name.toList w → ¬ w <+: v ++ (closing ++ z))
    {i j k l : Nat} (hi : i = Text.byteSize a) (hj : j = i + Text.byteSize opening) (hk : k = j + Text.byteSize body)
    (hl : l = k + Text.byteSize closing) :
    (⟨form, name, ⟨i, j⟩, ⟨⟨j, k⟩, String.ofList body⟩, ⟨k, l⟩⟩ : Raw).Verbatim
      (a ++ (opening ++ (body ++ (closing ++ z)))) ⟨i, l⟩ := by
  subst hi hj hk hl
  refine ⟨rfl, rfl, rfl, rfl, ?_, ⟨opening, Text.slice?_append _ _ _, hopens⟩, ⟨closing, ?_, hcloses⟩, ?_⟩
  · have hslice := Text.slice?_append (a ++ opening) body (closing ++ z)
    rw [List.append_assoc, Text.byteSize_append] at hslice
    rw [hslice, String.toList_ofList]
  · have hslice := Text.slice?_append (a ++ (opening ++ body)) closing z
    simp only [List.append_assoc, Text.byteSize_append, ← Nat.add_assoc] at hslice
    exact hslice
  · intro offset rest hstart hstop hdrop
    obtain ⟨p, hsplit, rfl⟩ := Text.exists_of_dropBytes? hdrop
    have hboundary : Text.IsBoundary ((a ++ opening) ++ (body ++ (closing ++ z))) (Text.byteSize p) :=
      ⟨p, rest, by rw [← hsplit, List.append_assoc], rfl⟩
    simp only at hstart hstop
    obtain ⟨u, v, rfl, hu⟩ := hboundary.exists_split (by rwa [Text.byteSize_append])
      (by rw [Text.byteSize_append]; exact Nat.le_of_lt hstop)
    -- both cuts of the source are at the same offset
    have hrest : rest = v ++ (closing ++ z) := by
      have hcut := Text.dropBytes?_append ((a ++ opening) ++ u) (v ++ (closing ++ z))
      rw [← hu] at hcut
      simp only [List.append_assoc] at hcut hdrop
      exact Option.some.inj (hdrop.symm.trans hcut)
    have hv : v ≠ [] := by
      rintro rfl
      simp only [hu, Text.byteSize_append, List.append_nil] at hstop
      omega
    rw [hrest]
    exact hfirst u v rfl hv

/-! ## Lookahead -/

/-- What ends a body, as lookahead sees it. -/
def RawForm.mark : RawForm → Grammar Unit
  | element => .text "</" *> .peek *> Grammar.blanks *> .text ">"
  | tag => .text tagOpen *> Peg.opt (.text "-") *> Grammar.blanks *> .text "end" *> .peek *> Grammar.tagEnd

namespace Grammar

open Peg Token

variable {recur : Cursor → Option (Expression × Cursor)}

/-- Lookahead sees every closing tag of the name that was pushed last. -/
theorem takesOn_mark {form : RawForm} {name w : List Char} (h : form.Closes name w) (rest : List Char) :
    form.mark.TakesOn recur name w rest () := by
  cases form with
  | element =>
    obtain ⟨gap, hgap, rfl⟩ := h
    have hblanks : blanks.TakesOn recur name gap (">".toList ++ rest) () :=
      (takes_blanks hgap (by simp [Text.isBlank])).on
    have hmark : RawForm.element.mark.TakesOn recur name ("</".toList ++ name ++ gap ++ ">".toList) rest () :=
      takesOn_seqRight (takesOn_seqRight (takesOn_seqRight takes_text.on takesOn_peek) hblanks) takes_text.on
    simpa only [List.append_assoc] using hmark
  | tag =>
    obtain ⟨left, gap, gap', right, hgap, hgap', rfl⟩ := h
    have hhead : (gap ++ ("end".toList ++ (name ++ (gap' ++ closingChars tagClose right ++ rest)))).head? ≠
        some '-' := by
      cases gap with
      | nil => simp
      | cons a gap => exact head_gap_ne (by decide) (by simp) hgap
    obtain ⟨x, hdash⟩ : ∃ x, (opt (.text "-") : Grammar (Option Unit)).Takes recur (dash left) _ x :=
      takes_optDash hhead
    have hblanks : blanks.Takes recur gap
        ("end".toList ++ (name ++ (gap' ++ closingChars tagClose right ++ rest))) () :=
      takes_blanks hgap (by simp [Text.isBlank])
    have hend : tagEnd.Takes recur (gap' ++ closingChars tagClose right) rest () := takes_closing (.inl rfl) hgap'
    have hmark : RawForm.tag.mark.TakesOn recur name
        (tagOpen.toList ++ dash left ++ gap ++ "end".toList ++ name ++ (gap' ++ closingChars tagClose right)) rest () :=
      takesOn_seqRight (takesOn_seqRight (takesOn_seqRight (takesOn_seqRight (takesOn_seqRight takes_text.on hdash.on)
        hblanks.on) takes_text.on) takesOn_peek) hend.on
    simpa only [List.append_assoc] using hmark

/-- Where lookahead does not see the end of a body, no closing tag of the name pushed last starts. -/
theorem not_prefix_of_mark {form : RawForm} {c : Cursor} (h : form.mark.read recur c = none) {name w : List Char}
    {stack : List (List Char)} (hstack : c.stack = name :: stack) (hw : form.Closes name w) : ¬ w <+: c.rest := by
  rintro ⟨rest, hrest⟩
  have htakes : form.mark.read recur ⟨w ++ rest, c.offset, name :: stack⟩ = some _ :=
    takesOn_mark hw rest c.offset stack
  rw [hrest, ← hstack] at htakes
  cases htakes.symm.trans h

theorem reads_body (rule : Rule) (form : RawForm) :
    (atom rule (Prod.fst <$> .slice (upTo form.mark)) : Grammar Slice).ReadsGiven Neutral fun c body d =>
      ∃ w, c.rest = w ++ d.rest ∧ body = ⟨⟨c.offset, d.offset⟩, String.ofList w⟩ ∧ d.stack = c.stack ∧
        ∀ name stack, c.stack = name :: stack → ∀ u v, w = u ++ v → v ≠ [] → ∀ k, form.Closes name k →
          ¬ k <+: v ++ d.rest := by
  have hbody : (upTo form.mark).ReadsGiven Neutral _ := reads_upTo
    (Q := fun c => ∀ name stack, c.stack = name :: stack → ∀ k, form.Closes name k → ¬ k <+: c.rest)
    fun recur c hnone name stack hstack k hk => not_prefix_of_mark hnone hstack hk
  refine reads_atom (reads_map (reads_slice (hbody.imp ?_)))
  rintro c w d ⟨hrest, -, hstack, hfirst⟩
  have hchars : c.charsTo d = w := by simp [Cursor.charsTo, hrest]
  refine ⟨w, hrest, by rw [Cursor.sliceTo, hchars], hstack, ?_⟩
  exact fun name stack hname u v huv hne => hfirst u v huv hne name stack hname

/-! ## Opening and closing tags -/

theorem reads_text_stack {s : String} : (Peg.text s : Grammar Unit).ReadsGiven Neutral fun c _ d =>
    c.rest = s.toList ++ d.rest ∧ d.stack = c.stack :=
  ReadsGiven.and (reads_text fun _ _ hrest _ => hrest) (restoresStack_of_stackFree rfl)

theorem reads_blanks_stack : blanks.ReadsGiven Neutral fun c _ d =>
    (∃ gap, gap.all Text.isBlank = true ∧ c.rest = gap ++ d.rest) ∧ d.stack = c.stack := by
  refine ReadsGiven.and (reads_blanks.neutral.imp ?_) (restoresStack_of_stackFree rfl)
  rintro c - d ⟨hrest, -⟩
  exact ⟨c.rest.takeWhile Text.isBlank, List.all_takeWhile, by rw [hrest, List.takeWhile_append_dropWhile]⟩

theorem reads_some_stack {α : Type} {p : Grammar α} (hp : p.RestoresStack) : p.ReadsGiven Neutral fun c _ d =>
    (∃ w, c.rest = w ++ d.rest) ∧ d.stack = c.stack :=
  ReadsGiven.and ((reads_stepsTo p).neutral.imp fun _ _ _ ⟨w, hw, _⟩ => ⟨w, hw⟩) hp

theorem head?_any_of_append {q : Char → Bool} {u v : List Char} (h : (u ++ v).head?.any q = false) :
    u.head?.any q = false := by
  cases u with
  | nil => rfl
  | cons x u => exact h

theorem reads_push_name {p : Grammar String} {q : Char → Bool}
    (hp : p.Reads fun c s d => c.rest = s.toList ++ d.rest ∧ d.rest.head?.any q = false) (hstack : p.RestoresStack) :
    (Peg.push p).ReadsGiven Neutral fun c s d =>
      c.rest = s.toList ++ d.rest ∧ d.rest.head?.any q = false ∧ d.stack = s.toList :: c.stack := by
  have hrest : (Peg.push p).ReadsGiven Neutral fun c s d => c.rest = s.toList ++ d.rest ∧ d.rest.head?.any q = false :=
    reads_push (hp.neutral.imp fun _ _ _ h _ => h)
  refine (hrest.and (reads_push_charsTo hstack)).imp ?_
  rintro c s d ⟨⟨hrest, hends⟩, hpushed⟩
  exact ⟨hrest, hends, by rw [hpushed]; simp [Cursor.charsTo, hrest]⟩

theorem reads_notAhead_char {q : Char → Bool} : (Peg.notAhead (.char q) : Grammar Unit).Reads fun c _ d =>
    d = c ∧ c.rest.head?.any q = false := by
  refine reads_notAhead fun recur c hnone => ⟨rfl, ?_⟩
  rw [← @isSome_read_char recur, hnone, Option.isSome_none]

theorem reads_delimited_stack {α : Type} {opening closing : String} {inner : Grammar α} {Q : Cursor → α → Cursor → Prop}
    (h : inner.ReadsGiven Neutral Q) : (delimited opening closing inner).ReadsGiven Neutral fun c x d =>
      x.delimiter.span = ⟨c.offset, d.offset⟩ ∧ ∃ left gap c' d' gap' right,
        gap.all Text.isBlank = true ∧ gap'.all Text.isBlank = true ∧
        c.rest = opening.toList ++ (dash left ++ (gap ++ c'.rest)) ∧ c'.stack = c.stack ∧ Q c' x.inner d' ∧
        d'.rest = gap' ++ (closingChars closing right ++ d.rest) ∧ d.stack = d'.stack := by
  have hdash (rule : Rule) : (flag (named rule (.text "-")) : Grammar Bool).ReadsGiven Neutral fun c b d =>
      c.rest = dash b ++ d.rest ∧ d.stack = c.stack :=
    reads_orElse (reads_map reads_text_stack) (reads_pure fun _ => ⟨rfl, rfl⟩)
  have hopen : (.text opening *> flag (named .trimStart (.text "-")) <* blanks : Grammar Bool).ReadsGiven Neutral
      fun c left d => ∃ gap, gap.all Text.isBlank = true ∧ c.rest = opening.toList ++ (dash left ++ (gap ++ d.rest)) ∧
        d.stack = c.stack := by
    refine reads_seqLeft (reads_seqRight (reads_text_stack.imp ?_) (hdash _)) reads_blanks_stack
    rintro c - d ⟨hd, hds⟩ left e ⟨he, hes⟩ - f ⟨⟨gap, hgap, hf⟩, hfs⟩
    exact ⟨gap, hgap, by rw [hd, he, hf], hfs.trans (hes.trans hds)⟩
  have hinner : (inner <* blanks).ReadsGiven Neutral fun c x d => ∃ e gap, Q c x e ∧ gap.all Text.isBlank = true ∧
      e.rest = gap ++ d.rest ∧ d.stack = e.stack := by
    refine reads_seqLeft (h.imp ?_) reads_blanks_stack
    rintro c x d hQ - e ⟨⟨gap, hgap, he⟩, hes⟩
    exact ⟨d, gap, hQ, hgap, he, hes⟩
  have hclose : (flag (named .trimEnd (.text "-")) <* .text closing : Grammar Bool).ReadsGiven Neutral
      fun c right d => c.rest = closingChars closing right ++ d.rest ∧ d.stack = c.stack := by
    refine reads_seqLeft ((hdash _).imp ?_) reads_text_stack
    rintro c right d ⟨hd, hds⟩ - e ⟨he, hes⟩
    exact ⟨by rw [hd, he, closingChars, List.append_assoc], hes.trans hds⟩
  refine reads_map (reads_slice (reads_seq (reads_seq (reads_map (hopen.imp ?_)) hinner) hclose))
  rintro c left d ⟨gap, hgap, hd, hds⟩ x e ⟨e', gap', hQ, hgap', he, hes⟩ right f ⟨hf, hfs⟩
  exact ⟨rfl, left, gap, d, e', gap', right, hgap, hgap', hd, hds, hQ, by rw [he, hf], hfs.trans hes⟩

end Grammar

/-- An opening tag is read and its name is pushed. -/
def RawForm.Pushes (form : RawForm) (c : Cursor) (name : String) (d : Cursor) : Prop :=
  d.stack = name.toList :: c.stack ∧ ∃ w, form.Opens name.toList w ∧ c.rest = w ++ d.rest

/-- A closing tag of the name pushed last is read, and the name is popped. -/
def RawForm.Pops (form : RawForm) (c d : Cursor) : Prop :=
  ∃ name w, c.stack = name :: d.stack ∧ form.Closes name w ∧ c.rest = w ++ d.rest

namespace Grammar

open Peg Token

theorem reads_rawElementName : rawElementName.Reads fun c s d =>
    c.rest = s.toList ++ d.rest ∧ d.rest.head?.any RawForm.element.isNameChar = false := by
  refine reads_atom (reads_covered (A := fun _ d => d.rest.head?.any RawForm.element.isNameChar = false) ?_)
  refine reads_seqLeft ((reads_stepsTo _).imp ?_) reads_notAhead_char
  rintro c - d ⟨w, hw, -⟩ - e ⟨rfl, hends⟩
  exact ⟨w, hw, hends⟩

theorem pushes_elementOpen (hattributes : attributes.RestoresStack) :
    (named .htmlRawOpen (.slice (Prod.mk <$> (.text "<" *> .push rawElementName) <*> (attributes <* .text ">"))) :
      Grammar (Slice × String × List Token)).ReadsGiven Neutral fun c x d =>
        x.1.span = ⟨c.offset, d.offset⟩ ∧ RawForm.element.Pushes c x.2.1 d := by
  have hpush : (.text "<" *> .push rawElementName : Grammar String).ReadsGiven Neutral fun c s d =>
      c.rest = "<".toList ++ (s.toList ++ d.rest) ∧ d.rest.head?.any RawForm.element.isNameChar = false ∧
        d.stack = s.toList :: c.stack := by
    refine reads_seqRight (reads_text_stack.imp ?_)
      (reads_push_name reads_rawElementName (restoresStack_of_stackFree rfl))
    rintro c - d ⟨hd, hds⟩ s e ⟨he, hends, hes⟩
    exact ⟨by rw [hd, he], hends, by rw [hes, hds]⟩
  have hinner : (attributes <* .text ">").ReadsGiven Neutral fun c _ d =>
      (∃ w, c.rest = w ++ (">".toList ++ d.rest)) ∧ d.stack = c.stack := by
    refine reads_seqLeft ((reads_some_stack hattributes).imp ?_) reads_text_stack
    rintro c ts d ⟨⟨w, hd⟩, hds⟩ - e ⟨he, hes⟩
    exact ⟨⟨w, by rw [hd, he]⟩, hes.trans hds⟩
  refine reads_named (reads_slice (reads_seq (reads_map (hpush.imp ?_)) hinner))
  rintro c s d ⟨hd, hends, hds⟩ ts e ⟨⟨w, he⟩, hes⟩
  refine ⟨rfl, hes.trans hds, _, ⟨w, ?_, rfl⟩, ?_⟩
  · rw [he, ← List.append_assoc] at hends
    exact head?_any_of_append hends
  · rw [hd, he]
    simp only [List.append_assoc]

theorem pops_elementClose : (named .htmlRawClose (.slice (.text "</" *> .pop *> blanks *> .text ">")) :
    Grammar (Slice × Unit)).ReadsGiven Neutral fun c x d =>
      x.1.span = ⟨c.offset, d.offset⟩ ∧ RawForm.element.Pops c d := by
  refine reads_named (reads_slice (reads_seqRight (reads_seqRight (reads_seqRight (reads_text_stack.imp ?_) reads_pop)
    reads_blanks_stack) reads_text_stack))
  rintro c - d ⟨hd, hds⟩ - e ⟨name, hes, he⟩ - f ⟨⟨gap, hgap, hf⟩, hfs⟩ - g ⟨hg, hgs⟩
  refine ⟨rfl, name, _, ?_, ⟨gap, hgap, rfl⟩, ?_⟩
  · rw [← hds, hes, hgs, hfs]
  · rw [hd, he, hf, hg]
    simp only [List.append_assoc]

theorem reads_rawTagName : rawTagName.Reads fun c s d =>
    c.rest = s.toList ++ d.rest ∧ d.rest.head?.any RawForm.tag.isNameChar = false := by
  have hword (s : String) : (word s).Reads fun c x d =>
      c.rest = x.toList ++ d.rest ∧ d.rest.head?.any RawForm.tag.isNameChar = false := by
    refine reads_seqLeft (reads_map (reads_text fun c d hrest _ => ?_)) reads_notAhead_char
    rintro - e ⟨rfl, hends⟩
    exact ⟨hrest, hends⟩
  exact reads_atom (reads_orElse (hword _) (reads_orElse (hword _) (reads_orElse (hword _)
    (reads_orElse (hword _) (reads_orElse (hword _) (hword _))))))

theorem pushes_tagOpen : (named .rawTagOpen
    (delimited tagOpen tagClose (Prod.mk <$> (.push rawTagName <* blanks) <*> plainMarkup))).ReadsGiven Neutral
      fun c x d => x.delimiter.span = ⟨c.offset, d.offset⟩ ∧ RawForm.tag.Pushes c x.inner.1 d := by
  have hname : (.push rawTagName <* blanks).ReadsGiven Neutral fun c s d =>
      (∃ w, c.rest = s.toList ++ (w ++ d.rest) ∧ (w ++ d.rest).head?.any RawForm.tag.isNameChar = false) ∧
        d.stack = s.toList :: c.stack := by
    refine reads_seqLeft ((reads_push_name reads_rawTagName (restoresStack_of_stackFree rfl)).imp ?_)
      (reads_some_stack (restoresStack_of_stackFree rfl))
    rintro c s d ⟨hd, hends, hds⟩ - e ⟨⟨w, he⟩, hes⟩
    exact ⟨⟨w, by rw [hd, he], by rwa [← he]⟩, hes.trans hds⟩
  have hmarkup : (Prod.mk <$> (.push rawTagName <* blanks) <*> plainMarkup).ReadsGiven Neutral fun c x d =>
      (∃ w, c.rest = x.1.toList ++ (w ++ d.rest) ∧ (w ++ d.rest).head?.any RawForm.tag.isNameChar = false) ∧
        d.stack = x.1.toList :: c.stack := by
    refine reads_seq (reads_map (hname.imp ?_)) (reads_some_stack (restoresStack_of_stackFree rfl))
    rintro c s d ⟨⟨w, hd, hends⟩, hds⟩ text e ⟨⟨v, he⟩, hes⟩
    rw [he, ← List.append_assoc] at hends
    exact ⟨⟨w ++ v, by rw [hd, he, List.append_assoc], hends⟩, hes.trans hds⟩
  refine reads_named ((reads_delimited_stack hmarkup).imp ?_)
  rintro c x d ⟨hspan, left, gap, c', d', gap', right, hgap, -, hc, hcs, ⟨⟨w, hw, hends⟩, hds'⟩, hd, hds⟩
  refine ⟨hspan, by rw [hds, hds', hcs], _, ⟨left, gap, w ++ (gap' ++ dash right), hgap, ?_, rfl⟩, ?_⟩
  · rw [hd, closingChars] at hends
    exact head?_any_of_append (by simpa only [List.append_assoc] using hends)
  · rw [hc, hw, hd, closingChars]
    simp only [List.append_assoc]

theorem pops_tagClose : (named .rawTagClose (delimited tagOpen tagClose (.text "end" *> .pop))).ReadsGiven Neutral
    fun c x d => x.delimiter.span = ⟨c.offset, d.offset⟩ ∧ RawForm.tag.Pops c d := by
  have hname : (.text "end" *> .pop : Grammar Unit).ReadsGiven Neutral fun c _ d =>
      ∃ name, c.stack = name :: d.stack ∧ c.rest = "end".toList ++ (name ++ d.rest) := by
    refine reads_seqRight (reads_text_stack.imp ?_) reads_pop
    rintro c - d ⟨hd, hds⟩ - e ⟨name, hes, he⟩
    exact ⟨name, by rw [← hds, hes], by rw [hd, he]⟩
  refine reads_named ((reads_delimited_stack hname).imp ?_)
  rintro c x d ⟨hspan, left, gap, c', d', gap', right, hgap, hgap', hc, hcs, ⟨name, hname, hw⟩, hd, hds⟩
  refine ⟨hspan, name, _, by rw [← hcs, hname, hds], ⟨left, gap, gap', right, hgap, hgap', rfl⟩, ?_⟩
  rw [hc, hw, hd]
  simp only [List.append_assoc]

end Grammar

/-! ## Raw tokens -/

/-- If a token has a raw body, then that is what stands between its two tags. -/
def Token.KeepsBody (s : List Char) (t : Token) : Prop :=
  ∀ raw, t.raw? = some raw → raw.Verbatim s t.span

namespace Grammar

open Peg Token

/-- A body between an opening and a closing tag. The name that is pushed by the one is popped by the other. -/
theorem reads_between {α β : Type} {form : RawForm} {rule : Rule} {opening : Grammar α} {closing : Grammar β}
    {name : α → String} {opener : α → Span} {closer : β → Span} {f : α → Slice → β → Span → Token}
    (hopening : opening.ReadsGiven Neutral fun c x d => opener x = ⟨c.offset, d.offset⟩ ∧ form.Pushes c (name x) d)
    (hclosing : closing.ReadsGiven Neutral fun c y d => closer y = ⟨c.offset, d.offset⟩ ∧ form.Pops c d)
    (hf : ∀ x body y span, (f x body y span).raw? = some ⟨form, name x, opener x, body, closer y⟩ ∧
      (f x body y span).span = span) :
    (spanned (f <$> opening <*> atom rule (Prod.fst <$> .slice (upTo form.mark)) <*> closing)).ReadsGiven Neutral
      fun c t d => d.stack = c.stack ∧ ∀ s, c.IsIn s → t.KeepsBody s := by
  have hsteps {γ : Type} (p : Grammar γ) := (reads_stepsTo p).neutral
  refine reads_map (reads_slice (reads_seq (reads_seq (reads_map ((hopening.and (hsteps _)).imp ?_))
    ((reads_body rule form).and (hsteps _))) (hclosing.and (hsteps _))))
  rintro c x d ⟨⟨hopener, hpushed, opened, hopens, hd⟩, hcd⟩ body e ⟨⟨w, he, rfl, hes, hfirst⟩, hde⟩ y g
    ⟨⟨hcloser, closed, z, hes', hcloses, hg⟩, heg⟩
  obtain ⟨rfl, hstack⟩ : closed = (name x).toList ∧ g.stack = c.stack := by
    rw [hes, hpushed] at hes'
    obtain ⟨hname, hstack⟩ := List.cons.inj hes'
    exact ⟨hname.symm, hstack.symm⟩
  refine ⟨hstack, fun s hs raw hraw => ?_⟩
  obtain ⟨hraw', hspan⟩ := hf x ⟨⟨d.offset, e.offset⟩, String.ofList w⟩ y ⟨c.offset, g.offset⟩
  obtain rfl := Option.some.inj (hraw'.symm.trans hraw)
  change Raw.Verbatim s (Token.span (f x _ y ⟨c.offset, g.offset⟩)) _
  obtain ⟨a, rfl, ha⟩ := hs
  rw [hspan, hopener, hcloser, hd, he, hg]
  refine Raw.verbatim_of_append hopens hcloses ?_ ha.symm (hcd.offset_eq hd) (hde.offset_eq he) (heg.offset_eq hg)
  rw [← hg]
  exact hfirst _ _ hpushed

theorem reads_rawTag_body : rawTag.ReadsGiven Neutral fun c t d =>
    d.stack = c.stack ∧ ∀ s, c.IsIn s → t.KeepsBody s :=
  reads_named (reads_between pushes_tagOpen pops_tagClose fun _ _ _ _ => ⟨rfl, rfl⟩)

theorem restores_liquidTag : liquidTag.RestoresStack := by
  have hraw : rawTag.RestoresStack := reads_rawTag_body.imp fun _ _ _ h => h.1
  have hclose : blockClose.RestoresStack := restoresStack_of_stackFree rfl
  have hopen : blockOpen.RestoresStack := restoresStack_of_stackFree rfl
  have htag : tag.RestoresStack := restoresStack_of_stackFree rfl
  exact hraw.orElse (hclose.orElse (hopen.orElse htag))

theorem closed_restoresStack : StackClosed RestoresStack where
  free := restoresStack_of_stackFree
  map := RestoresStack.map
  seq := RestoresStack.seq
  orElse := RestoresStack.orElse
  many hp _ := hp.many
  slice hp := reads_slice hp
  rule hp := hp

theorem reads_rawElement_body : rawElement.ReadsGiven Neutral fun c t d =>
    d.stack = c.stack ∧ ∀ s, c.IsIn s → t.KeepsBody s :=
  reads_named (reads_between (pushes_elementOpen (closed_restoresStack.attributes restores_liquidTag)) pops_elementClose
    fun _ _ _ _ => ⟨rfl, rfl⟩)

theorem restores_node : node.RestoresStack :=
  closed_restoresStack.node restores_liquidTag (reads_rawElement_body.imp fun _ _ _ h => h.1)

theorem keepsBody_of_raw?_eq_none {s : List Char} {t : Token} (h : t.raw? = none) : t.KeepsBody s := by
  intro raw hraw
  rw [h] at hraw
  cases hraw

theorem tracks_neutral (s : List Char) : Tracks (Neutral (ρ := Expression)) (Cursor.IsIn s) :=
  ⟨fun _ h => h.forward, (tracks_isIn s).steps⟩

theorem keepsBodyRules (s : List Char) : TokenRules Neutral (Cursor.IsIn s) (Token.KeepsBody s) where
  toTracks := tracks_neutral s
  liquidTag := by
    have hmap {α : Type} {f : α → Token} {p : Grammar α} (hf : ∀ x, (f x).raw? = none) :
        (f <$> p).ReadsGiven Neutral fun c t _ => c.IsIn s → t.KeepsBody s :=
      reads_map fun _ _ _ x _ _ _ => keepsBody_of_raw?_eq_none (hf x)
    exact reads_orElse (reads_rawTag_body.imp fun _ _ _ h => h.2 s) (reads_orElse (hmap fun _ => rfl)
      (reads_orElse (hmap fun _ => rfl) (hmap fun _ => rfl)))
  drop := reads_named (reads_map fun _ _ _ _ _ _ _ => keepsBody_of_raw?_eq_none rfl)
  text _ _ _ _ := keepsBody_of_raw?_eq_none rfl
  frontMatter _ _ _ _ _ := keepsBody_of_raw?_eq_none rfl
  comment _ _ _ _ _ := keepsBody_of_raw?_eq_none rfl
  doctype _ _ _ _ _ := keepsBody_of_raw?_eq_none rfl
  openTag := by
    refine reads_openTag_of (tracks_neutral s) ?_ ?_ ?_ <;> exact fun _ _ _ _ _ _ => keepsBody_of_raw?_eq_none rfl
  closeTag := reads_closeTag_of (tracks_neutral s) fun _ _ _ _ _ => keepsBody_of_raw?_eq_none rfl
  rawElement := reads_rawElement_body.imp fun _ _ _ h => h.2 s
  attr := reads_attr_of (tracks_neutral s) fun _ _ _ _ _ _ _ _ => keepsBody_of_raw?_eq_none rfl

/-! ## Nodes one after the other -/

/-- A token, with the cursors between which it was read. -/
structure Reading where
  start : Cursor
  token : Token
  stop : Cursor

/-- In a template, an expression matches between two cursors, whatever was noted before. -/
def Matches (source : String) {α : Type} (p : Grammar α) (c : Cursor) (x : α) (d : Cursor) : Prop :=
  ∀ mode attempts, (p.parse (parseNested expression (source.toList.length + 1)) mode c attempts).1 = some (x, d)

theorem matches_of_read {source : String} {α : Type} {p : Grammar α} {c : Cursor} {x : α} {d : Cursor}
    (h : p.read (readNested expression (source.toList.length + 1)) c = some (x, d)) : Matches source p c x d := by
  intro mode attempts
  rw [fst_parse fun m c a => fst_parseNested expression (source.toList.length + 1) m c a]
  exact h

/-- Nodes are read one after the other, with blanks between them. -/
inductive ReadsNodes (source : String) : Cursor → List Reading → Cursor → Prop where
  | nil (c : Cursor) : ReadsNodes source c [] c
  | cons {c d e f : Cursor} {t : Token} {readings : List Reading} (first : Matches source node c t d)
      (skipped : Matches source blanks d () e) (more : ReadsNodes source e readings f) :
      ReadsNodes source c (⟨c, t, d⟩ :: readings) f

/-- The way through a template: front matter, then nodes up to the end. -/
structure Readthrough (source : String) (front : Option Token) (readings : List Reading) (c d : Cursor) : Prop where
  front : Matches source (blanks *> opt frontMatter <* blanks) (.ofText source.toList) front c
  nodes : ReadsNodes source c readings d
  done : d.rest = []

theorem exists_readsNodes {source : String} {c d : Cursor} {ts : List Token}
    (h : (Peg.many (node <* blanks)).read (readNested expression (source.toList.length + 1)) c = some (ts, d)) :
    ∃ readings, ReadsNodes source c readings d ∧ ts = readings.map Reading.token := by
  rw [read_many, Option.some.injEq] at h
  have hnodes := @readMany_induct Token ((node <* blanks).read (readNested expression (source.toList.length + 1)))
    (fun c ts d => ∃ readings, ReadsNodes source c readings d ∧ ts = readings.map Reading.token)
    (fun c => ⟨[], .nil c, rfl⟩) ?_ (c.rest.length + 1) c
  · rwa [h] at hnodes
  rintro c t e ts f hstep ⟨readings, hmore, rfl⟩
  rw [read_seqLeft] at hstep
  obtain ⟨⟨t', d⟩, hnode, hskip⟩ := Option.bind_eq_some_iff.1 hstep
  obtain ⟨⟨_, e'⟩, hblanks, heq⟩ := Option.map_eq_some_iff.1 hskip
  cases heq
  exact ⟨⟨c, t', d⟩ :: readings, .cons (matches_of_read hnode) (matches_of_read hblanks) hmore, rfl⟩

theorem exists_readthrough {source : String} {tokens : List Token} (h : Token.ofSource source = .ok tokens) :
    ∃ front readings c d, Readthrough source front readings c d ∧
      tokens = front.toList ++ readings.map Reading.token := by
  unfold Token.ofSource at h
  split at h
  next ts d a hrun =>
    cases h
    have hread := read_of_run hrun
    rw [document, read_named, read_seq, read_map] at hread
    obtain ⟨⟨g, c⟩, hstart, hread⟩ := Option.bind_eq_some_iff.1 hread
    obtain ⟨⟨front, c'⟩, hfront, heq⟩ := Option.map_eq_some_iff.1 hstart
    cases heq
    obtain ⟨⟨nodes, d'⟩, hnodes, heq⟩ := Option.map_eq_some_iff.1 hread
    cases heq
    rw [read_seqLeft] at hnodes
    obtain ⟨⟨ts, e⟩, hmany, hdone⟩ := Option.bind_eq_some_iff.1 hnodes
    obtain ⟨⟨_, e'⟩, hend, heq⟩ := Option.map_eq_some_iff.1 hdone
    cases heq
    obtain ⟨rfl, hrest⟩ : e = e' ∧ e'.rest = [] := reads_done (H := Neutral) (P := fun c _ d => c = d ∧ d.rest = [])
      (fun _ hc => ⟨rfl, hc⟩) _ (neutral_readNested rfl _) e () e' hend
    obtain ⟨readings, hreadings, rfl⟩ := exists_readsNodes hmany
    exact ⟨front, readings, c', e, ⟨matches_of_read hfront, hreadings, hrest⟩, rfl⟩
  · cases h

theorem Matches.stack {source : String} {α : Type} {p : Grammar α} {c : Cursor} {x : α} {d : Cursor}
    (h : Matches source p c x d) (hp : p.RestoresStack) : d.stack = c.stack := by
  have hread := h {} {}
  rw [fst_parse fun m c a => fst_parseNested expression (source.toList.length + 1) m c a] at hread
  exact hp _ (neutral_readNested rfl _) c x d hread

theorem ReadsNodes.stack {source : String} {c d : Cursor} {readings : List Reading}
    (h : ReadsNodes source c readings d) :
    d.stack = c.stack ∧ ∀ r ∈ readings, r.start.stack = c.stack ∧ r.stop.stack = c.stack := by
  induction h with
  | nil => exact ⟨rfl, by simp⟩
  | @cons c d e f t readings first skipped _ ih =>
    have hd : d.stack = c.stack := first.stack restores_node
    have he : e.stack = c.stack := (skipped.stack (restoresStack_of_stackFree rfl)).trans hd
    rw [he] at ih
    exact ⟨ih.1, List.forall_mem_cons.2 ⟨⟨rfl, hd⟩, ih.2⟩⟩

theorem Readthrough.stack {source : String} {front : Option Token} {readings : List Reading} {c d : Cursor}
    (h : Readthrough source front readings c d) :
    c.stack = [] ∧ d.stack = [] ∧ ∀ r ∈ readings, r.start.stack = [] ∧ r.stop.stack = [] := by
  have hc : c.stack = [] := h.front.stack (restoresStack_of_stackFree rfl)
  have hnodes := h.nodes.stack
  rw [hc] at hnodes
  exact ⟨hc, hnodes⟩

end Grammar

/-! ## Raw nodes of a template -/

theorem verbatim_of_parse {source : String} {strictness : Strictness} {d : Document Unit}
    (h : Document.parse source strictness = .ok d) {n : Node Unit} (hn : n ∈ d.root.preorder) {raw : Raw}
    (hraw : n.kind.raw? = some raw) : raw.Verbatim source.toList n.span := by
  obtain ⟨tokens, htokens⟩ := ofSource_of_parse h
  have hkeeps := (Grammar.keepsBodyRules source.toList).ofSource (Peg.neutral_readNested rfl) ⟨[], rfl, rfl⟩ htokens
  have hformed := formed_of_parse (B := fun _ => True) (fun _ _ => ⟨trivial, trivial⟩)
    ⟨trivial, trivial⟩ htokens hkeeps h
    n hn
  cases hformed with
  | leaf token isLeaf => exact token raw (Token.raw?_of_leafKind? isLeaf ▸ hraw)
  | document | element | block | branched | branch => cases hraw

/-- **Raw bodies are what stands between their tags, up to the first closing tag of the same name**, and the nodes of
a template are read with an empty stack before and after each of them. -/
theorem rawBodies_of_parse {source : String} {strictness : Strictness} {d : Document Unit}
    (h : Document.parse source strictness = .ok d) :
    (∀ e ∈ d.entries, ∀ raw, e.node.kind.raw? = some raw → raw.Verbatim source.toList e.node.span) ∧
      ∃ front readings start stop, Grammar.Readthrough source front readings start stop ∧
        Token.ofSource source = .ok (front.toList ++ readings.map Grammar.Reading.token) ∧
        start.stack = [] ∧ stop.stack = [] ∧ ∀ r ∈ readings, r.start.stack = [] ∧ r.stop.stack = [] := by
  refine ⟨fun e he raw hraw => verbatim_of_parse h ?_ hraw, ?_⟩
  · rw [← Node.map_node_entries _ 0 none none none]
    exact List.mem_map_of_mem he
  · obtain ⟨tokens, htokens⟩ := ofSource_of_parse h
    obtain ⟨front, readings, c, d, hthrough, rfl⟩ := Grammar.exists_readthrough htokens
    exact ⟨front, readings, c, d, hthrough, htokens, hthrough.stack⟩

/-- A raw tag among the attributes of a raw element, after a tag that would be a raw one if it were closed. -/
theorem rawBodies_nested : ∃ d,
    Document.parse "\x7b% schema %\x7d<style \x7b%raw%\x7d<\x7b%- endraw%\x7d></styles></style >" .strict = .ok d ∧
      (d.entries.filterMap fun e => e.node.kind.raw?.map fun raw => raw.body.text) = ["</styles>", "<"] ∧
      ∀ e ∈ d.entries, ∀ raw, e.node.kind.raw? = some raw → raw.Verbatim
        "\x7b% schema %\x7d<style \x7b%raw%\x7d<\x7b%- endraw%\x7d></styles></style >".toList e.node.span := by
  obtain ⟨d, hd, hbodies⟩ := exists_eq_ok (x := Document.parse
    "\x7b% schema %\x7d<style \x7b%raw%\x7d<\x7b%- endraw%\x7d></styles></style >" .strict)
    (P := fun d => (d.entries.filterMap fun e => e.node.kind.raw?.map fun raw => raw.body.text) ==
      ["</styles>", "<"]) (by decide +kernel)
  exact ⟨d, hd, eq_of_beq hbodies, (rawBodies_of_parse hd).1⟩

end LiquidTemplate
