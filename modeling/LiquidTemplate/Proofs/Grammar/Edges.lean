import LiquidTemplate.Proofs.Nesting.Sound
import LiquidTemplate.Proofs.Text.Spacing

/-!
# The edges of tokens

A token starts and ends with a character that is not blank. Texts do by their rule; everything else starts and ends
with a mark. So the blanks next to a token are exactly those between it and its neighbours.
-/

namespace LiquidTemplate

namespace Grammar

open Peg Token

variable {α β : Type}

/-! ## Marks at the two edges -/

/-- What is read starts with a character that is not blank. -/
def Opens (p : Grammar α) : Prop :=
  p.Reads fun c _ _ => ∃ x rest, c.rest = x :: rest ∧ Text.isBlank x = false

/-- What is read ends with a character that is not blank. -/
def Closes (p : Grammar α) : Prop :=
  p.Reads fun c _ d => EndsInText c d

theorem opens_text {s : String} {x : Char} {v : List Char} (hs : s.toList = x :: v) (hx : Text.isBlank x = false) :
    Opens (Peg.text s) :=
  reads_text fun c d hrest _ => ⟨x, v ++ d.rest, by rw [hrest, hs, List.cons_append], hx⟩

theorem closes_text {s : String} {v : List Char} {x : Char} (hs : s.toList = v ++ [x]) (hx : Text.isBlank x = false) :
    Closes (Peg.text s) :=
  reads_text fun c d hrest _ => ⟨v, x, by rw [hrest, hs, List.append_assoc, List.singleton_append], hx⟩

theorem opens_map {p : Grammar α} {f : α → β} (hp : Opens p) : Opens (f <$> p) :=
  reads_map hp

theorem closes_map {p : Grammar α} {f : α → β} (hp : Closes p) : Closes (f <$> p) :=
  reads_map hp

theorem opens_seq {f : Grammar (α → β)} {p : Grammar α} (hf : Opens f) : Opens (f <*> p) :=
  reads_seq (hf.imp fun _ _ _ h _ _ _ => h) (reads_true p)

theorem closes_seq {f : Grammar (α → β)} {p : Grammar α} (hp : Closes p) : Closes (f <*> p) :=
  reads_seq ((reads_stepsTo f).imp fun _ _ _ hsteps _ _ h => .of_stepsTo hsteps h) hp

theorem opens_seqLeft {p : Grammar α} {q : Grammar β} (hp : Opens p) : Opens (p <* q) :=
  opens_seq (opens_map hp)

theorem closes_seqLeft {p : Grammar α} {q : Grammar β} (hq : Closes q) : Closes (p <* q) :=
  closes_seq hq

theorem opens_seqRight {p : Grammar α} {q : Grammar β} (hp : Opens p) : Opens (p *> q) :=
  reads_seqRight (hp.imp fun _ _ _ h _ _ _ => h) (reads_true q)

theorem closes_seqRight {p : Grammar α} {q : Grammar β} (hq : Closes q) : Closes (p *> q) :=
  reads_seqRight ((reads_stepsTo p).imp fun _ _ _ hsteps _ _ h => .of_stepsTo hsteps h) hq

theorem opens_slice {p : Grammar α} (hp : Opens p) : Opens (Peg.slice p) :=
  reads_slice hp

theorem closes_slice {p : Grammar α} (hp : Closes p) : Closes (Peg.slice p) :=
  reads_slice hp

/-! ## Tokens -/

structure ReadsWord (p : Grammar α) : Prop where
  opens : Opens p
  closes : Closes p

theorem readsWord_orElse {p q : Grammar α} (hp : ReadsWord p) (hq : ReadsWord q) : ReadsWord (p <|> q) :=
  ⟨reads_orElse hp.opens hq.opens, reads_orElse hp.closes hq.closes⟩

theorem readsWord_named {rule : Rule} {p : Grammar α} (hp : ReadsWord p) : ReadsWord (named rule p) :=
  ⟨reads_named hp.opens, reads_named hp.closes⟩

theorem readsWord_map {p : Grammar α} {f : α → β} (hp : ReadsWord p) : ReadsWord (f <$> p) :=
  ⟨opens_map hp.opens, closes_map hp.closes⟩

theorem readsWord_seq {f : Grammar (α → β)} {p : Grammar α} (hf : Opens f) (hp : Closes p) : ReadsWord (f <*> p) :=
  ⟨opens_seq hf, closes_seq hp⟩

theorem readsWord_seqLeft {p : Grammar α} {q : Grammar β} (hp : Opens p) (hq : Closes q) : ReadsWord (p <* q) :=
  ⟨opens_seqLeft hp, closes_seqLeft hq⟩

theorem readsWord_spanned {p : Grammar (Span → α)} (hp : ReadsWord p) : ReadsWord (spanned p) :=
  readsWord_map ⟨opens_slice hp.opens, closes_slice hp.closes⟩

theorem readsWord_delimited {opening closing : String} {inner : Grammar α} (hopens : Opens (Peg.text opening))
    (hcloses : Closes (Peg.text closing)) : ReadsWord (delimited opening closing inner) := by
  have hword := readsWord_seq (opens_seq (p := inner <* blanks)
    (opens_map (f := fun left x right (whole : Slice) => Delimited.mk ⟨whole.span, left, right⟩ whole.text x)
      (opens_seqLeft (q := blanks) (opens_seqRight (q := flag (named .trimStart (.text "-"))) hopens))))
    (closes_seqLeft (p := flag (named .trimEnd (.text "-"))) hcloses)
  exact readsWord_map ⟨opens_slice hword.opens, closes_slice hword.closes⟩

theorem readsWord_tag (inner : Grammar α) : ReadsWord (delimited tagOpen tagClose inner) :=
  readsWord_delimited (@opens_text tagOpen '\x7b' ['%'] (by decide) (by decide))
    (@closes_text tagClose ['%'] '\x7d' (by decide) (by decide))

theorem readsWord_drop : ReadsWord drop :=
  readsWord_named (readsWord_map (readsWord_delimited (@opens_text dropOpen '\x7b' ['\x7b'] (by decide) (by decide))
    (@closes_text dropClose ['\x7d'] '\x7d' (by decide) (by decide))))

theorem readsWord_liquidTag : ReadsWord liquidTag := by
  refine readsWord_orElse ?_ (readsWord_orElse ?_ (readsWord_orElse ?_ ?_))
  · exact readsWord_named (readsWord_spanned (readsWord_seq
      (opens_seq (opens_map (reads_named (readsWord_tag _).opens))) (reads_named (readsWord_tag _).closes)))
  · exact readsWord_named (readsWord_map (readsWord_tag _))
  · exact readsWord_named (readsWord_map (readsWord_tag _))
  · exact readsWord_named (readsWord_map (readsWord_tag _))

theorem readsWord_liquid : ReadsWord liquid :=
  readsWord_orElse readsWord_liquidTag readsWord_drop

theorem readsWord_html : ReadsWord html := by
  have hopens {s : String} (rest : List Char) (hs : s.toList = '<' :: rest) : Opens (Peg.text s) :=
    opens_text hs (by decide)
  have hcloses {s : String} (before : List Char) (hs : s.toList = before ++ ['>']) : Closes (Peg.text s) :=
    closes_text hs (by decide)
  have hend : Closes (Peg.text ">") := hcloses [] (by decide)
  refine readsWord_orElse ?_ (readsWord_orElse ?_ (readsWord_orElse ?_ (readsWord_orElse ?_ ?_)))
  · exact readsWord_named (readsWord_spanned (readsWord_map (readsWord_seqLeft
      (opens_seqRight (hopens ['!', '-', '-'] (by decide))) (hcloses ['-', '-'] (by decide)))))
  · exact readsWord_named (readsWord_spanned (readsWord_map (readsWord_seqLeft
      (opens_seqRight (opens_seqRight (hopens ['!'] (by decide)))) hend)))
  · exact readsWord_named (readsWord_spanned (readsWord_seq
      (opens_seq (opens_map (reads_named (opens_slice
        (opens_seq (opens_map (opens_seqRight (hopens [] (by decide)))))))))
      (reads_named (closes_slice (closes_seqRight hend)))))
  · exact readsWord_named (readsWord_spanned (readsWord_map (readsWord_seqLeft
      (opens_seqLeft (opens_seqRight (hopens ['/'] (by decide)))) hend)))
  · exact readsWord_named (readsWord_spanned (readsWord_seq
      (opens_seq (opens_map (opens_seqRight (hopens [] (by decide)))))
      (reads_named (reads_orElse (closes_map (hcloses ['/'] (by decide))) (closes_map hend)))))

theorem readsWord_textRun : ReadsWord textRun where
  opens := reads_textRun_longest.imp fun c _ _ ⟨_, _, hopens, _⟩ => by
    have hfirst := (Bool.and_eq_true_iff.1 hopens).2
    cases hrest : c.rest with
    | nil => simp [hrest] at hfirst
    | cons x rest => exact ⟨x, rest, rfl, by simpa [hrest] using hfirst⟩
  closes := reads_textRun_longest.imp fun _ _ _ ⟨_, _, _, hends, _⟩ => hends

theorem readsWord_frontMatter : ReadsWord frontMatter :=
  readsWord_named (readsWord_spanned (readsWord_map (readsWord_seqLeft
    (opens_seqRight (@opens_text "---" '-' ['-', '-'] (by decide) (by decide)))
    (@closes_text "---" ['-', '-'] '-' (by decide) (by decide)))))

/-! ## Templates -/

theorem yields_isWord {s : List Char} {p : Grammar Token} (hword : ReadsWord p)
    (hplace : p.Reads fun c t d => t.Occupies c.offset d.offset) :
    p.Yields Forward (Cursor.IsIn s) fun t => Text.IsWord (Text.sliceChars s t.span) := by
  refine (soundRules s).yields (((reads_stepsTo p).and (hplace.and (hword.opens.and hword.closes))).imp ?_)
  rintro c t d ⟨⟨w, hw, hoffset⟩, ⟨hspan, -⟩, ⟨x, rest, hx, hxblank⟩, ⟨v, y, hy, hyblank⟩⟩ ⟨a, rfl, ha⟩
  have hslice : Text.sliceChars (a ++ c.rest) t.span = w := by
    rw [hspan, hoffset, ← ha, hw, Text.sliceChars, Text.slice?_append, Option.getD_some]
  have hlast : w = v ++ [y] := by
    have hsame : w ++ d.rest = (v ++ [y]) ++ d.rest := by rw [← hw, hy, List.append_assoc, List.singleton_append]
    exact List.append_cancel_right hsame
  rw [hslice]
  refine ⟨?_, v, y, hlast, hyblank⟩
  cases w with
  | nil => simp at hlast
  | cons z w =>
    rw [hw, List.cons_append] at hx
    exact ⟨z, w, rfl, (List.cons.inj hx).1 ▸ hxblank⟩

theorem yields_document_words (s : List Char) : document.Yields Forward (Cursor.IsIn s) fun ts =>
    ∀ t ∈ ts, Text.IsWord (Text.sliceChars s t.span) := by
  have htracks := (soundRules s).toTracks
  have hnode : node.Yields Forward (Cursor.IsIn s) fun t => Text.IsWord (Text.sliceChars s t.span) :=
    yields_orElse (yields_isWord readsWord_liquid reads_liquid)
      (yields_orElse (yields_isWord readsWord_html reads_html)
        (yields_isWord readsWord_textRun reads_textRun))
  have hfront := yields_seqLeft (yields_seqRight htracks blanks
    (yields_opt (yields_isWord (s := s) readsWord_frontMatter reads_frontMatter))) htracks blanks
  refine yields_named (yields_seq (yields_map hfront ?_)
    (yields_seqLeft (yields_many (yields_seqLeft hnode htracks blanks)) htracks _))
  intro front hfront nodes hnodes t ht
  rcases List.mem_append.1 ht with ht | ht
  · exact hfront t (Option.mem_toList.1 ht)
  · exact hnodes t ht

end Grammar

/-- **Every token of a template is a word**: no blank stands at its edges. -/
theorem isWord_of_ofSource {source : String} {tokens : List Token} (h : Token.ofSource source = .ok tokens) :
    ∀ t ∈ tokens, Text.IsWord (Text.sliceChars source.toList t.span) := by
  unfold Token.ofSource at h
  split at h
  next ts d a hrun =>
    cases h
    exact ((Grammar.yields_document_words _).of_run (Peg.forward_readNested _) hrun ⟨[], rfl, rfl⟩).1
  · cases h

end LiquidTemplate
