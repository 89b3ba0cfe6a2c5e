import LiquidTemplate.Proofs.Grammar.Places

/-!
# A template is its tokens and blanks

The tokens of a template stand one after the other, and what is between them is blank (`Tiles`). A text is as
long as it can be: it starts and ends with a character that is not blank, and after the blanks behind it no
further text could start. The main statement is `ofSource_tiles`.
-/

namespace LiquidTemplate

/-! ## Tilings -/

namespace Token

def isText : Token → Bool
  | text _ => true
  | _ => false

def isAttribute : Token → Bool
  | attr _ _ _ _ => true
  | _ => false

end Token

namespace Text

def opensWith (s : String) (cs : List Char) : Bool :=
  (stripStart? s.toList cs).isSome

/-- The characters start a Liquid tag or a drop, or may start an HTML tag. -/
def opensMarkup (cs : List Char) : Bool :=
  (stripStart? "<".toList cs).any (fun rest =>
    rest.head?.any (fun c => c.isAlpha || c == '/' || c == '!') || opensWith dropOpen rest) ||
  (opensWith dropOpen cs || opensWith tagOpen cs)

def opensText (cs : List Char) : Bool :=
  !opensMarkup cs && cs.head?.any (! isBlank ·)

end Text

/-- A token for a text that is as long as it can be before what follows it. -/
structure TextBefore (t : Token) (w rest : List Char) : Prop where
  spelled : t.written = String.ofList w
  opens : Text.opensText (w ++ rest) = true
  ends : ∃ v x, w = v ++ [x] ∧ Text.isBlank x = false
  longest : Text.opensText (rest.dropWhile Text.isBlank) = false

/-- Characters from an offset on are tokens and blanks between them, up to a tail that is left. -/
inductive Tiles : (offset : Nat) → (chars tail : List Char) → List Token → Prop where
  | nil {offset : Nat} {gap tail : List Char} (blank : gap.all Text.isBlank = true) : Tiles offset (gap ++ tail) tail []
  | cons {offset start : Nat} {gap w rest tail : List Char} {t : Token} {ts : List Token}
      (blank : gap.all Text.isBlank = true) (starts : start = offset + Text.byteSize gap)
      (place : t.Occupies start (start + Text.byteSize w)) (item : t.isAttribute = false)
      (text : t.isText = true → TextBefore t w rest) (more : Tiles (start + Text.byteSize w) rest tail ts) :
      Tiles offset (gap ++ (w ++ rest)) tail (t :: ts)

theorem Tiles.after_blanks {offset : Nat} {gap chars tail : List Char} {ts : List Token}
    (h : Tiles (offset + Text.byteSize gap) chars tail ts) (hgap : gap.all Text.isBlank = true) :
    Tiles offset (gap ++ chars) tail ts := by
  cases h with
  | nil blank =>
    rw [← List.append_assoc]
    exact .nil (by rw [List.all_append, hgap, blank, Bool.true_and])
  | cons blank starts place item text more =>
    rw [← List.append_assoc]
    refine .cons (by rw [List.all_append, hgap, blank, Bool.true_and]) ?_ place item text more
    rw [starts, Text.byteSize_append, Nat.add_assoc]

theorem Tiles.inside {offset : Nat} {chars tail : List Char} {ts : List Token} (h : Tiles offset chars tail ts) :
    Token.Inside offset (offset + Text.byteSize chars) ts := by
  induction h with
  | nil => exact Token.inside_nil (Nat.le_add_right _ _)
  | @cons offset start gap w rest tail t ts _ starts place _ _ _ ih =>
    obtain ⟨hstart, hstop, hplaced⟩ := place.within
    refine .cons (by omega) hstop hplaced (ih.widen (Nat.le_refl _) ?_)
    simp only [Text.byteSize_append]
    omega

namespace Grammar

open Peg Token

section

variable {recur : Cursor → Option (Expression × Cursor)} {c : Cursor}

theorem isSome_read_text {s : String} :
    ((Peg.text s : Grammar Unit).read recur c).isSome = Text.opensWith s c.rest := by
  simp [read_text, Cursor.skip?, Text.opensWith]

theorem isSome_read_char {q : Char → Bool} :
    ((Peg.char q : Grammar Char).read recur c).isSome = c.rest.head?.any q := by
  rw [read_char]
  cases c.rest with
  | nil => rfl
  | cons x rest => cases hq : q x <;> simp [hq]

/-! ## Blanks -/

theorem reads_manyBlank : (Peg.many (.char Text.isBlank) : Grammar (List Char)).Reads fun c _ d =>
    d.rest = c.rest.dropWhile Text.isBlank ∧ d.offset = c.offset + Text.byteSize (c.rest.takeWhile Text.isBlank) := by
  have hskipped : (Peg.many (.char Text.isBlank) : Grammar (List Char)).Reads fun c xs d =>
      c.rest = xs ++ d.rest ∧ d.offset = c.offset + Text.byteSize xs ∧ ∀ x ∈ xs, Text.isBlank x = true := by
    refine reads_many
      (P := fun c x d => c.rest = x :: d.rest ∧ d.offset = c.offset + x.utf8Size ∧ Text.isBlank x = true)
      (reads_char fun c d x hrest hoffset hx => ⟨hrest, hoffset, hx⟩) (fun c => ⟨rfl, rfl, by simp⟩) ?_
    rintro c x d xs e ⟨hrest, hoffset, hx⟩ ⟨hrest', hoffset', hxs⟩
    refine ⟨by rw [hrest, hrest', List.cons_append], ?_, List.forall_mem_cons.2 ⟨hx, hxs⟩⟩
    rw [hoffset', hoffset, Text.byteSize, Nat.add_assoc]
  have hstops : (Peg.many (.char Text.isBlank) : Grammar (List Char)).Reads fun _ _ d =>
      d.rest.head?.any Text.isBlank = false := by
    refine reads_many_stops consumes_char fun recur _ d hnone => ?_
    rw [← @isSome_read_char recur, hnone, Option.isSome_none]
  refine (hskipped.and hstops).imp ?_
  rintro c xs d ⟨⟨hrest, hoffset, hxs⟩, hstop⟩
  obtain ⟨hdrop, htake⟩ : d.rest.dropWhile Text.isBlank = d.rest ∧ d.rest.takeWhile Text.isBlank = [] := by
    cases hd : d.rest with
    | nil => exact ⟨rfl, rfl⟩
    | cons x rest =>
      have hx : Text.isBlank x = false := by simpa [hd] using hstop
      simp [hx]
  rw [hrest, List.dropWhile_append_of_pos hxs, List.takeWhile_append_of_pos hxs, hdrop, htake, List.append_nil]
  exact ⟨rfl, hoffset⟩

theorem reads_blanks : blanks.Reads fun c _ d =>
    d.rest = c.rest.dropWhile Text.isBlank ∧ d.offset = c.offset + Text.byteSize (c.rest.takeWhile Text.isBlank) :=
  reads_map reads_manyBlank

theorem reads_blanks1 : blanks1.Reads fun c _ d => d.rest = c.rest.dropWhile Text.isBlank := by
  refine reads_map (reads_seq (reads_map (reads_char ?_)) reads_manyBlank)
  rintro c d x hrest - hx xs e ⟨hdrop, -⟩
  rw [hdrop, hrest, List.dropWhile_cons_of_pos hx]

/-! ## Texts -/

theorem isSome_read_markupStart :
    ((htmlStart <|> liquidStart : Grammar Unit).read recur c).isSome = Text.opensMarkup c.rest := by
  have hhtml : (htmlStart.read recur c).isSome = (Text.stripStart? "<".toList c.rest).any fun rest =>
      rest.head?.any (fun c => c.isAlpha || c == '/' || c == '!') || Text.opensWith dropOpen rest := by
    rw [htmlStart, read_seqRight, read_text, Cursor.skip?]
    cases Text.stripStart? "<".toList c.rest with
    | none => rfl
    | some rest =>
      simp only [Option.map_some, Option.bind_some, Option.any_some, read_orElse, Option.isSome_or, read_giving,
        Option.isSome_map, isSome_read_char, isSome_read_text]
  simp only [liquidStart, read_orElse, Option.isSome_or, hhtml, isSome_read_text, Text.opensMarkup]

theorem isSome_read_textChar : (textChar.read recur c).isSome = Text.opensText c.rest := by
  rw [textChar, read_seqRight]
  simp only [read_notAhead, isSome_read_markupStart, Text.opensText]
  cases Text.opensMarkup c.rest with
  | true => rfl
  | false => simpa using isSome_read_char

end

/-- The characters between two cursors end with one that is not blank. -/
def EndsInText (c d : Cursor) : Prop :=
  ∃ w x, c.rest = w ++ x :: d.rest ∧ Text.isBlank x = false

theorem EndsInText.of_stepsTo {c d e : Cursor} (h : c.StepsTo d) (h' : EndsInText d e) : EndsInText c e := by
  obtain ⟨v, hv, -⟩ := h
  obtain ⟨w, x, hw, hx⟩ := h'
  exact ⟨v ++ w, x, by rw [hv, hw, List.append_assoc], hx⟩

theorem reads_textChar : textChar.Reads fun c x d =>
    Text.opensText c.rest = true ∧ c.rest = x :: d.rest ∧ Text.isBlank x = false := by
  refine ReadsGiven.and ?_ ?_
  · intro recur _ c x d hread
    rw [← @isSome_read_textChar recur, hread, Option.isSome_some]
  · refine reads_seqRight (reads_notAhead fun _ c _ y e h => h) (reads_char fun c d x hrest _ hx => ?_)
    exact ⟨hrest, by simpa using hx⟩

theorem reads_word : (many1 textChar).Reads fun c _ d =>
    Text.opensText c.rest = true ∧ EndsInText c d ∧ Text.opensText d.rest = false := by
  have hmany : (Peg.many textChar).Reads fun c _ d => c.rest = d.rest ∨ EndsInText c d := by
    refine reads_many reads_textChar (fun c => .inl rfl) ?_
    rintro c x d xs e ⟨-, hrest, hx⟩ (hd | ⟨w, y, hw, hy⟩)
    · exact .inr ⟨[], x, by rw [hrest, hd, List.nil_append], hx⟩
    · exact .inr ⟨x :: w, y, by rw [hrest, hw, List.cons_append], hy⟩
  have hstops : (Peg.many textChar).Reads fun _ _ d => Text.opensText d.rest = false := by
    refine reads_many_stops consumes_textChar fun recur _ d hnone => ?_
    rw [← @isSome_read_textChar recur, hnone, Option.isSome_none]
  refine reads_seq (reads_map (reads_textChar.imp ?_)) (hmany.and hstops)
  rintro c x d ⟨hopens, hrest, hx⟩ xs e ⟨hd | ⟨w, y, hw, hy⟩, hstop⟩
  · exact ⟨hopens, ⟨[], x, by rw [hrest, hd, List.nil_append], hx⟩, hstop⟩
  · exact ⟨hopens, ⟨x :: w, y, by rw [hrest, hw, List.cons_append], hy⟩, hstop⟩

theorem reads_words : (Peg.many (blanks1 *> many1 textChar)).Reads fun c _ d =>
    Text.opensText c.rest = false → (c.rest = d.rest ∨ EndsInText c d) ∧
      Text.opensText (d.rest.dropWhile Text.isBlank) = false := by
  have hstep : (blanks1 *> many1 textChar).Reads fun c _ d => EndsInText c d ∧ Text.opensText d.rest = false :=
    reads_seqRight ((reads_stepsTo blanks1).imp fun c _ d h y e ⟨_, hends, hstop⟩ => ⟨.of_stepsTo h hends, hstop⟩)
      reads_word
  have hconsumes : (blanks1 *> many1 textChar).Consumes :=
    consumes_seqRight (consumes_map (consumes_many1 consumes_char))
  have hmany : (Peg.many (blanks1 *> many1 textChar)).Reads fun c _ d =>
      Text.opensText c.rest = false → (c.rest = d.rest ∨ EndsInText c d) ∧ Text.opensText d.rest = false := by
    refine reads_many (hstep.and (reads_stepsTo _)) (fun c h => ⟨.inl rfl, h⟩) ?_
    rintro c x d xs e ⟨⟨hends, hstop⟩, hsteps⟩ hmore -
    obtain ⟨hd | hd, hstop'⟩ := hmore hstop
    · obtain ⟨w, y, hw, hy⟩ := hends
      exact ⟨.inr ⟨w, y, by rw [hw, hd], hy⟩, hstop'⟩
    · exact ⟨.inr (.of_stepsTo hsteps hd), hstop'⟩
  -- where the words end, either no blank follows, or no text after the blanks
  have hstops : (Peg.many (blanks1 *> many1 textChar)).Reads fun _ _ d =>
      d.rest.head?.any Text.isBlank = true → Text.opensText (d.rest.dropWhile Text.isBlank) = false := by
    refine reads_many_stops hconsumes fun recur hrecur d hnone hblank => ?_
    rw [read_seqRight] at hnone
    cases hblanks : blanks1.read recur d with
    | none =>
      rw [blanks1, read_giving, Option.map_eq_none_iff, read_many1_eq_none] at hblanks
      rw [← @isSome_read_char recur, hblanks] at hblank
      cases hblank
    | some r =>
      obtain ⟨⟨⟩, e⟩ := r
      rw [hblanks, Option.bind_some, read_many1_eq_none] at hnone
      rw [← reads_blanks1 recur hrecur d () e hblanks, ← @isSome_read_textChar recur, hnone, Option.isSome_none]
  refine (hmany.and hstops).imp ?_
  rintro c xs d ⟨hmore, hstop⟩ hopens
  obtain ⟨hends, hnext⟩ := hmore hopens
  refine ⟨hends, ?_⟩
  cases hblank : d.rest.head?.any Text.isBlank with
  | true => exact hstop hblank
  | false =>
    cases hd : d.rest with
    | nil => rfl
    | cons x rest =>
      have hx : Text.isBlank x = false := by simpa [hd] using hblank
      rw [List.dropWhile_cons_of_neg (by simp [hx]), ← hd]
      exact hnext

theorem reads_textRun_longest : textRun.Reads fun c t d =>
    t.isAttribute = false ∧ t.written = String.ofList (c.charsTo d) ∧ Text.opensText c.rest = true ∧
      EndsInText c d ∧ Text.opensText (d.rest.dropWhile Text.isBlank) = false := by
  refine reads_atom (reads_map (reads_slice (reads_seqRight (reads_word.imp ?_) reads_words)))
  rintro c - d ⟨hopens, ⟨w, x, hw, hx⟩, hstop⟩ - e hmore
  obtain ⟨hd | ⟨v, y, hv, hy⟩, hlongest⟩ := hmore hstop
  · exact ⟨rfl, rfl, hopens, ⟨w, x, by rw [hw, hd], hx⟩, hlongest⟩
  · exact ⟨rfl, rfl, hopens, ⟨w ++ x :: v, y, by rw [hw, hv, List.append_assoc, List.cons_append], hy⟩, hlongest⟩

/-! ## Markup -/

/-- Neither a text nor an attribute. -/
def IsMarkup (t : Token) : Prop :=
  t.isAttribute = false ∧ t.isText = false

theorem isMarkup_drop : drop.Reads fun _ t _ => IsMarkup t :=
  reads_named (reads_map ((reads_true _).imp fun _ _ _ _ => ⟨rfl, rfl⟩))

theorem isMarkup_liquidTag : liquidTag.Reads fun _ t _ => IsMarkup t := by
  refine reads_orElse ?_ (reads_orElse ?_ (reads_orElse ?_ ?_))
  · refine reads_named (reads_spanned (reads_seq (reads_seq (reads_map ?_) (reads_true _)) (reads_true _)))
    exact (reads_true _).imp fun _ _ _ _ _ _ _ _ _ _ => ⟨rfl, rfl⟩
  all_goals exact reads_named (reads_map ((reads_true _).imp fun _ _ _ _ => ⟨rfl, rfl⟩))

theorem isMarkup_liquid : liquid.Reads fun _ t _ => IsMarkup t :=
  reads_orElse isMarkup_liquidTag isMarkup_drop

theorem isMarkup_ofOpening (span : Span) (name attributes : List Token) (slash : Bool) :
    IsMarkup (ofOpening span name attributes slash) := by
  unfold ofOpening
  split
  · exact ⟨rfl, rfl⟩
  · split
    · split <;> exact ⟨rfl, rfl⟩
    · exact ⟨rfl, rfl⟩

theorem isMarkup_html : html.Reads fun _ t _ => IsMarkup t := by
  refine reads_orElse ?_ (reads_orElse ?_ (reads_orElse ?_ (reads_orElse ?_ ?_)))
  · exact reads_named (reads_spanned (reads_map ((reads_true _).imp fun _ _ _ _ => ⟨rfl, rfl⟩)))
  · exact reads_named (reads_spanned (reads_map ((reads_true _).imp fun _ _ _ _ => ⟨rfl, rfl⟩)))
  · refine reads_named (reads_spanned (reads_seq (reads_seq (reads_map ?_) (reads_true _)) (reads_true _)))
    exact (reads_true _).imp fun _ _ _ _ _ _ _ _ _ _ => ⟨rfl, rfl⟩
  · exact reads_named (reads_spanned (reads_map ((reads_true _).imp fun _ _ _ _ => ⟨rfl, rfl⟩)))
  · refine reads_named (reads_spanned (reads_seq (reads_seq (reads_map ?_) (reads_true _)) (reads_true _)))
    exact (reads_true _).imp fun _ _ _ _ _ _ _ _ _ _ => isMarkup_ofOpening _ _ _ _

/-! ## Documents -/

/-- A token that covers the characters between two cursors. If it is a text, it is as long as it can be. -/
def IsTile (c : Cursor) (t : Token) (d : Cursor) : Prop :=
  ∃ w, c.rest = w ++ d.rest ∧ d.offset = c.offset + Text.byteSize w ∧ t.Occupies c.offset (c.offset + Text.byteSize w) ∧
    t.isAttribute = false ∧ (t.isText = true → TextBefore t w d.rest)

theorem isTile_of_isMarkup {c d : Cursor} {t : Token} (hsteps : c.StepsTo d) (hplace : t.Occupies c.offset d.offset)
    (hmarkup : IsMarkup t) : IsTile c t d := by
  obtain ⟨w, hw, hoffset⟩ := hsteps
  exact ⟨w, hw, hoffset, hoffset ▸ hplace, hmarkup.1, fun htext => by simp [hmarkup.2] at htext⟩

theorem isTile_textRun : textRun.Reads IsTile := by
  refine ((reads_stepsTo textRun).and (reads_textRun.and reads_textRun_longest)).imp ?_
  rintro c t d ⟨⟨w, hw, hoffset⟩, hplace, hitem, hwritten, hopens, ⟨v, x, hv, hx⟩, hlongest⟩
  have hchars : c.charsTo d = w := by simp [Cursor.charsTo, hw]
  refine ⟨w, hw, hoffset, hoffset ▸ hplace, hitem, fun _ =>
    ⟨hchars ▸ hwritten, hw ▸ hopens, ⟨v, x, ?_, hx⟩, hlongest⟩⟩
  have hsame : w ++ d.rest = (v ++ [x]) ++ d.rest := by rw [← hw, hv, List.append_assoc, List.singleton_append]
  exact List.append_cancel_right hsame

theorem isTile_node : node.Reads IsTile := by
  have hliquid : liquid.Reads IsTile :=
    ((reads_stepsTo liquid).and (reads_liquid.and isMarkup_liquid)).imp fun _ _ _ ⟨hsteps, hplace, hmarkup⟩ =>
      isTile_of_isMarkup hsteps hplace hmarkup
  have hhtml : html.Reads IsTile :=
    ((reads_stepsTo html).and (reads_html.and isMarkup_html)).imp fun _ _ _ ⟨hsteps, hplace, hmarkup⟩ =>
      isTile_of_isMarkup hsteps hplace hmarkup
  exact reads_orElse hliquid (reads_orElse hhtml isTile_textRun)

theorem isTile_frontMatter : frontMatter.Reads IsTile := by
  have hmarkup : frontMatter.Reads fun _ t _ => IsMarkup t :=
    reads_named (reads_spanned (reads_map ((reads_true _).imp fun _ _ _ _ => ⟨rfl, rfl⟩)))
  exact ((reads_stepsTo frontMatter).and (reads_frontMatter.and hmarkup)).imp fun _ _ _ ⟨hsteps, hplace, hmarkup⟩ =>
    isTile_of_isMarkup hsteps hplace hmarkup

theorem tiles_of_blanks {c d : Cursor} {tail : List Char} {ts : List Token}
    (hblanks : d.rest = c.rest.dropWhile Text.isBlank ∧
      d.offset = c.offset + Text.byteSize (c.rest.takeWhile Text.isBlank))
    (h : Tiles d.offset d.rest tail ts) : Tiles c.offset c.rest tail ts := by
  rw [hblanks.2] at h
  have := h.after_blanks (List.all_takeWhile)
  rwa [hblanks.1, List.takeWhile_append_dropWhile] at this

theorem tiles_of_isTile {c d : Cursor} {tail : List Char} {t : Token} {ts : List Token} (ht : IsTile c t d)
    (h : Tiles d.offset d.rest tail ts) : Tiles c.offset c.rest tail (t :: ts) := by
  obtain ⟨w, hw, hoffset, hplace, hitem, htext⟩ := ht
  rw [hoffset] at h
  rw [hw, ← List.nil_append (w ++ d.rest)]
  exact .cons rfl rfl hplace hitem htext h

theorem reads_document_tiles : document.Reads fun c ts _ => Tiles c.offset c.rest [] ts := by
  have hitem : (node <* blanks).Reads fun c t d => ∀ ts tail,
      Tiles d.offset d.rest tail ts → Tiles c.offset c.rest tail (t :: ts) :=
    reads_seqLeft (isTile_node.imp fun c t d ht _ e hblanks ts tail hts =>
      tiles_of_isTile ht (tiles_of_blanks hblanks hts)) reads_blanks
  have hnodes : (Peg.many (node <* blanks)).Reads fun c ts d => Tiles c.offset c.rest d.rest ts :=
    reads_many hitem (fun c => @Tiles.nil c.offset [] c.rest rfl) fun c t d ts e h hts => h ts e.rest hts
  have hend : (Peg.many (node <* blanks) <* named .endOfInput .done).Reads fun c ts _ =>
      Tiles c.offset c.rest [] ts :=
    reads_seqLeft (Q := fun c _ _ => c.rest = []) (hnodes.imp fun c ts d h _ e hd => hd ▸ h)
      (reads_named (reads_done fun c h => h))
  have hfront : (opt frontMatter).Reads fun c front d => ∀ ts tail,
      Tiles d.offset d.rest tail ts → Tiles c.offset c.rest tail (front.toList ++ ts) :=
    reads_opt (isTile_frontMatter.imp fun c t d ht ts tail hts => tiles_of_isTile ht hts) fun c ts tail hts => hts
  have hstart : (blanks *> opt frontMatter <* blanks).Reads fun c front d => ∀ ts tail,
      Tiles d.offset d.rest tail ts → Tiles c.offset c.rest tail (front.toList ++ ts) := by
    refine reads_seqLeft (reads_seqRight (reads_blanks.imp ?_) hfront) reads_blanks
    intro c _ d hblanks front e hfront _ f hblanks' ts tail hts
    exact tiles_of_blanks hblanks (hfront ts tail (tiles_of_blanks hblanks' hts))
  exact reads_named (reads_seq (reads_map (hstart.imp fun c front d h ts e hts => h ts [] hts)) hend)

end Grammar

/-- A template is its tokens and blanks between them. -/
theorem Token.ofSource_tiles {source : String} {ts : List Token} (h : ofSource source = .ok ts) :
    Tiles 0 source.toList [] ts := by
  unfold ofSource at h
  split at h
  next tokens d attempts hrun =>
    cases h
    exact Grammar.reads_document_tiles.of_run hrun
  · cases h

end LiquidTemplate
