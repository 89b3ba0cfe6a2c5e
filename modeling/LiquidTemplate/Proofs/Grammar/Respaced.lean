import LiquidTemplate.Proofs.Grammar.Edges
import LiquidTemplate.Proofs.Nesting.Moved
import LiquidTemplate.Proofs.Print.Settled
import LiquidTemplate.Proofs.Print.Spaced

/-!
# Templates of the same tokens

Two templates of the same tokens with other blanks between them (`Respaced`). They consist of the same words, one for
each token (`Respaced.exists_spaced`), so there is a respacing from one to the other that takes the tokens of the first
template to those of the second one (`Respaced.exists_respacing`).
-/

namespace LiquidTemplate

/-! ## Words with runs between them -/

namespace Text

/-- The text of words, each after a run. -/
def joined (ps : List (List Char × List Char)) : List Char :=
  ps.flatMap fun p => p.1 ++ p.2

def wordSpans (start : Nat) : List (List Char × List Char) → List Span
  | [] => []
  | (run, word) :: ps =>
    ⟨start + byteSize run, start + byteSize run + byteSize word⟩ :: wordSpans (start + byteSize run + byteSize word) ps

@[simp] theorem joined_cons (run word : List Char) (ps : List (List Char × List Char)) :
    joined ((run, word) :: ps) = run ++ (word ++ joined ps) := by
  simp [joined]

theorem map_sliceChars_wordSpans (before : List Char) (ps : List (List Char × List Char)) (rest : List Char) :
    (wordSpans (byteSize before) ps).map (sliceChars (before ++ (joined ps ++ rest))) = ps.map (·.2) := by
  induction ps generalizing before with
  | nil => rfl
  | cons p ps ih =>
    obtain ⟨run, word⟩ := p
    have hword := sliceChars_append (before ++ run) word (joined ps ++ rest)
    have hrest := ih (before ++ run ++ word)
    simp only [byteSize_append, List.append_assoc, Nat.add_assoc] at hword hrest
    simp only [wordSpans, List.map_cons, joined_cons, List.append_assoc, hword, hrest, Nat.add_assoc]

theorem zipWith_sliceChars_wordSpans (before : List Char) (ps : List (List Char × List Char)) (rest : List Char) :
    List.zipWith (fun s t => sliceChars (before ++ (joined ps ++ rest)) ⟨s.stop, t.start⟩)
      (wordSpans (byteSize before) ps) (wordSpans (byteSize before) ps).tail = ps.tail.map (·.1) := by
  induction ps generalizing before with
  | nil => rfl
  | cons p ps ih =>
    obtain ⟨run, word⟩ := p
    cases ps with
    | nil => rfl
    | cons p ps =>
      obtain ⟨run', word'⟩ := p
      have hrun := sliceChars_append (before ++ run ++ word) run' (word' ++ (joined ps ++ rest))
      have hrest := ih (before ++ run ++ word)
      simp only [byteSize_append, joined_cons, List.append_assoc, Nat.add_assoc, wordSpans,
        List.tail_cons] at hrun hrest
      simp only [wordSpans, joined_cons, List.append_assoc, Nat.add_assoc, List.tail_cons, List.zipWith_cons_cons, hrun,
        hrest, List.map_cons]

end Text

/-- The words of a tiling are those of its tokens. -/
theorem Tiles.exists_joined {offset : Nat} {chars tail : List Char} {ts : List Token} (h : Tiles offset chars tail ts) :
    ∃ ps rest, chars = Text.joined ps ++ (rest ++ tail) ∧ ts.map Token.span = Text.wordSpans offset ps ∧
      ∀ p ∈ ps, p.1.all Text.isBlank = true := by
  induction h with
  | @nil offset gap tail blank => exact ⟨[], gap, rfl, rfl, by simp⟩
  | @cons offset start gap w rest tail t ts blank starts place _ _ _ ih =>
    obtain ⟨ps, rest', rfl, hspans, hblank⟩ := ih
    refine ⟨(gap, w) :: ps, rest', by simp, ?_, List.forall_mem_cons.2 ⟨blank, hblank⟩⟩
    rw [List.map_cons, hspans, place.1, starts, Text.wordSpans]

namespace Spaced

open Text

theorem exists_of_words {ps ps' : List (List Char × List Char)} (h : ps.map (·.2) = ps'.map (·.2)) :
    ∃ xs : List Spaced, ps = xs.map (fun x => (x.run, x.word)) ∧ ps' = xs.map (fun x => (x.run', x.word)) := by
  induction ps generalizing ps' with
  | nil =>
    cases ps' with
    | nil => exact ⟨[], rfl, rfl⟩
    | cons p' ps' => cases h
  | cons p ps ih =>
    cases ps' with
    | nil => cases h
    | cons p' ps' =>
      obtain ⟨run, word⟩ := p
      obtain ⟨run', word'⟩ := p'
      obtain ⟨hword, hrest⟩ := List.cons.inj h
      obtain rfl : word = word' := hword
      obtain ⟨xs, rfl, rfl⟩ := ih hrest
      exact ⟨⟨run, run', word⟩ :: xs, rfl, rfl⟩

theorem joined_old (xs : List Spaced) : joined (xs.map fun x => (x.run, x.word)) = old xs := by
  simp [joined, old, List.flatMap_map]

theorem joined_new (xs : List Spaced) : joined (xs.map fun x => (x.run', x.word)) = new xs := by
  simp [joined, new, List.flatMap_map]

theorem byteSize_old_concat (pre : List Spaced) (x : Spaced) :
    byteSize (old (pre ++ [x])) = byteSize (old pre) + byteSize x.run + byteSize x.word := by
  simp [old, Nat.add_assoc]

theorem byteSize_new_concat (pre : List Spaced) (x : Spaced) :
    byteSize (new (pre ++ [x])) = byteSize (new pre) + byteSize x.run' + byteSize x.word := by
  simp [new, Nat.add_assoc]

theorem map_moved_wordSpans (pre post : List Spaced) (hxs : Match (pre ++ post)) :
    (wordSpans (byteSize (old pre)) (post.map fun x => (x.run, x.word))).map (Span.moved (shift (pre ++ post))) =
      wordSpans (byteSize (new pre)) (post.map fun x => (x.run', x.word)) := by
  induction post generalizing pre with
  | nil => rfl
  | cons x post ih =>
    have hstart := (at_of_word pre x post (List.nil_append x.word).symm).shift_eq hxs
    have hstop := (at_of_word pre x post (List.append_nil x.word).symm).shift_eq hxs
    have hrest := ih (pre ++ [x]) (by simpa using hxs)
    simp only [List.append_nil, byteSize_append, ← Nat.add_assoc] at hstart hstop
    simp only [byteSize_old_concat, byteSize_new_concat, List.append_assoc, List.singleton_append] at hrest
    simp only [List.map_cons, wordSpans, Span.moved, hstart, hstop, hrest]

theorem exists_of_mem_wordSpans {span : Span} (pre post : List Spaced)
    (h : span ∈ wordSpans (byteSize (old pre)) (post.map fun x => (x.run, x.word))) :
    ∃ before x after, pre ++ post = before ++ x :: after ∧
      span = ⟨byteSize (old before ++ x.run), byteSize (old before ++ x.run) + byteSize x.word⟩ := by
  induction post generalizing pre with
  | nil => cases h
  | cons x post ih =>
    rcases List.mem_cons.1 h with rfl | h
    · exact ⟨pre, x, post, rfl, by rw [byteSize_append]⟩
    · rw [← byteSize_old_concat] at h
      obtain ⟨before, y, after, hsplit, hspan⟩ := ih (pre ++ [x]) h
      exact ⟨before, y, after, by simpa using hsplit, hspan⟩

end Spaced

/-! ## Respaced templates -/

/-- A token as if it stood at the start of a template. -/
def Token.atOrigin (t : Token) : Token :=
  t.moved (· - t.span.start)

/-- What stands between neighbouring tokens. -/
def Token.runs (source : String) (tokens : List Token) : List (List Char) :=
  List.zipWith (fun t u => Text.sliceChars source.toList ⟨t.span.stop, u.span.start⟩) tokens tokens.tail

/-- **Two templates of the same tokens**, with the same texts. What stands between two tokens may differ within its
class, and the blanks at the two ends may differ in any way. -/
structure Respaced (source source' : String) (tokens tokens' : List Token) : Prop where
  same : tokens.map Token.atOrigin = tokens'.map Token.atOrigin
  texts : (tokens.map fun t => Text.sliceChars source.toList t.span) =
    tokens'.map fun t => Text.sliceChars source'.toList t.span
  runs : (Token.runs source tokens).map Text.runClass = (Token.runs source' tokens').map Text.runClass

theorem Tiles.exists_words {source : String} {tokens : List Token} (h : Tiles 0 source.toList [] tokens) :
    ∃ ps rest, source.toList = Text.joined ps ++ rest ∧ tokens.map Token.span = Text.wordSpans 0 ps ∧
      (∀ p ∈ ps, p.1.all Text.isBlank = true) ∧
      (tokens.map fun t => Text.sliceChars source.toList t.span) = ps.map (·.2) ∧
      Token.runs source tokens = ps.tail.map (·.1) := by
  obtain ⟨ps, rest, hsource, hspans, hblank⟩ := h.exists_joined
  rw [List.append_nil] at hsource
  have hwords := Text.map_sliceChars_wordSpans [] ps rest
  have hruns := Text.zipWith_sliceChars_wordSpans [] ps rest
  rw [List.nil_append, ← hsource, Text.byteSize, ← hspans] at hwords hruns
  rw [List.map_map] at hwords
  rw [← List.map_tail, List.zipWith_map] at hruns
  exact ⟨ps, rest, hsource, hspans, hblank, hwords, hruns⟩

/-- Respaced templates are the same words with runs of the same classes between them. -/
theorem Respaced.exists_spaced {source source' : String} {tokens tokens' : List Token}
    (h : Respaced source source' tokens tokens') (htokens : Token.ofSource source = .ok tokens)
    (htokens' : Token.ofSource source' = .ok tokens') :
    ∃ (xs : List Spaced) (tail tail' : List Char), Spaced.Match xs ∧ source.toList = Spaced.old xs ++ tail ∧
      source'.toList = Spaced.new xs ++ tail' ∧
      tokens.map Token.span = Text.wordSpans 0 (xs.map fun x => (x.run, x.word)) ∧
      tokens'.map Token.span = Text.wordSpans 0 (xs.map fun x => (x.run', x.word)) := by
  obtain ⟨ps, tail, hsource, hspans, hblank, hwords, hruns⟩ := (Token.ofSource_tiles htokens).exists_words
  obtain ⟨ps', tail', hsource', hspans', hblank', hwords', hruns'⟩ := (Token.ofSource_tiles htokens').exists_words
  have hword : ∀ w ∈ ps.map (·.2), Text.IsWord w := by
    rw [← hwords, List.forall_mem_map]
    exact isWord_of_ofSource htokens
  have hclasses := h.runs
  rw [hruns, hruns'] at hclasses
  obtain ⟨xs, rfl, rfl⟩ := Spaced.exists_of_words (hwords.symm.trans (h.texts.trans hwords'))
  rw [Spaced.joined_old] at hsource
  rw [Spaced.joined_new] at hsource'
  refine ⟨xs, tail, tail', ⟨fun x hx => ⟨?_, ?_, ?_⟩, fun x hx => Text.sameClass_of_runClass ?_⟩, hsource, hsource',
    hspans, hspans'⟩
  · exact hblank _ (List.mem_map_of_mem hx)
  · exact hblank' _ (List.mem_map_of_mem hx)
  · exact hword _ (by simpa using ⟨x, hx, rfl⟩)
  · simp only [← List.map_tail, List.map_map] at hclasses
    exact List.map_inj_left.1 hclasses x hx

/-! ## Moved tokens -/

theorem everywhere_inWord {source : String} {tokens : List Token} (htokens : Token.ofSource source = .ok tokens)
    {t : Token} (ht : t ∈ tokens) {pre post : List Spaced} {x : Spaced} {tail : List Char}
    (hsource : source.toList = Spaced.old (pre ++ x :: post) ++ tail)
    (hspan : t.span = ⟨Text.byteSize (Spaced.old pre ++ x.run),
      Text.byteSize (Spaced.old pre ++ x.run) + Text.byteSize x.word⟩) :
    t.Everywhere fun u => u.span.EndsIn (Spaced.InWord pre x) := by
  have hplaced := ((Token.ofSource_tiles htokens).inside.2 t ht).everywhere (Nat.le_refl _) (Nat.le_refl _)
  have hsplit : source.toList = (Spaced.old pre ++ x.run) ++ (x.word ++ (Spaced.old post ++ tail)) := by
    rw [hsource, (Spaced.at_of_word pre x post (List.nil_append x.word).symm).old_eq]
    simp only [List.append_assoc, List.nil_append]
  have hword {i : Nat} (hi : Text.IsBoundary source.toList i) (hstart : t.span.start ≤ i) (hstop : i ≤ t.span.stop) :
      Spaced.InWord pre x i := by
    rw [hspan] at hstart hstop
    rw [hsplit] at hi
    obtain ⟨u, v, hword, rfl⟩ := hi.exists_split hstart hstop
    exact ⟨u, v, hword, by rw [List.append_assoc]⟩
  refine ((sound_of_ofSource htokens t ht).and hplaced).imp fun u ⟨hsound, hstart, hstop⟩ => ?_
  exact ⟨hword hsound.ends.1 hstart.1 hstart.2, hword hsound.ends.2 hstop.1 hstop.2⟩

/-- The same token in two places, where all its offsets are moved by the same distance. -/
theorem moved_eq_of_atOrigin {f : Nat → Nat} {t t' : Token} (h : t.atOrigin = t'.atOrigin)
    (hstart : f t.span.start = t'.span.start)
    (ht : t.Everywhere fun u => u.span.EndsIn fun i => t.span.start ≤ i ∧ f i + t.span.start = f t.span.start + i)
    (ht' : t'.Placed) : t.moved f = t'.moved id := by
  have hf : t.moved f = t.moved ((· + t'.span.start) ∘ (· - t.span.start)) := by
    refine Token.Everywhere.moved_congr (ht.imp fun u hu => ?_)
    obtain ⟨⟨hle, hmove⟩, hle', hmove'⟩ := hu
    simp only [Span.moved, Function.comp_apply, Span.mk.injEq]
    omega
  have hid : t'.moved id = t'.moved ((· + t'.span.start) ∘ (· - t'.span.start)) := by
    refine Token.Everywhere.moved_congr ((ht'.everywhere (Nat.le_refl _) (Nat.le_refl _)).imp fun u hu => ?_)
    obtain ⟨⟨hle, -⟩, hle', -⟩ := hu
    simp only [Span.moved, Function.comp_apply, id, Span.mk.injEq]
    omega
  rw [hf, hid, ← Token.moved_moved, ← Token.moved_moved]
  exact congrArg (Token.moved (· + t'.span.start)) h

theorem map_moved_eq {f : Nat → Nat} {ts ts' : List Token} (h : ts.map Token.atOrigin = ts'.map Token.atOrigin)
    (hspans : (ts.map Token.span).map (Span.moved f) = ts'.map Token.span)
    (hts : ∀ t ∈ ts, t.Everywhere fun u => u.span.EndsIn fun i =>
      t.span.start ≤ i ∧ f i + t.span.start = f t.span.start + i)
    (hts' : ∀ t ∈ ts', t.Placed) : ts.map (Token.moved f) = ts'.map (Token.moved id) := by
  induction ts generalizing ts' with
  | nil =>
    cases ts' with
    | nil => rfl
    | cons t' ts' => cases h
  | cons t ts ih =>
    cases ts' with
    | nil => cases h
    | cons t' ts' =>
      obtain ⟨ht, hts⟩ := List.forall_mem_cons.1 hts
      obtain ⟨ht', hts'⟩ := List.forall_mem_cons.1 hts'
      obtain ⟨hfirst, hrest⟩ := List.cons.inj h
      obtain ⟨hspan, hspans⟩ := List.cons.inj hspans
      rw [List.map_cons, List.map_cons, ih hrest hspans hts hts',
        moved_eq_of_atOrigin hfirst (congrArg Span.start hspan) ht ht']

theorem Text.inOrder_wordSpans (start : Nat) (ps : List (List Char × List Char)) :
    Span.InOrder start (start + byteSize (joined ps)) (wordSpans start ps) := by
  induction ps generalizing start with
  | nil => exact Nat.le_refl _
  | cons p ps ih =>
    obtain ⟨run, word⟩ := p
    refine ⟨Nat.le_add_right _ _, Nat.le_add_right _ _, ?_⟩
    have hrest := ih (start + byteSize run + byteSize word)
    simpa only [joined_cons, byteSize_append, Nat.add_assoc] using hrest

/-- **There is a respacing between templates of the same tokens.** It moves each token as a whole, to the token of the
other template, and what is between the first and the last token is not at the ends. -/
theorem Respaced.exists_respacing {source source' : String} {tokens tokens' : List Token}
    (h : Respaced source source' tokens tokens') (htokens : Token.ofSource source = .ok tokens)
    (htokens' : Token.ofSource source' = .ok tokens') :
    ∃ r : Respacing source.toList source'.toList, (∀ t ∈ tokens, t.MovesWith r) ∧
      tokens.map (Token.moved r.move) = tokens'.map (Token.moved id) ∧
      ∃ lo hi, Token.Inside lo hi tokens ∧ ∀ i, r.anchor i → lo < i → i < hi → r.inner i := by
  obtain ⟨xs, tail, tail', hxs, hsource, hsource', hspans, hspans'⟩ := h.exists_spaced htokens htokens'
  have hsplit : ∀ t ∈ tokens, ∃ pre x post, xs = pre ++ x :: post ∧
      t.span.start = Text.byteSize (Spaced.old pre ++ x.run) ∧
      t.Everywhere fun u => u.span.EndsIn (Spaced.InWord pre x) := by
    intro t ht
    have hmem : t.span ∈ Text.wordSpans 0 (xs.map fun x => (x.run, x.word)) := hspans ▸ List.mem_map_of_mem ht
    obtain ⟨pre, x, post, rfl, hspan⟩ := Spaced.exists_of_mem_wordSpans [] xs hmem
    exact ⟨pre, x, post, rfl, by rw [hspan], everywhere_inWord htokens ht hsource hspan⟩
  have hmoved : tokens.map (Token.moved (Spaced.shift xs)) = tokens'.map (Token.moved id) := by
    refine map_moved_eq h.same ?_ ?_ (Token.ofSource_tiles htokens').inside.2
    · rw [hspans, hspans']
      exact Spaced.map_moved_wordSpans [] xs hxs
    · intro t ht
      obtain ⟨pre, x, post, rfl, hstart, hwords⟩ := hsplit t ht
      have hfirst : Spaced.InWord pre x t.span.start := ⟨[], x.word, rfl, by rw [hstart, List.append_nil]⟩
      have hmove := hfirst.shift_eq hxs
      have hword {i : Nat} (hi : Spaced.InWord pre x i) : t.span.start ≤ i ∧
          Spaced.shift (pre ++ x :: post) i + t.span.start = Spaced.shift (pre ++ x :: post) t.span.start + i := by
        have hmove' := hi.shift_eq hxs
        obtain ⟨u, v, -, rfl⟩ := hi
        simp only [Text.byteSize_append] at hmove hmove' hstart ⊢
        omega
      exact hwords.imp fun u hu => ⟨hword hu.1, hword hu.2⟩
  have hinside : Token.Inside (Spaced.firstStart xs) (Text.byteSize (Spaced.old xs)) tokens := by
    refine ⟨?_, (Token.ofSource_tiles htokens).inside.2⟩
    rw [hspans]
    have horder := Text.inOrder_wordSpans 0 (xs.map fun x => (x.run, x.word))
    rw [Nat.zero_add, Spaced.joined_old] at horder
    cases xs with
    | nil => exact Nat.le_refl 0
    | cons x xs => exact ⟨Nat.le_of_eq (Nat.zero_add _).symm, horder.2⟩
  have hwords : ∀ t ∈ tokens, t.MovesWith (Spaced.respacing hxs tail tail') := by
    intro t ht
    obtain ⟨pre, x, post, rfl, -, hwords⟩ := hsplit t ht
    exact ⟨Spaced.InWord pre x, Spaced.rigid_word hxs tail tail', fun _ hi => hi.isAnchor post, hwords⟩
  rw [hsource, hsource']
  exact ⟨Spaced.respacing hxs tail tail', hwords, hmoved, _, _, hinside, fun i hi hlo hhi => ⟨hi, hlo, hhi⟩⟩

end LiquidTemplate
