import LiquidTemplate.Proofs.Grammar.Fragments
import LiquidTemplate.Proofs.Grammar.RawBodies
import LiquidTemplate.Proofs.Print.TagsAgain

/-!
# Chains of conditions

The condition of a tag is written as conditions with words between them (`ChainTag`) and kept as a tree. The tree is the
one that leans to the right and has these conditions and words from left to right (`Condition.flatten`). It can be made
from a stack of the conditions and one of the words (`Condition.ofStacks?_reverse`). It is written in that order, and
what is written is read as a tree of the same shape (`condition_chain_kept`).
-/

namespace LiquidTemplate

/-! ## Trees of conditions -/

namespace Condition

variable {test first : Condition} {more : List (Connective × Condition)} {q : Quote}

/-- The left one of two joined conditions is never joined itself. -/
def LeansRight : Condition → Prop
  | join _ left right => left.IsSimple ∧ right.LeansRight
  | _ => True

/-- The conditions that are not joined, from left to right, with the word before each of them but the first. -/
def flatten : Condition → Condition × List (Connective × Condition)
  | join word left right => (left.flatten.1, left.flatten.2 ++ (word, right.flatten.1) :: right.flatten.2)
  | test => (test, [])

theorem IsSimple.flatten (h : test.IsSimple) : test.flatten = (test, []) := by
  cases test with
  | truthy | compare => rfl
  | join => exact absurd h id

theorem IsSimple.leansRight (h : test.IsSimple) : test.LeansRight := by
  cases test with
  | truthy | compare => trivial
  | join => exact absurd h id

theorem IsSimple.norm (h : test.IsSimple) : (test.norm q).IsSimple := by
  cases test with
  | truthy | compare => trivial
  | join => exact absurd h id

theorem leansRight_chain (hfirst : first.IsSimple) (hmore : ∀ link ∈ more, link.2.IsSimple) :
    (chain first more).LeansRight := by
  induction more generalizing first with
  | nil => exact hfirst.leansRight
  | cons link more ih =>
    obtain ⟨hnext, hmore⟩ := List.forall_mem_cons.1 hmore
    exact ⟨hfirst, ih hnext hmore⟩

theorem flatten_chain (hfirst : first.IsSimple) (hmore : ∀ link ∈ more, link.2.IsSimple) :
    (chain first more).flatten = (first, more) := by
  induction more generalizing first with
  | nil => exact hfirst.flatten
  | cons link more ih =>
    obtain ⟨hnext, hmore⟩ := List.forall_mem_cons.1 hmore
    simp [chain, flatten, hfirst.flatten, ih hnext hmore]

/-- The condition on top of a stack, joined to those under it one after the other. The words between them are taken
from a second stack. -/
def joinAll (joined : Condition) : List Condition → List Connective → Condition
  | left :: lefts, word :: words => joinAll (join word left joined) lefts words
  | _, _ => joined

/-- The condition that two stacks make, with the last condition and the last word of a chain on top. -/
def ofStacks? : List Condition → List Connective → Option Condition
  | [], _ => none
  | last :: lefts, words => some (joinAll last lefts words)

theorem joinAll_append (joined left : Condition) (word : Connective) {lefts : List Condition} {words : List Connective}
    (h : lefts.length = words.length) :
    joinAll joined (lefts ++ [left]) (words ++ [word]) = join word left (joinAll joined lefts words) := by
  induction lefts generalizing joined words with
  | nil =>
    obtain rfl := List.eq_nil_of_length_eq_zero h.symm
    rfl
  | cons next lefts ih =>
    cases words with
    | nil => cases h
    | cons word' words => exact ih (join word' next joined) (Nat.succ.inj h)

/-- **Taking conditions and words from their stacks gives the chain**, and there always is a condition to start with. -/
theorem ofStacks?_reverse (first : Condition) (more : List (Connective × Condition)) :
    ofStacks? (first :: more.map Prod.snd).reverse (more.map Prod.fst).reverse = some (chain first more) := by
  induction more generalizing first with
  | nil => rfl
  | cons link more ih =>
    obtain ⟨word, next⟩ := link
    cases hstack : (next :: more.map Prod.snd).reverse with
    | nil => simp at hstack
    | cons last lefts =>
      have hlength : lefts.length = (more.map Prod.fst).reverse.length := by
        simpa using (congrArg List.length hstack).symm
      have hnext := ih next
      rw [hstack] at hnext
      rw [List.map_cons, List.map_cons, List.reverse_cons, hstack, List.reverse_cons, List.cons_append, ofStacks?,
        joinAll_append _ _ _ hlength, Option.some.inj hnext]
      rfl
/-- A tree that leans to the right is told by its conditions and words. -/
theorem LeansRight.eq_chain (h : test.LeansRight) : test = chain test.flatten.1 test.flatten.2 := by
  induction test with
  | truthy | compare => rfl
  | join word left right _ ih =>
    obtain ⟨hleft, hright⟩ := h
    simp only [flatten, hleft.flatten, List.nil_append, chain]
    rw [← ih hright]

/-- The words of a chain stay where they are when the marks in its conditions change. -/
theorem norm_chain_shape (hfirst : first.IsSimple) (hmore : ∀ link ∈ more, link.2.IsSimple) :
    ((chain first more).norm q).LeansRight ∧ ((chain first more).norm q).flatten =
      (first.norm q, more.map fun link => (link.1, link.2.norm q)) := by
  have hlinks : ∀ link ∈ more.map fun link => (link.1, link.2.norm q), link.2.IsSimple := by
    simp only [List.mem_map]
    rintro _ ⟨link, hlink, rfl⟩
    exact (hmore link hlink).norm
  rw [norm_chain]
  exact ⟨leansRight_chain hfirst.norm hlinks, flatten_chain hfirst.norm hlinks⟩

end Condition

/-! ## Chains in a source -/

def Markup.test? : Markup → Option Condition
  | .condition test => some test
  | _ => none

theorem Markup.exists_of_test? {markup : Markup} {p : Condition → Bool} (h : markup.test?.any p = true) :
    ∃ test, markup = .condition test ∧ p test = true := by
  cases markup with
  | condition test => exact ⟨test, rfl, h⟩
  | _ => cases h

/-- The condition of a tag, with the marks of the tag and its name. -/
def Token.test? : Token → Option (Delimiter × String × Condition)
  | blockOpen delimiter name markup | tag delimiter name markup => markup.test?.map (delimiter, name, ·)
  | _ => none

namespace Grammar

open Peg

/-- Words between blanks, each with the condition after it, one after the other between two cursors. -/
inductive Links (source : String) : Cursor → List (Connective × Condition) → Cursor → Prop where
  | nil (c : Cursor) : Links source c [] c
  | cons {c d e f : Cursor} {word : Connective} {next : Condition} {more : List (Connective × Condition)}
      {before after : List Char} (hbefore : before ≠ [] ∧ before.all Text.isBlank = true)
      (hafter : after ≠ [] ∧ after.all Text.isBlank = true) (hword : c.Over (before ++ word.word.toList ++ after) d)
      (hnext : Matches source simpleCondition d next e) (hmore : Links source e more f) :
      Links source c ((word, next) :: more) f

/-- A tag of a source, from its first mark to its last one: its name and a chain of conditions. -/
inductive ChainTag (source : String) : Delimiter → String → Condition → List (Connective × Condition) → Prop where
  | mk {a c d e z : Cursor} {left right : Bool} {gap blank gap' : List Char} {name : String} {first : Condition}
      {more : List (Connective × Condition)} (hstart : a.IsIn source.toList) (hgap : gap.all Text.isBlank = true)
      (hblank : blank ≠ [] ∧ blank.all Text.isBlank = true) (hgap' : gap'.all Text.isBlank = true)
      (hopen : a.Over (tagOpen.toList ++ dash left ++ gap ++ name.toList ++ blank) c)
      (hfirst : Matches source simpleCondition c first d) (hmore : Links source d more e)
      (hclose : e.Over (gap' ++ closingChars tagClose right) z) :
      ChainTag source ⟨⟨a.offset, z.offset⟩, left, right⟩ name first more

theorem gives_simpleCondition : simpleCondition.Gives Condition.IsSimple := by
  refine gives_named (gives_orElse (gives_named (gives_seq (gives_seq (gives_map (gives_true _) ?_) (gives_true _))
    (gives_true _))) (gives_map (gives_true _) ?_))
  · exact fun _ _ _ _ _ _ => trivial
  · exact fun _ _ => trivial

variable {source : String}

theorem isSimple_of_matches {c d : Cursor} {test : Condition} (h : Matches source simpleCondition c test d) :
    test.IsSimple := by
  have hfst := h {} {}
  cases hparse : simpleCondition.parse (parseNested expression (source.toList.length + 1)) {} c {} with
  | mk reply attempts =>
    rw [hparse] at hfst
    obtain rfl : reply = some (test, d) := hfst
    exact gives_simpleCondition _ _ _ _ _ _ _ hparse

theorem Links.isSimple {c d : Cursor} {more : List (Connective × Condition)} (h : Links source c more d) :
    ∀ link ∈ more, link.2.IsSimple := by
  induction h with
  | nil => simp
  | cons _ _ _ hnext _ ih => exact List.forall_mem_cons.2 ⟨isSimple_of_matches hnext, ih⟩

theorem ChainTag.isSimple {delimiter : Delimiter} {name : String} {first : Condition}
    {more : List (Connective × Condition)} (h : ChainTag source delimiter name first more) :
    first.IsSimple ∧ ∀ link ∈ more, link.2.IsSimple := by
  obtain ⟨-, -, -, -, -, hfirst, hmore, -⟩ := h
  exact ⟨isSimple_of_matches hfirst, hmore.isSimple⟩

/-! ## Reading a chain -/

/-- The recursive nonterminal, as the run on a source reads it. -/
def ReadsKeysOf (source : String) (recur : Cursor → Option (Expression × Cursor)) : Prop :=
  recur = readNested expression (source.toList.length + 1)

theorem reads_matches {α : Type} (p : Grammar α) : p.ReadsGiven (ReadsKeysOf source) (Matches source p) := by
  rintro _ rfl c x d hread
  exact matches_of_read hread

theorem keysOf_of_reads {α : Type} {p : Grammar α} {P : Cursor → α → Cursor → Prop} (h : p.Reads P) :
    p.ReadsGiven (ReadsKeysOf source) P := by
  rintro _ rfl
  exact h _ (forward_readNested expression _)

theorem over_word (s : String) : (word s).Reads fun c x d => x = s ∧ c.Over s.toList d := by
  refine reads_seqLeft (reads_map (over_text.imp ?_)) reads_notAhead_char
  rintro c - d hover - e ⟨rfl, -⟩
  exact ⟨rfl, hover⟩

theorem over_blanks1 : blanks1.Reads fun c _ d => ∃ w, c.Over w d ∧ w ≠ [] ∧ w.all Text.isBlank = true := by
  have hconsumes : blanks1.Consumes := consumes_map (consumes_many1 consumes_char)
  refine (((reads_stepsTo blanks1).and reads_blanks1).and hconsumes).imp ?_
  rintro c - d ⟨⟨⟨w, hover⟩, hdrop⟩, hlt⟩
  refine ⟨w, hover, ?_, ?_⟩
  · rintro rfl
    exact absurd hover.2 (Nat.ne_of_gt hlt)
  · have hw : w = c.rest.takeWhile Text.isBlank := by
      have hrest : w ++ d.rest = c.rest.takeWhile Text.isBlank ++ d.rest := by
        rw [← hover.1, hdrop, List.takeWhile_append_dropWhile]
      exact List.append_cancel_right hrest
    rw [hw]
    exact List.all_takeWhile

theorem over_connective : connective.Reads fun c word d => c.Over word.word.toList d :=
  reads_atom (reads_orElse (reads_map ((over_word "and").imp fun _ _ _ h => h.2))
    (reads_map ((over_word "or").imp fun _ _ _ h => h.2)))

theorem reads_condition : condition.ReadsGiven (ReadsKeysOf source) fun c test e => ∃ first more d,
    test = .chain first more ∧ Matches source simpleCondition c first d ∧ Links source d more e := by
  have hword : (blanks1 *> connective <* blanks1).Reads fun c word d => ∃ before after : List Char,
      (before ≠ [] ∧ before.all Text.isBlank = true) ∧ (after ≠ [] ∧ after.all Text.isBlank = true) ∧
        c.Over (before ++ word.word.toList ++ after) d := by
    refine reads_seqLeft (reads_seqRight (over_blanks1.imp ?_) over_connective) over_blanks1
    rintro c - d ⟨before, hbefore, hblank⟩ word e hword - f ⟨after, hafter, hblank'⟩
    exact ⟨before, after, hblank, hblank', (hbefore.trans hword).trans hafter⟩
  have hlink : (Prod.mk <$> (blanks1 *> connective <* blanks1) <*> simpleCondition).ReadsGiven (ReadsKeysOf source)
      fun c link e => ∀ more f, Links source e more f → Links source c (link :: more) f := by
    refine reads_seq (reads_map ((keysOf_of_reads hword).imp ?_)) (reads_matches simpleCondition)
    rintro c word d ⟨before, after, hbefore, hafter, hover⟩ next e hnext more f hmore
    exact .cons hbefore hafter hover hnext hmore
  have hlinks : (Peg.many (Prod.mk <$> (blanks1 *> connective <* blanks1) <*> simpleCondition)).ReadsGiven
      (ReadsKeysOf source) (Links source) :=
    reads_many hlink .nil fun _ _ _ _ _ h => h _ _
  refine reads_named (reads_seq (reads_map ((reads_matches simpleCondition).imp ?_)) hlinks)
  exact fun c first d hfirst more e hmore => ⟨first, more, d, rfl, hfirst, hmore⟩

/-- The name of a tag, blanks and a chain of conditions, between two cursors. -/
def NamesChain (source : String) (c : Cursor) (name : String) (test : Condition) (e : Cursor) : Prop :=
  ∃ first more blank b d, test = .chain first more ∧ (blank ≠ [] ∧ blank.all Text.isBlank = true) ∧
    c.Over (name.toList ++ blank) b ∧ Matches source simpleCondition b first d ∧ Links source d more e

/-- If the markup of a tag is a condition, then it is read from a chain. -/
def ReadFromChain (source : String) (c : Cursor) (x : String × Markup) (e : Cursor) : Prop :=
  ∀ test, x.2.test? = some test → NamesChain source c x.1 test e

theorem reads_conditionMarkup {names : Grammar String} (hnames : names.Reads fun c name d => c.Over name.toList d) :
    (Prod.mk <$> (names <* blanks1) <*> (Markup.condition <$> condition)).ReadsGiven (ReadsKeysOf source)
      (ReadFromChain source) := by
  have hname : (names <* blanks1).Reads fun c name d =>
      ∃ blank : List Char, (blank ≠ [] ∧ blank.all Text.isBlank = true) ∧ c.Over (name.toList ++ blank) d := by
    refine reads_seqLeft (hnames.imp ?_) over_blanks1
    rintro c name d hname - e ⟨blank, hover, hblank⟩
    exact ⟨blank, hblank, hname.trans hover⟩
  have htest : (Markup.condition <$> condition).ReadsGiven (ReadsKeysOf source) fun c markup e => ∃ first more d,
      markup = .condition (.chain first more) ∧ Matches source simpleCondition c first d ∧ Links source d more e := by
    refine reads_map (reads_condition.imp ?_)
    rintro c _ e ⟨first, more, d, rfl, hfirst, hmore⟩
    exact ⟨first, more, d, rfl, hfirst, hmore⟩
  refine reads_seq (reads_map ((keysOf_of_reads hname).imp ?_)) htest
  rintro c name b ⟨blank, hblank, hover⟩ _ e ⟨first, more, d, rfl, hfirst, hmore⟩ _ ⟨⟩
  exact ⟨first, more, blank, b, d, rfl, hblank, hover, hfirst, hmore⟩

/-- Markup that is never a condition. -/
abbrev Unconditional (p : Grammar (String × Markup)) : Prop :=
  p.Yields Forward (fun _ => True) fun x => x.2.test? = none

theorem Unconditional.fromChain {p : Grammar (String × Markup)} (h : Unconditional p) :
    p.ReadsGiven (ReadsKeysOf source) (ReadFromChain source) := by
  refine (keysOf_of_reads (Yields.reads h)).imp ?_
  rintro c x e hnone test htest
  rw [hnone] at htest
  cases htest

theorem unconditional_pair {α : Type} (name : Grammar String) (p : Grammar α) {f : α → Markup}
    (hf : ∀ x, (f x).test? = none) : Unconditional (Prod.mk <$> name <*> (f <$> p)) :=
  yields_pair (A := fun m => m.test? = none) name p hf

theorem reads_blockMarkup : blockMarkup.ReadsGiven (ReadsKeysOf source) (ReadFromChain source) := by
  have htrue {β : Type} (q : Grammar β) := tracks_forward.yields_true q
  have hname : (word "if" <|> word "unless").Reads fun c name d => c.Over name.toList d :=
    reads_orElse ((over_word _).imp fun _ _ _ h => h.1 ▸ h.2) ((over_word _).imp fun _ _ _ h => h.1 ▸ h.2)
  refine reads_orElse (reads_conditionMarkup hname) (reads_orElse ?case (reads_orElse ?loop
    (reads_orElse ?capture ?paginate)))
  case case => exact (unconditional_pair _ _ fun _ => rfl).fromChain
  case loop =>
    have hloop : Unconditional forMarkup := yields_named (yields_seq (yields_seq (yields_seq (yields_seq
      (yields_map (htrue _) fun _ _ _ _ _ _ _ _ _ _ => rfl) (htrue _)) (htrue _)) (htrue _)) (htrue _))
    exact hloop.fromChain
  case capture => exact (unconditional_pair _ _ fun _ => rfl).fromChain
  case paginate =>
    have hpaginate : Unconditional paginateMarkup := yields_named (yields_seq (yields_seq (yields_seq
      (yields_map (htrue _) fun _ _ _ _ _ _ _ _ => rfl) (htrue _)) (htrue _)) (htrue _))
    exact hpaginate.fromChain

theorem reads_tagMarkup : tagMarkup.ReadsGiven (ReadsKeysOf source) (ReadFromChain source) := by
  have htrue {β : Type} (q : Grammar β) := tracks_forward.yields_true q
  have hpair {α : Type} {name : Grammar String} {p : Grammar α} {f : α → Markup} (hf : ∀ x, (f x).test? = none) :
      (Prod.mk <$> name <*> (f <$> p)).ReadsGiven (ReadsKeysOf source) (ReadFromChain source) :=
    (unconditional_pair name p hf).fromChain
  have hname : (word "elsif").Reads fun c name d => c.Over name.toList d :=
    (over_word _).imp fun _ _ _ h => h.1 ▸ h.2
  have hassign : Unconditional assignMarkup :=
    yields_named (yields_seq (yields_seq (yields_map (htrue _) fun _ _ _ _ _ _ => rfl) (htrue _)) (htrue _))
  have hcycle : Unconditional cycleMarkup :=
    yields_named (yields_seq (yields_seq (yields_map (htrue _) fun _ _ _ _ _ _ => rfl) (htrue _)) (htrue _))
  have hsnippet : Unconditional snippetMarkup := yields_named (yields_seq (yields_seq (yields_seq (yields_seq
    (yields_map (htrue _) fun _ _ _ _ _ _ _ _ _ _ => rfl) (htrue _)) (htrue _)) (htrue _)) (htrue _))
  exact reads_orElse (reads_conditionMarkup hname) <| reads_orElse (hpair fun _ => rfl) <|
    reads_orElse hassign.fromChain <| reads_orElse (hpair fun _ => rfl) <|
    reads_orElse hcycle.fromChain <| reads_orElse hsnippet.fromChain <|
    reads_orElse (hpair fun _ => rfl) <| reads_orElse (hpair fun _ => rfl) <| reads_orElse (hpair fun _ => rfl)
      (hpair fun _ => rfl)

theorem over_delimited {α : Type} {opening closing : String} {inner : Grammar α} {Q : Cursor → α → Cursor → Prop}
    (h : inner.ReadsGiven (ReadsKeysOf source) Q) :
    (delimited opening closing inner).ReadsGiven (ReadsKeysOf source) fun a x z => ∃ left right gap gap' c e,
      x.delimiter = ⟨⟨a.offset, z.offset⟩, left, right⟩ ∧ gap.all Text.isBlank = true ∧ gap'.all Text.isBlank = true ∧
      a.Over (opening.toList ++ dash left ++ gap) c ∧ Q c x.inner e ∧
        e.Over (gap' ++ closingChars closing right) z := by
  have hdash (rule : Rule) : (flag (named rule (.text "-")) : Grammar Bool).Reads fun c b d => c.Over (dash b) d :=
    reads_orElse (reads_map over_text) (reads_pure .refl)
  have hopen : (.text opening *> flag (named .trimStart (.text "-")) <* blanks : Grammar Bool).Reads fun a left c =>
      ∃ gap, gap.all Text.isBlank = true ∧ a.Over (opening.toList ++ dash left ++ gap) c := by
    refine reads_seqLeft (reads_seqRight (over_text.imp ?_) (hdash _)) over_blanks
    rintro a - b hmark left c hleft - d ⟨gap, hgap, hblank⟩
    exact ⟨gap, hblank, (hmark.trans hleft).trans hgap⟩
  have hinner : (inner <* blanks).ReadsGiven (ReadsKeysOf source) fun c x d => ∃ e gap, Q c x e ∧
      gap.all Text.isBlank = true ∧ e.Over gap d := by
    refine reads_seqLeft (h.imp ?_) (keysOf_of_reads over_blanks)
    rintro c x e hx - d ⟨gap, hgap, hblank⟩
    exact ⟨e, gap, hx, hblank, hgap⟩
  have hclose : (flag (named .trimEnd (.text "-")) <* .text closing : Grammar Bool).Reads fun d right z =>
      d.Over (closingChars closing right) z := by
    refine reads_seqLeft ((hdash _).imp ?_) over_text
    rintro d right e hright - z hmark
    exact hright.trans hmark
  refine reads_map (reads_slice (reads_seq (reads_seq (reads_map ((keysOf_of_reads hopen).imp ?_)) hinner)
    (keysOf_of_reads hclose)))
  rintro a left c ⟨gap, hgap, hopen⟩ x d ⟨e, gap', hx, hgap', hd⟩ right z hclose
  exact ⟨left, right, gap, gap', c, e, rfl, hgap, hgap', hopen, hx, hd.trans hclose⟩

end Grammar

/-! ## Tokens with conditions -/

/-- If a token has a condition, then that is a chain, and the token is the tag that holds it. -/
def Token.KeepsChain (source : String) (t : Token) : Prop :=
  ∀ x, t.test? = some x → ∃ first more, x.2.2 = .chain first more ∧ Grammar.ChainTag source x.1 x.2.1 first more

namespace Grammar

open Peg Token

variable {source : String}

theorem reads_chainTag {known : Grammar (String × Markup)} {name : Grammar String}
    {f : Delimited (String × Markup) → Token}
    (hknown : known.ReadsGiven (ReadsKeysOf source) (ReadFromChain source))
    (hf : ∀ x, (f x).test? = x.inner.2.test?.map (x.delimiter, x.inner.1, ·)) :
    (f <$> delimited tagOpen tagClose (known <* .ahead tagEnd <|> plainTag name)).ReadsGiven (ReadsKeysOf source)
      fun a t _ => a.IsIn source.toList → t.KeepsChain source := by
  have hplain : Unconditional (plainTag name) :=
    yields_seq (yields_map (tracks_forward.yields_true _) fun _ _ _ _ => rfl) (tracks_forward.yields_true _)
  have hinner : (known <* .ahead tagEnd <|> plainTag name).ReadsGiven (ReadsKeysOf source) (ReadFromChain source) := by
    refine reads_orElse (reads_seqLeft (Q := fun d _ e => d = e) (hknown.imp ?_) (reads_ahead fun _ => rfl))
      hplain.fromChain
    rintro c x d hx - _ rfl
    exact hx
  refine reads_map ((over_delimited hinner).imp ?_)
  rintro a x z ⟨left, right, gap, gap', c, e, hdelimiter, hgap, hgap', hopen, hx, hclose⟩ ha y hy
  rw [hf] at hy
  obtain ⟨test, htest, rfl⟩ := Option.map_eq_some_iff.1 hy
  obtain ⟨first, more, blank, b, d, hchain, hblank, hname, hfirst, hmore⟩ := hx test htest
  refine ⟨first, more, hchain, ?_⟩
  rw [hdelimiter]
  refine .mk ha hgap hblank hgap' ?_ hfirst hmore hclose
  simpa only [List.append_assoc] using hopen.trans hname

theorem keepsChain_of_test?_eq_none {t : Token} (h : t.test? = none) : t.KeepsChain source := by
  intro y hy
  rw [h] at hy
  cases hy

theorem tracks_keysOf : Tracks (ReadsKeysOf source) (Cursor.IsIn source.toList) where
  forward := by
    rintro _ rfl
    exact forward_readNested expression _
  steps := (tracks_isIn source.toList).steps

theorem keepsChainRules : TokenRules (ReadsKeysOf source) (Cursor.IsIn source.toList) (Token.KeepsChain source) where
  toTracks := tracks_keysOf
  liquidTag := by
    refine reads_orElse (reads_named (reads_map (reads_slice ?_))) (reads_orElse ?_ (reads_orElse ?_ ?_))
    · exact reads_seq (reads_seq (reads_map fun _ _ _ _ _ _ => fun _ _ _ _ _ _ _ => keepsChain_of_test?_eq_none rfl)
        (tracks_keysOf.yields_true _)) (tracks_keysOf.yields_true _)
    · exact reads_named (reads_map fun _ _ _ _ _ _ _ => keepsChain_of_test?_eq_none rfl)
    · exact reads_named (reads_chainTag reads_blockMarkup fun _ => rfl)
    · exact reads_named (reads_chainTag reads_tagMarkup fun _ => rfl)
  drop := reads_named (reads_map fun _ _ _ _ _ _ _ => keepsChain_of_test?_eq_none rfl)
  text _ _ _ _ := keepsChain_of_test?_eq_none rfl
  frontMatter _ _ _ _ _ := keepsChain_of_test?_eq_none rfl
  comment _ _ _ _ _ := keepsChain_of_test?_eq_none rfl
  doctype _ _ _ _ _ := keepsChain_of_test?_eq_none rfl
  openTag := by
    refine reads_openTag_of tracks_keysOf ?_ ?_ ?_ <;> exact fun _ _ _ _ _ _ => keepsChain_of_test?_eq_none rfl
  closeTag := reads_closeTag_of tracks_keysOf fun _ _ _ _ _ => keepsChain_of_test?_eq_none rfl
  rawElement := reads_rawElement_of tracks_keysOf fun _ _ _ _ _ _ _ _ _ => keepsChain_of_test?_eq_none rfl
  attr := reads_attr_of tracks_keysOf fun _ _ _ _ _ _ _ _ => keepsChain_of_test?_eq_none rfl

end Grammar

/-! ## Written chains are read again -/

theorem Token.StandsIn.keepsChain {t : Token} {source : String} (h : t.StandsIn source) : t.KeepsChain source := by
  obtain ⟨tokens, htokens, u, hu, hholds⟩ := h
  exact (Grammar.keepsChainRules.ofSource_at rfl ⟨[], rfl, rfl⟩ htokens u hu).of_holds hholds

/-- The tag that is written for a condition is read with the condition `again`: a tag that opens a block, once it is
closed, and a tag that starts a branch, in any block that has branches. -/
def ReadAgainAs (q : Quote) (name : String) (test again : Condition) : Prop :=
  ((name = "if" ∨ name = "unless") ∧
    ∃ node opener closer, Document.parse (tagText q name (.condition test) ++ endText name) .strict =
        .ok (.ofNodes (tagText q name (.condition test) ++ endText name) [node]) ∧
      node.kind = .block name (.condition again) opener (some closer)) ∨
  (name = "elsif" ∧
    ∀ outer head, OpensBlock outer head → head.hidesArgument = false → isBranchedTag outer = true →
      ∃ node opener closer first next start,
        Document.parse (tagText q outer head ++ tagText q name (.condition test) ++ endText outer) .strict =
          .ok (.ofNodes (tagText q outer head ++ tagText q name (.condition test) ++ endText outer) [node]) ∧
        (node.kind = .block outer (head.norm q) opener (some closer) ∧ node.children = [first, next]) ∧
        next.kind = .branch (some name) (.condition again) start)

/-- **Chains of conditions lean to the right and lose nothing.** The condition of a tag is the one tree that leans to
the right and has the conditions and the words of the tag from left to right. It is written with the same conditions and
words in the same order, and the tag with that text is read as a tree that leans to the right and has them again, apart
from the marks of strings and brackets that are written as dots. -/
theorem condition_chain_kept (q : Quote) {source : String} {origin : Delimiter} {name : String} {test : Condition}
    (h : (Token.blockOpen origin name (.condition test)).StandsIn source ∨
      (Token.tag origin name (.condition test)).StandsIn source) :
    ∃ first more, Grammar.ChainTag source origin name first more ∧
      (∀ tree : Condition, (tree.LeansRight ∧ tree.flatten = (first, more)) ↔ tree = test) ∧
      (test.render q).toList = (first.render q).toList ++ more.flatMap (linkText q) ∧
      ∃ again : Condition, (again.LeansRight ∧
        again.flatten = (first.norm q, more.map fun link => (link.1, link.2.norm q))) ∧
          ReadAgainAs q name test again := by
  obtain ⟨first, more, rfl, htag⟩ : ∃ first more, test = .chain first more ∧
      Grammar.ChainTag source origin name first more := by
    rcases h with h | h
    · exact h.keepsChain (origin, name, test) rfl
    · exact h.keepsChain (origin, name, test) rfl
  obtain ⟨hfirst, hmore⟩ := htag.isSimple
  have hagain : ReadAgainAs q name (.chain first more) ((Condition.chain first more).norm q) := by
    rcases h with h | h
    · have hspelled := (OpensBlock.mk ⟨source, origin, h⟩ nofun).spelled
      exact .inl ⟨hspelled.1, block_read_again hspelled rfl⟩
    · have hspelled := (StandsAlone.mk ⟨source, origin, h⟩ nofun).spelled
      obtain rfl : name = "elsif" := hspelled.1
      exact .inr ⟨rfl, fun outer head hhead hshown hbranched =>
        branch_read_again hspelled rfl hhead.spelled hshown hbranched⟩
  refine ⟨first, more, htag, fun tree => ⟨?_, ?_⟩, Condition.toList_renderChain q first more, _,
    Condition.norm_chain_shape hfirst hmore, hagain⟩
  · rintro ⟨hleans, hflatten⟩
    rw [hleans.eq_chain, hflatten]
  · rintro rfl
    exact ⟨Condition.leansRight_chain hfirst hmore, Condition.flatten_chain hfirst hmore⟩

/-- Three conditions with different words between them, in the tag of a block and in that of a branch. -/
theorem condition_chain_mixed :
    (∃ origin test, (Token.blockOpen origin "unless" (.condition test)).StandsIn
        "\x7b%- unless a == 'b'  and c\nor d -%\x7d" ∧ test.render .double = "a == \"b\" and c or d" ∧
      ∃ first more, Grammar.ChainTag "\x7b%- unless a == 'b'  and c\nor d -%\x7d" origin "unless" first more ∧
        (∀ tree : Condition, (tree.LeansRight ∧ tree.flatten = (first, more)) ↔ tree = test) ∧
        more.map (·.1) = [.and, .or] ∧ ∃ again : Condition, (again.LeansRight ∧ again.flatten =
          (first.norm .double, more.map fun link => (link.1, link.2.norm .double))) ∧
            ReadAgainAs .double "unless" test again) ∧
    ∃ origin test, (Token.tag origin "elsif" (.condition test)).StandsIn "\x7b% elsif a or b and c %\x7d" ∧
      ∃ first more, Grammar.ChainTag "\x7b% elsif a or b and c %\x7d" origin "elsif" first more ∧
        more.map (·.1) = [.or, .and] := by
  obtain ⟨tokens, htokens, hlone⟩ := @exists_eq_ok _ _ (Token.ofSource "\x7b%- unless a == 'b'  and c\nor d -%\x7d")
    (Token.isLoneBlock "unless" fun markup => markup.test?.any fun test =>
      test.render .double == "a == \"b\" and c or d" && test.flatten.2.map (·.1) == [.and, .or]) (by decide +kernel)
  obtain ⟨branch, hbranch, hlone'⟩ := @exists_eq_ok _ _ (Token.ofSource "\x7b% elsif a or b and c %\x7d")
    (Token.isLoneTag "elsif" fun markup => markup.test?.any fun test => test.flatten.2.map (·.1) == [.or, .and])
    (by decide +kernel)
  obtain ⟨origin, markup, rfl, htest⟩ := Token.exists_of_isLoneBlock hlone
  obtain ⟨origin', markup', rfl, htest'⟩ := Token.exists_of_isLoneTag hlone'
  obtain ⟨test, rfl, hboth⟩ := Markup.exists_of_test? htest
  obtain ⟨test', rfl, hwords'⟩ := Markup.exists_of_test? htest'
  simp only [Bool.and_eq_true, beq_iff_eq] at hboth hwords'
  obtain ⟨hrender, hwords⟩ := hboth
  have hstands : (Token.blockOpen origin "unless" (.condition test)).StandsIn _ :=
    ⟨_, htokens, _, List.mem_singleton.2 rfl, .here _⟩
  have hstands' : (Token.tag origin' "elsif" (.condition test')).StandsIn _ :=
    ⟨_, hbranch, _, List.mem_singleton.2 rfl, .here _⟩
  obtain ⟨first, more, htag, hshape, -, hagain⟩ := condition_chain_kept .double (.inl hstands)
  obtain ⟨first', more', htag', hshape', -⟩ := condition_chain_kept .double (.inr hstands')
  rw [((hshape test).2 rfl).2] at hwords
  rw [((hshape' test').2 rfl).2] at hwords'
  exact ⟨⟨origin, test, hstands, hrender, first, more, htag, hshape, hwords, hagain⟩, origin', test',
    hstands', first', more',
    htag', hwords'⟩

end LiquidTemplate
