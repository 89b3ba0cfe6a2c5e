import LiquidTemplate.Proofs.Grammar.Readable
import LiquidTemplate.Proofs.Grammar.Words
import LiquidTemplate.Proofs.Markup.Spelling
import LiquidTemplate.Proofs.Text.Lines

/-!
# What tags and drops hold can be written

The markup of every tag and every drop in a template is plain text or spelled in the way that it is read
(`Token.Spelled`). The end of the tag comes next wherever known markup was read, and that settles what its last
expression left open.
-/

namespace LiquidTemplate

/-- The markup of a tag or drop is plain text or can be read from its own text. -/
def Token.Spelled : Token → Prop
  | drop _ _ (.value v) => v.Spelled
  | blockOpen _ name markup => (∃ text, markup = .plain text) ∨ markup.BlockSpelled name
  | tag _ name markup => (∃ text, markup = .plain text) ∨ markup.LeafSpelled name
  | _ => True

namespace Grammar

open Peg

/-! ## Ends of tags and drops -/

theorem avoids_tagEnd : tagEnd.Avoids GivesReadable Stuck :=
  avoids_seqRight_keeps (keeps_seqRight keeps_blanks (keeps_opt (avoids_mark rfl (by decide) (by decide)).keeps))
    (avoids_mark rfl (by decide) (by decide))

theorem avoids_dropEnd : dropEnd.Avoids GivesReadable Stuck :=
  avoids_seqRight_keeps (keeps_seqRight keeps_blanks (keeps_opt (avoids_mark rfl (by decide) (by decide)).keeps))
    (avoids_mark rfl (by decide) (by decide))

theorem takes_tagClose {recur : Cursor → Option (Expression × Cursor)} {rest : List Char} :
    tagEnd.Takes recur ['%', '\x7d'] rest () := by
  have hblanks : blanks.Takes recur [] (['%', '\x7d'] ++ rest) () := takes_blanks rfl rfl
  have hdash : (opt (.text "-") : Grammar (Option Unit)).Takes recur [] (['%', '\x7d'] ++ rest) none :=
    takes_opt_none (refuses_text rfl)
  exact takes_seqRight (takes_seqRight hblanks hdash) (takes_text (s := tagClose))

/-- A text up to the end of the tag does not hold the marks that end it. -/
theorem always_upToTagEnd : (covered (upTo tagEnd) : Grammar String).YieldsAlways GivesReadable fun s =>
    ¬ ['%', '\x7d'] <:+: s.toList := by
  have hchar : (Peg.notAhead tagEnd *> any : Grammar Char).Reads fun c x d =>
      c.rest = x :: d.rest ∧ ¬ ['%', '\x7d'] <+: c.rest := by
    refine reads_seqRight (reads_notAhead ?_) (reads_char fun c d x hrest _ _ => hrest)
    rintro recur c hnone x d hrest
    refine ⟨hrest, fun ⟨rest, hmarks⟩ => ?_⟩
    rw [takes_tagClose.read hmarks.symm] at hnone
    cases hnone
  have hbody : (upTo tagEnd).Reads fun c xs d => c.rest = xs ++ d.rest ∧ ¬ ['%', '\x7d'] <:+: xs := by
    refine reads_many hchar (fun c => ⟨rfl, by simp⟩) ?_
    rintro c x d xs e ⟨hrest, hhere⟩ ⟨hrest', hlater⟩
    refine ⟨by rw [hrest, hrest', List.cons_append], fun hmarks => ?_⟩
    rcases List.infix_cons_iff.1 hmarks with hfirst | hmarks
    · exact hhere (hfirst.trans ⟨e.rest, by rw [hrest, hrest', List.cons_append]⟩)
    · exact hlater hmarks
  exact readsGiven_readable ((reads_covered (hbody.imp fun _ xs _ h => ⟨xs, h⟩)).imp fun _ _ _ h => h.2)

/-! ## Markup -/

theorem always_word (s : String) : (word s).YieldsAlways GivesReadable (· = s) :=
  always_seqLeft (reads_map fun _ _ _ _ _ _ => rfl)

theorem always_word₂ (s t : String) : (word s <|> word t).YieldsAlways GivesReadable fun name => name = s ∨ name = t :=
  reads_orElse ((always_word s).imp fun _ _ _ h => .inl h) ((always_word t).imp fun _ _ _ h => .inr h)

theorem unless_pair {α : Type} {name : Grammar String} {p : Grammar α} {f : α → Markup}
    {N : String → Prop} {A : α → Prop}
    {B : String × Markup → Prop} (hname : name.YieldsAlways GivesReadable N) (hp : p.YieldsUnless GivesReadable Stuck A)
    (hB : ∀ s x, N s → A x → B (s, f x)) :
    (Prod.mk <$> name <*> (f <$> p)).YieldsUnless GivesReadable Stuck B := by
  refine unless_seq (A := fun m => ∃ x, m = f x ∧ A x) (reads_map (hname.imp ?_))
    (unless_map hp fun x hx => ⟨x, rfl, hx⟩)
  rintro _ s _ hs _ ⟨x, rfl, hx⟩
  exact hB s x hs hx

theorem unless_forMarkup : forMarkup.YieldsUnless GivesReadable Stuck fun x => x.2.BlockSpelled x.1 := by
  have hname := always_seqLeft (q := blanks1) (always_word₂ "for" "tablerow")
  have hitem := always_seqLeft (q := blanks1) (always_seqLeft (q := word "in") (always_seqLeft (q := blanks1)
    always_variableName))
  have hflag : (flag (blanks1 *> named .reversed (word "reversed"))).Keeps GivesReadable Stuck :=
    keeps_flag (avoids_seqRight avoids_blanks1).keeps
  refine unless_seq_keeps (unless_seq_keeps (unless_seq (reads_seq (reads_map (hname.imp ?_)) hitem) unless_expression)
    (always_true _).unless hflag) unless_namedArguments keeps_namedArguments
  exact fun _ name _ hname item _ hitem collection hcollection reversed _ arguments harguments =>
    ⟨hname, hitem, hcollection, harguments⟩

theorem unless_paginateMarkup : paginateMarkup.YieldsUnless GivesReadable Stuck fun x => x.2.BlockSpelled x.1 := by
  have hname := always_seqLeft (q := blanks1) (always_word "paginate")
  have hcollection := always_seqLeft (q := blanks1) (always_seqLeft (q := word "by")
    (always_seqLeft_avoids unless_expression avoids_blanks1))
  refine unless_seq_keeps (unless_seq (reads_seq (reads_map (hname.imp ?_)) hcollection) unless_expression)
    unless_namedArguments keeps_namedArguments
  exact fun _ name _ hname collection _ hcollection pageSize hpageSize arguments harguments =>
    ⟨hname, hcollection, hpageSize, harguments⟩

theorem unless_blockMarkup : blockMarkup.YieldsUnless GivesReadable Stuck fun x => x.2.BlockSpelled x.1 := by
  refine unless_orElse ?_ (unless_orElse ?_ (unless_orElse unless_forMarkup (unless_orElse ?_ unless_paginateMarkup)))
  · exact unless_pair (always_seqLeft (always_word₂ "if" "unless")) unless_condition
      fun _ _ hname htest => ⟨hname, htest⟩
  · exact unless_pair (always_seqLeft (always_word "case")) unless_expression fun _ _ hname hvalue => ⟨hname, hvalue⟩
  · exact unless_pair (always_seqLeft (always_word "capture")) always_variableName.unless
      fun _ _ hname hitem => ⟨hname, hitem⟩

theorem unless_assignMarkup : assignMarkup.YieldsUnless GivesReadable Stuck fun x => x.2.LeafSpelled x.1 := by
  have hname := always_seqLeft (q := blanks1) (always_word "assign")
  have hitem := always_seqLeft (q := blanks) (always_seqLeft (q := .text "=") (always_seqLeft (q := blanks)
    always_variableName))
  refine unless_seq (reads_seq (reads_map (hname.imp ?_)) hitem) unless_filtered
  exact fun _ name _ hname item _ hitem value hvalue => ⟨hname, hitem, hvalue⟩

theorem unless_cycleMarkup : cycleMarkup.YieldsUnless GivesReadable Stuck fun x => x.2.LeafSpelled x.1 := by
  have hname := always_seqLeft (q := blanks1) (always_word "cycle")
  have hgroup : (opt (named .cycleGroup expression <* colon) : Grammar (Option Expression)).YieldsAlways GivesReadable
      fun group => ∀ e ∈ group, e.Readable := by
    refine reads_opt ((always_seqLeft_avoids (p := named .cycleGroup expression) unless_expression avoids_colon).imp ?_)
      (by simp)
    rintro _ e _ he _ ⟨⟩
    exact he
  refine unless_seq (reads_seq (reads_map (hname.imp ?_)) hgroup) (unless_sepBy1 unless_expression avoids_comma)
  exact fun _ name _ hname group _ hgroup choices hchoices => ⟨hname, hgroup, hchoices⟩

theorem unless_snippetMarkup : snippetMarkup.YieldsUnless GivesReadable Stuck fun x => x.2.LeafSpelled x.1 := by
  have hname := always_seqLeft (q := blanks1) (always_word₂ "render" "include")
  have hsnippet : (.string <$> string <|> lookup : Grammar Expression).YieldsAlways GivesReadable
      Expression.NamesSnippet := by
    refine reads_orElse (reads_map (readsGiven_readable reads_string)) (reads_lookup.imp ?_)
    rintro _ _ _ ⟨name, steps, rfl, hspelled, -⟩
    exact hspelled
  have hbound : (named .renderVariable (Prod.mk <$> (blanks1 *> binding <* blanks1) <*> expression) :
      Grammar (Binding × Expression)).YieldsUnless GivesReadable Stuck fun b => b.2.Readable :=
    unless_seq (reads_map fun _ _ _ _ _ _ _ h => h) unless_expression
  have hboundKeeps : (named .renderVariable (Prod.mk <$> (blanks1 *> binding <* blanks1) <*> expression) :
      Grammar (Binding × Expression)).Keeps GivesReadable Stuck :=
    (avoids_seq (avoids_map (avoids_seqLeft (avoids_seqRight avoids_blanks1)))).keeps
  have hrenamed : (named .renderAlias (blanks1 *> word "as" *> blanks1 *> variableName) :
      Grammar String).YieldsAlways GivesReadable fun s => Text.IsAskingName s.toList :=
    always_seqRight always_variableName
  have hrenamedKeeps : (named .renderAlias (blanks1 *> word "as" *> blanks1 *> variableName) :
      Grammar String).Keeps GivesReadable Stuck :=
    (avoids_seqRight (avoids_seqRight (avoids_seqRight avoids_blanks1))).keeps
  refine unless_seq_keeps (unless_seq_keeps (unless_seq_keeps (reads_seq (reads_map (hname.imp ?_)) hsnippet).unless
    (unless_opt hbound) (keeps_opt hboundKeeps)) (unless_opt hrenamed.unless) (keeps_opt hrenamedKeeps))
    unless_namedArguments keeps_namedArguments
  exact fun _ name _ hname snippet _ hsnippet bound hbound renamed hrenamed arguments harguments =>
    ⟨hname, hsnippet, hbound, hrenamed, harguments⟩

theorem unless_tagMarkup : tagMarkup.YieldsUnless GivesReadable Stuck fun x => x.2.LeafSpelled x.1 := by
  refine unless_orElse ?elsif <| unless_orElse ?when <| unless_orElse unless_assignMarkup <| unless_orElse ?echo <|
    unless_orElse unless_cycleMarkup <| unless_orElse unless_snippetMarkup <| unless_orElse ?counter <|
    unless_orElse ?layout <| unless_orElse ?named ?liquid
  case elsif =>
    exact unless_pair (always_seqLeft (always_word "elsif")) unless_condition fun _ _ hname htest => ⟨hname, htest⟩
  case when =>
    have hseparator : whenSeparator.Avoids GivesReadable Stuck :=
      avoids_orElse avoids_comma (avoids_map (avoids_seqLeft (avoids_seqRight avoids_blanks1)))
    exact unless_pair (always_seqLeft (always_word "when")) (unless_sepBy1 unless_expression hseparator)
      fun _ _ hname hchoices => ⟨hname, hchoices⟩
  case echo =>
    exact unless_pair (always_seqLeft (always_word "echo")) unless_filtered fun _ _ hname hvalue => ⟨hname, hvalue⟩
  case counter =>
    exact unless_pair (always_seqLeft (always_word₂ "increment" "decrement")) always_variableName.unless
      fun _ _ hname hitem => ⟨hname, hitem⟩
  case layout =>
    exact unless_pair (always_seqLeft (always_word "layout")) unless_expression fun _ _ hname hvalue => ⟨hname, hvalue⟩
  case named =>
    exact unless_pair (always_seqLeft (always_word "section")) (readsGiven_readable reads_string).unless
      fun _ _ hname hliteral => ⟨hname, hliteral⟩
  case liquid =>
    exact unless_pair (always_word "liquid") always_upToTagEnd.unless
      fun _ body hname hbody => ⟨hname, fun _ hline => isStatement_of_mem hbody hline⟩

/-! ## Tokens -/

theorem always_delimited {α : Type} {opening closing : String} {inner : Grammar α} {A : α → Prop}
    (h : inner.YieldsAlways GivesReadable A) :
    (delimited opening closing inner).YieldsAlways GivesReadable fun d => A d.inner := by
  refine reads_map (reads_slice (reads_seq (reads_seq (reads_map fun _ _ _ _ _ _ => ?_) (always_seqLeft h))
    (always_true _)))
  exact fun _ _ hx _ _ _ => hx

theorem always_tagMarkup {known : Grammar (String × Markup)} {name : Grammar String} {B : String → Markup → Prop}
    (h : known.YieldsUnless GivesReadable Stuck fun x => B x.1 x.2) :
    (known <* .ahead tagEnd <|> plainTag name).YieldsAlways GivesReadable fun x =>
      (∃ text, x.2 = .plain text) ∨ B x.1 x.2 := by
  refine reads_orElse ((always_seqLeft_avoids h (avoids_ahead avoids_tagEnd)).imp fun _ _ _ h => .inr h) ?_
  exact reads_seq (reads_map fun _ _ _ _ _ _ => fun text _ _ => .inl ⟨_, rfl⟩) (always_true _)

theorem spelled_liquidTag : liquidTag.YieldsAlways GivesReadable Token.Spelled := by
  refine reads_orElse (reads_named (reads_map (reads_slice ?_))) (reads_orElse ?_ (reads_orElse ?_ ?_))
  · exact reads_seq (reads_seq (reads_map fun _ _ _ _ _ _ => fun _ _ _ _ _ _ => trivial) (always_true _))
      (always_true _)
  · exact reads_named (reads_map fun _ _ _ _ _ _ => trivial)
  · exact reads_named (reads_map (always_delimited (always_tagMarkup unless_blockMarkup)))
  · exact reads_named (reads_map (always_delimited (always_tagMarkup unless_tagMarkup)))

theorem spelled_drop : drop.YieldsAlways GivesReadable Token.Spelled := by
  have hmarkup : (named .dropMarkup (.value <$> filtered) <* .ahead dropEnd : Grammar DropMarkup).YieldsAlways
      GivesReadable fun m => ∀ v, m = .value v → v.Spelled := by
    refine always_seqLeft_avoids (unless_map unless_filtered ?_) (avoids_ahead avoids_dropEnd)
    rintro v hv _ ⟨⟩
    exact hv
  have hplain : ((fun text => .plain (Text.trim text)) <$> atom .markupBaseDrop (covered (upTo dropEnd)) :
      Grammar DropMarkup).YieldsAlways GivesReadable fun m => ∀ v, m = .value v → v.Spelled :=
    reads_map fun _ _ _ _ _ _ _ h => nomatch h
  refine reads_named (reads_map ((always_delimited (reads_orElse hmarkup hplain)).imp ?_))
  rintro _ ⟨_, _, markup⟩ _ h
  cases markup with
  | value v => exact h v rfl
  | plain text => trivial

theorem spelledRules : TokenRules GivesReadable (fun _ => True) Token.Spelled where
  toTracks := tracks_readable
  liquidTag := spelled_liquidTag.imp fun _ _ _ h _ => h
  drop := spelled_drop.imp fun _ _ _ h _ => h
  text _ _ _ _ := trivial
  frontMatter _ _ _ _ _ := trivial
  comment _ _ _ _ _ := trivial
  doctype _ _ _ _ _ := trivial
  openTag := by
    refine reads_openTag_of tracks_readable ?_ ?_ ?_ <;> exact fun _ _ _ _ _ _ => trivial
  closeTag := reads_closeTag_of tracks_readable fun _ _ _ _ _ => trivial
  rawElement := reads_rawElement_of tracks_readable fun _ _ _ _ _ _ _ _ _ => trivial
  attr := reads_attr_of tracks_readable fun _ _ _ _ _ _ _ _ => trivial

end Grammar

/-! ## Templates -/

/-- A token stands in another one, or is that one. -/
inductive Token.Holds : Token → Token → Prop where
  | here (t : Token) : t.Holds t
  | name {t u v : Token} (hpart : v ∈ u.nameParts) (h : v.Holds t) : u.Holds t
  | attributes {t u v : Token} (hpart : v ∈ u.attributeParts) (h : v.Holds t) : u.Holds t
  | value {t u v : Token} (hpart : v ∈ u.valueParts) (h : v.Holds t) : u.Holds t

def Token.StandsIn (t : Token) (source : String) : Prop :=
  ∃ tokens, Token.ofSource source = .ok tokens ∧ ∃ u ∈ tokens, u.Holds t

theorem Token.Everywhere.of_holds {P : Token → Prop} {t u : Token} (hu : u.Everywhere P) (h : u.Holds t) : P t := by
  induction h with
  | here t => exact hu.here
  | name hpart _ ih =>
    obtain ⟨-, hname, -, -⟩ := hu
    exact ih (hname _ hpart)
  | attributes hpart _ ih =>
    obtain ⟨-, -, hattributes, -⟩ := hu
    exact ih (hattributes _ hpart)
  | value hpart _ ih =>
    obtain ⟨-, -, -, hvalue⟩ := hu
    exact ih (hvalue _ hpart)

/-- **What stands in a template can be written.** -/
theorem Token.StandsIn.spelled {t : Token} {source : String} (h : t.StandsIn source) : t.Spelled := by
  obtain ⟨tokens, htokens, u, hu, hholds⟩ := h
  have heverywhere := Grammar.spelledRules.ofSource Grammar.givesReadable_readNested trivial htokens
  exact (heverywhere u hu).of_holds hholds

end LiquidTemplate
