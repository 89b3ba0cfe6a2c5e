import LiquidTemplate.Proofs.Grammar.Everywhere
import LiquidTemplate.Proofs.Grammar.Names
import LiquidTemplate.Proofs.Peg.Unless

/-!
# What is read can be written

The expressions and markups that the grammar gives are spelled in the way that they are read. A lookup such as
`true` is given only where a dot or bracket follows the name that cannot be read (`Stuck`), and then nothing that
holds the lookup can be read either.
-/

namespace LiquidTemplate.Grammar

open Peg

/-- A dot or bracket comes next, where the steps of a lookup have ended. -/
def Stuck (c : Cursor) : Prop :=
  c.rest.head? = some '.' ∨ c.rest.head? = some '['

/-- The recursive nonterminal gives expressions that can be written. -/
structure GivesReadable (recur : Cursor → Option (Expression × Cursor)) : Prop where
  forward : Forward recur
  spelled : ∀ c e d, recur c = some (e, d) → e.Spelled
  operand : ∀ c e d, recur c = some (e, d) → ¬ Stuck d → e.IsOperand

theorem tracks_readable : Tracks GivesReadable fun _ => True :=
  ⟨fun _ h => h.forward, fun _ _ _ _ => trivial⟩

theorem readsGiven_readable {α : Type} {p : Grammar α} {P : Cursor → α → Cursor → Prop} (h : p.Reads P) :
    p.ReadsGiven GivesReadable P :=
  fun recur hrecur => h recur hrecur.forward

/-! ## Blanks and marks -/

theorem stuck_head {c : Cursor} {q : Char → Bool} (hdot : q '.' = false) (hbracket : q '[' = false) (h : Stuck c) :
    c.rest.head?.any q = false := by
  rcases h with h | h <;> simp [h, hdot, hbracket]

theorem avoids_class {q : Char → Bool} (hdot : q '.' = false) (hbracket : q '[' = false) :
    (Peg.char q : Grammar Char).Avoids GivesReadable Stuck :=
  avoids_char fun _ => stuck_head hdot hbracket

theorem avoids_mark {s : String} {a : Char} {as : List Char} (hs : s.toList = a :: as) (hdot : a ≠ '.')
    (hbracket : a ≠ '[') :
    (Peg.text s : Grammar Unit).Avoids GivesReadable Stuck := by
  refine avoids_text hs fun c h => ?_
  rcases h with h | h <;> simp [h, Ne.symm hdot, Ne.symm hbracket]

theorem keeps_blanks : blanks.Keeps GivesReadable Stuck :=
  keeps_map (keeps_many (avoids_class rfl rfl).keeps)

theorem avoids_blanks1 : blanks1.Avoids GivesReadable Stuck :=
  avoids_map (avoids_seq (avoids_map (avoids_class rfl rfl)))

theorem avoids_comma : comma.Avoids GivesReadable Stuck :=
  avoids_seqLeft (avoids_seqRight_keeps keeps_blanks (avoids_mark rfl (by decide) (by decide)))

theorem avoids_colon : colon.Avoids GivesReadable Stuck :=
  avoids_seqLeft (avoids_seqRight_keeps keeps_blanks (avoids_mark rfl (by decide) (by decide)))

/-! ## Lookups -/

theorem always_bracketStep : bracketStep.YieldsAlways GivesReadable fun s => ∃ key, s = .bracket key ∧ s.Spelled := by
  have hkey : (Peg.recur : Grammar Expression).YieldsUnless GivesReadable Stuck Expression.Readable :=
    fun recur hrecur c e d hread hstuck => ⟨hrecur.operand c e d hread hstuck, hrecur.spelled c e d hread⟩
  have hclosed := always_seqLeft_avoids (unless_seqLeft_keeps (unless_seqRight (p := .text "[" *> blanks) hkey)
    keeps_blanks) (avoids_mark (s := "]") rfl (by decide) (by decide))
  exact reads_named (reads_map (hclosed.imp fun _ key _ h => ⟨key, rfl, h.operand, h.spelled⟩))

theorem always_dotStep : dotStep.YieldsAlways GivesReadable Lookup.Spelled := by
  have hname : (atom .lookupName (covered askingName) : Grammar String).YieldsAlways GivesReadable fun s =>
      Text.IsAskingName s.toList :=
    readsGiven_readable (reads_variableName.imp fun _ _ _ h => h.2.isAskingName)
  exact reads_named (reads_map (always_seqRight hname))

theorem reads_lookup : lookup.ReadsGiven GivesReadable fun c e d => ∃ name steps, e = .lookup name steps ∧
    (Expression.lookup name steps).Spelled ∧
    ∀ n ∈ name, ∃ d₁ : Cursor, c.rest = n.toList ++ d₁.rest ∧ NameBefore n.toList d₁ ∧ (steps = [] → d₁ = d) := by
  have hsteps : (Peg.many (dotStep <|> bracketStep)).ReadsGiven GivesReadable fun c steps d =>
      (∀ s ∈ steps, s.Spelled) ∧ (steps = [] → c = d) := by
    refine reads_many (reads_orElse always_dotStep (always_bracketStep.imp fun _ _ _ ⟨_, _, h⟩ => h))
      (fun c => ⟨by simp, fun _ => rfl⟩) ?_
    exact fun c s d steps e hs ⟨hsteps, _⟩ => ⟨List.forall_mem_cons.2 ⟨hs, hsteps⟩, by simp⟩
  refine reads_named (reads_seq (reads_map (reads_orElse (reads_map ?_) (reads_map ?_))) hsteps)
  · refine (readsGiven_readable reads_variableName).imp ?_
    rintro c name d ⟨hrest, hname⟩ steps e ⟨hsteps, hend⟩
    refine ⟨some name, steps, rfl, ⟨hname.isAskingName, spelledSteps_iff.2 hsteps⟩, ?_⟩
    rintro n ⟨⟩
    exact ⟨d, hrest, hname, hend⟩
  · refine always_bracketStep.imp ?_
    rintro c step d ⟨key, rfl, hstep⟩ steps e ⟨hsteps, -⟩
    exact ⟨none, .bracket key :: steps, rfl,
      ⟨⟨key, steps, rfl⟩, spelledSteps_iff.2 (List.forall_mem_cons.2 ⟨hstep, hsteps⟩)⟩, by simp⟩

theorem reads_range : range.ReadsGiven GivesReadable fun _ e _ => e.Spelled ∧ e.IsOperand := by
  have hend : rangeEnd.YieldsAlways GivesReadable fun e => e.IsRangeEnd ∧ e.Spelled := by
    refine reads_orElse (readsGiven_readable (reads_number.imp ?_)) (reads_lookup.imp ?_)
    · rintro c e d ⟨digits, rfl, hdigits⟩
      exact ⟨trivial, hdigits⟩
    · rintro c e d ⟨name, steps, rfl, hspelled, -⟩
      exact ⟨trivial, hspelled⟩
  have hfirst := always_seqLeft (q := blanks) (always_seqRight (p := .text "(" *> blanks) hend)
  have hlast := always_seqLeft (q := .text ")") (always_seqLeft (q := blanks)
    (always_seqRight (p := .text ".." *> blanks) hend))
  exact reads_named (reads_seq (reads_map (hfirst.imp fun _ _ _ h _ _ h' => ⟨⟨h, h'⟩, trivial⟩)) hlast)

/-- Where no keyword can be read, a lookup goes on like a lookup, unless its steps are stuck. -/
theorem isOperand_of_lookup {recur : Cursor → Option (Expression × Cursor)} {c d : Cursor} {name : Option String}
    {steps : List Lookup} (hkeyword : keyword.read recur c = none)
    (hname : ∀ n ∈ name, ∃ d₁ : Cursor, c.rest = n.toList ++ d₁.rest ∧ NameBefore n.toList d₁ ∧ (steps = [] → d₁ = d))
    (hstuck : ¬ Stuck d) : (Expression.lookup name steps).IsOperand := by
  cases name with
  | none => trivial
  | some n =>
    obtain ⟨d₁, hrest, hbefore, hend⟩ := hname n rfl
    intro k
    have hnot : ∀ {r}, c.rest = k.word.toList ++ r → ¬ KeywordEnds r := by
      intro r hr hends
      rw [(takes_keyword k hends).read hr] at hkeyword
      cases hkeyword
    constructor
    · rintro rfl rfl
      obtain rfl := hend rfl
      rcases hbefore with ⟨-, hopens, -⟩ | ⟨v, hv, -⟩
      · exact hnot hrest ⟨hopens, fun h => hstuck (.inl h), fun h => hstuck (.inr h)⟩
      · have hlast := congrArg List.getLast? hv
        cases k <;> simp [Keyword.word] at hlast
    · rintro rfl
      refine hnot (r := '?' :: d₁.rest) (by simpa using hrest) ⟨?_, by simp, by simp⟩
      exact Text.opensNameChar_of_joinsName (by simp [Text.joinsName, Text.isWordChar])

theorem reads_expression : expression.ReadsGiven GivesReadable fun _ e d =>
    e.Spelled ∧ (¬ Stuck d → e.IsOperand) := by
  intro recur hrecur c e d hread
  rcases Option.or_eq_some_iff.1 hread with h | ⟨-, hread⟩
  · have hstring : (Expression.string <$> string).Reads fun _ e _ => e.Spelled ∧ e.IsOperand :=
      reads_map (reads_string.imp fun _ _ _ h => ⟨h, trivial⟩)
    obtain ⟨hspelled, hoperand⟩ := hstring recur hrecur.forward c e d h
    exact ⟨hspelled, fun _ => hoperand⟩
  rcases Option.or_eq_some_iff.1 hread with h | ⟨-, hread⟩
  · obtain ⟨digits, rfl, hdigits⟩ := reads_number recur hrecur.forward c e d h
    exact ⟨hdigits, fun _ => trivial⟩
  rcases Option.or_eq_some_iff.1 hread with h | ⟨hkeyword, hread⟩
  · have hword : (Expression.keyword <$> keyword).Reads fun _ e _ => e.Spelled ∧ e.IsOperand :=
      reads_map fun _ _ _ _ _ _ => ⟨trivial, trivial⟩
    obtain ⟨hspelled, hoperand⟩ := hword recur hrecur.forward c e d h
    exact ⟨hspelled, fun _ => hoperand⟩
  rcases Option.or_eq_some_iff.1 hread with h | ⟨-, hread⟩
  · obtain ⟨hspelled, hoperand⟩ := reads_range recur hrecur c e d h
    exact ⟨hspelled, fun _ => hoperand⟩
  · obtain ⟨name, steps, rfl, hspelled, hname⟩ := reads_lookup recur hrecur c e d hread
    exact ⟨hspelled, isOperand_of_lookup (by simpa [read_map] using hkeyword) hname⟩

theorem givesReadable_readNested (depth : Nat) : GivesReadable (readNested expression depth) := by
  induction depth with
  | zero => exact ⟨forward_readNested _ 0, by simp [readNested], by simp [readNested]⟩
  | succ depth ih =>
    exact ⟨forward_readNested _ _, fun c e d h => (reads_expression _ ih c e d h).1,
      fun c e d h => (reads_expression _ ih c e d h).2⟩

theorem unless_expression : expression.YieldsUnless GivesReadable Stuck Expression.Readable :=
  reads_expression.imp fun _ _ _ h hstuck => ⟨h.2 hstuck, h.1⟩

/-! ## Arguments and filters -/

theorem always_plainName (rule : Rule) : (atom rule (covered plainName) : Grammar String).YieldsAlways GivesReadable
    fun s => Text.IsPlainName s.toList :=
  readsGiven_readable (reads_atom
    ((reads_covered (A := fun w d => Text.IsPlainName w ∧ Text.opensNameChar d.rest = false)
    reads_plainName).imp fun _ _ _ h => h.2.1))

theorem always_variableName : variableName.YieldsAlways GivesReadable fun s => Text.IsAskingName s.toList :=
  readsGiven_readable (reads_variableName.imp fun _ _ _ h => h.2.isAskingName)

theorem unless_sepBy1 {α β : Type} {item : Grammar α} {separator : Grammar β} {A : α → Prop}
    (hitem : item.YieldsUnless GivesReadable Stuck A) (hseparator : separator.Avoids GivesReadable Stuck) :
    (sepBy1 item separator).YieldsUnless GivesReadable Stuck fun xs => xs ≠ [] ∧ ∀ x ∈ xs, A x := by
  have hkeeps := (avoids_seqRight (q := item) hseparator).keeps
  refine unless_seq_keeps (unless_map hitem ?_) (unless_many (unless_seqRight hitem) hkeeps) (keeps_many hkeeps)
  exact fun x hx xs hxs => ⟨by simp, List.forall_mem_cons.2 ⟨hx, hxs⟩⟩

theorem unless_namedArgument : namedArgument.YieldsUnless GivesReadable Stuck NamedArgument.Spelled :=
  unless_seq (reads_map ((always_plainName _).imp fun _ _ _ hname _ hvalue => ⟨hname, hvalue⟩))
    (unless_seqRight unless_expression)

theorem avoids_argument : (argumentSeparator *> namedArgument).Avoids GivesReadable Stuck :=
  avoids_seqRight (avoids_orElse avoids_comma avoids_blanks1)

theorem keeps_namedArguments : namedArguments.Keeps GivesReadable Stuck :=
  keeps_many avoids_argument.keeps

theorem unless_namedArguments : namedArguments.YieldsUnless GivesReadable Stuck fun arguments =>
    ∀ a ∈ arguments, a.Spelled :=
  unless_many (unless_seqRight unless_namedArgument) avoids_argument.keeps

theorem unless_filter : filter.YieldsUnless GivesReadable Stuck Filter.Spelled := by
  have hargument : filterArgument.YieldsUnless GivesReadable Stuck Argument.Spelled :=
    unless_orElse (unless_map unless_namedArgument fun _ h => h) (unless_map unless_expression fun _ h => h)
  have harguments := unless_opt (unless_seqRight (p := colon) (unless_sepBy1 hargument avoids_comma))
  have hname := always_seqRight (p := blanks *> .text "|" *> blanks) (always_plainName .filterName)
  refine unless_seq (reads_map (hname.imp ?_)) harguments
  intro c name d hname arguments harguments
  cases arguments with
  | none => exact ⟨hname, by simp⟩
  | some arguments => exact ⟨hname, (harguments _ rfl).2⟩

theorem avoids_filter : filter.Avoids GivesReadable Stuck :=
  avoids_seq (avoids_map (avoids_seqRight (avoids_seqRight (avoids_seqRight_keeps keeps_blanks
    (avoids_mark rfl (by decide) (by decide))))))

theorem unless_filtered : filtered.YieldsUnless GivesReadable Stuck Filtered.Spelled :=
  unless_seq_keeps (unless_map unless_expression fun _ hsubject _ hfilters => ⟨hsubject, hfilters⟩)
    (unless_many unless_filter avoids_filter.keeps) (keeps_many avoids_filter.keeps)

/-! ## Conditions -/

theorem avoids_word {s : String} {a : Char} {as : List Char} (hs : s.toList = a :: as) (hdot : a ≠ '.')
    (hbracket : a ≠ '[') : (word s).Avoids GivesReadable Stuck :=
  avoids_seqLeft (avoids_map (avoids_mark hs hdot hbracket))

theorem avoids_comparator : comparator.Avoids GivesReadable Stuck := by
  have hsymbol (c : Comparator) : (comparatorOf c).Avoids GivesReadable Stuck := by
    cases c <;> exact avoids_map (avoids_mark rfl (by decide) (by decide))
  exact avoids_orElse (hsymbol _) (avoids_orElse (hsymbol _) (avoids_orElse (hsymbol _) (avoids_orElse (hsymbol _)
    (avoids_orElse (hsymbol _) (avoids_orElse (hsymbol _) (avoids_orElse (hsymbol _)
      (avoids_map (avoids_word rfl (by decide) (by decide)))))))))

theorem unless_simpleCondition : simpleCondition.YieldsUnless GivesReadable Stuck fun test =>
    test.IsSimple ∧ test.Spelled := by
  refine unless_orElse ?_ (unless_map unless_expression fun _ h => ⟨trivial, h⟩)
  have hcomparator : (blanks *> comparator <* blanks).Avoids GivesReadable Stuck :=
    avoids_seqLeft (avoids_seqRight_keeps keeps_blanks avoids_comparator)
  refine unless_seq (always_seq_avoids (unless_map unless_expression ?_) (always_true _) hcomparator) unless_expression
  exact fun left hleft c _ right hright => ⟨trivial, hleft, hright⟩

theorem Condition.spelled_chain {first : Condition} {more : List (Connective × Condition)}
    (hfirst : first.IsSimple ∧ first.Spelled)
    (hmore : ∀ x ∈ more, x.2.IsSimple ∧ x.2.Spelled) : (Condition.chain first more).Spelled := by
  induction more generalizing first with
  | nil => exact hfirst.2
  | cons next more ih =>
    obtain ⟨hnext, hmore⟩ := List.forall_mem_cons.1 hmore
    exact ⟨hfirst.1, hfirst.2, ih hnext hmore⟩

theorem unless_condition : condition.YieldsUnless GivesReadable Stuck Condition.Spelled := by
  have hnext : (Prod.mk <$> (blanks1 *> connective <* blanks1) <*> simpleCondition).YieldsUnless GivesReadable Stuck
      fun x => x.2.IsSimple ∧ x.2.Spelled :=
    unless_seq (reads_map ((always_true _).imp fun _ _ _ _ _ h => h)) unless_simpleCondition
  have hkeeps : (Prod.mk <$> (blanks1 *> connective <* blanks1) <*> simpleCondition).Keeps GivesReadable Stuck :=
    (avoids_seq (avoids_map (avoids_seqLeft (avoids_seqRight avoids_blanks1)))).keeps
  exact unless_seq_keeps (unless_map unless_simpleCondition fun _ hfirst _ hmore =>
    Condition.spelled_chain hfirst hmore)
    (unless_many hnext hkeeps) (keeps_many hkeeps)

end LiquidTemplate.Grammar
