import LiquidTemplate.Proofs.Grammar.Delimited
import LiquidTemplate.Proofs.Markup.Spelling
import LiquidTemplate.Proofs.Text.Lines

/-!
# Written markup is read again

The text of a tag with known markup, from its name up to the end of the tag, is read as that name and that markup
(`takes_blockMarkup`, `takes_tagMarkup`). One kind of markup is written in a way that is read differently: a loop that
does not run in reverse, but whose first argument has a name that starts like the word for it
(`Markup.hidesArgument`).
-/

namespace LiquidTemplate

/-- A loop is written without the word `reversed`, and an argument that starts like that word stands in its place. -/
def Markup.hidesArgument : Markup → Bool
  | .loop _ _ false (a :: _) =>
    (Text.stripStart? "reversed".toList a.name.toList).any fun more => !more.head?.any Text.isWordChar
  | _ => false

theorem Condition.Spelled.exists_chain {test : Condition} (h : test.Spelled) : ∃ first more,
    test = chain first more ∧ (first.IsSimple ∧ first.Spelled) ∧ ∀ x ∈ more, x.2.IsSimple ∧ x.2.Spelled := by
  induction test with
  | truthy e => exact ⟨.truthy e, [], rfl, ⟨trivial, h⟩, by simp⟩
  | compare c left right => exact ⟨.compare c left right, [], rfl, ⟨trivial, h⟩, by simp⟩
  | join c left right _ ih =>
    obtain ⟨hsimple, hleft, hright⟩ := h
    obtain ⟨first, more, rfl, hfirst, hmore⟩ := ih hright
    exact ⟨left, (c, first) :: more, rfl, ⟨hsimple, hleft⟩, List.forall_mem_cons.2 ⟨hfirst, hmore⟩⟩

/-- The text that joins a condition to the one before it. -/
def linkText (q : Quote) (link : Connective × Condition) : List Char :=
  " ".toList ++ link.1.word.toList ++ " ".toList ++ (link.2.render q).toList

theorem Condition.toList_renderChain (q : Quote) (first : Condition) (more : List (Connective × Condition)) :
    ((chain first more).render q).toList = (first.render q).toList ++ more.flatMap (linkText q) := by
  induction more generalizing first with
  | nil => simp [chain]
  | cons link more ih => simp [chain, render, ih, linkText]

theorem Condition.norm_chain (q : Quote) (first : Condition) (more : List (Connective × Condition)) :
    (chain first more).norm q = chain (first.norm q) (more.map fun link => (link.1, link.2.norm q)) := by
  induction more generalizing first with
  | nil => rfl
  | cons link more ih => simp [chain, norm, ih]

theorem toList_renderArguments (q : Quote) (separator : String) (arguments : List NamedArgument) :
    (renderArguments q separator arguments).toList =
      arguments.flatMap fun a => separator.toList ++ (a.render q).toList := by
  simp [renderArguments, String.toList_join, List.flatMap_map]

namespace Grammar

open Peg

variable {recur : Cursor → Option (Expression × Cursor)} {q : Quote} {rest : List Char}

/-! ## The end of a tag -/

def TagEnds (rest : List Char) : Prop :=
  ∃ after, rest = " ".toList ++ (closingChars tagClose false ++ after)

theorem TagEnds.ends (h : TagEnds rest) : Ends rest := by
  obtain ⟨after, rfl⟩ := h
  exact ends_cons (by decide)

theorem TagEnds.dropWhile (h : TagEnds rest) : ∃ after, rest.dropWhile Text.isBlank = '%' :: after := by
  obtain ⟨after, rfl⟩ := h
  exact ⟨_, rfl⟩

theorem TagEnds.afterBlanks (h : TagEnds rest) {a : Char} (ha : a ≠ '%') : Text.afterBlanks rest ≠ some a := by
  obtain ⟨after, hafter⟩ := h.dropWhile
  simpa [Text.afterBlanks, hafter] using ha.symm

theorem TagEnds.filterEnds (h : TagEnds rest) : FilterEnds rest :=
  ⟨h.ends, h.afterBlanks (by decide), h.afterBlanks (by decide)⟩

theorem takes_space (hrest : rest.head?.any Text.isBlank = false) : blanks1.Takes recur " ".toList rest () :=
  takes_blanks1 (by decide) (by decide) hrest

theorem TagEnds.refuses (h : TagEnds rest) {α : Type} {p : Grammar α} (hp : ∀ after, p.Refuses recur ('%' :: after)) :
    (blanks1 *> p).Refuses recur rest := by
  obtain ⟨after, rfl⟩ := h
  exact refuses_seqRight_right (takes_space rfl) (hp _)

theorem refuses_word_percent {s : String} (hs : s.toList.all Text.isWordChar = true) (hne : s.toList ≠ [])
    (after : List Char) : (word s).Refuses recur ('%' :: after) :=
  refuses_word (w := []) hs rfl rfl hne

/-! ## Conditions -/

theorem takes_comparator (c : Comparator) : comparator.Takes recur c.symbol.toList (' ' :: rest) c := by
  have hskip {c' : Comparator} (h : Text.stripStart? c'.symbol.toList (c.symbol.toList ++ ' ' :: rest) = none) :
      (comparatorOf c').Refuses recur (c.symbol.toList ++ ' ' :: rest) := refuses_giving (refuses_text h)
  have htakes : (comparatorOf c).Takes recur c.symbol.toList (' ' :: rest) c := takes_giving takes_text
  rw [comparator]
  apply takes_atom
  cases c with
  | equal => exact takes_orElse_left htakes
  | notEqual =>
    iterate 1 refine takes_orElse_right (hskip rfl) ?_
    exact takes_orElse_left htakes
  | lessOrGreater =>
    iterate 2 refine takes_orElse_right (hskip rfl) ?_
    exact takes_orElse_left htakes
  | greaterOrEqual =>
    iterate 3 refine takes_orElse_right (hskip rfl) ?_
    exact takes_orElse_left htakes
  | lessOrEqual =>
    iterate 4 refine takes_orElse_right (hskip rfl) ?_
    exact takes_orElse_left htakes
  | greater =>
    iterate 5 refine takes_orElse_right (hskip rfl) ?_
    exact takes_orElse_left htakes
  | less =>
    iterate 6 refine takes_orElse_right (hskip rfl) ?_
    exact takes_orElse_left htakes
  | contains =>
    iterate 7 refine takes_orElse_right (hskip rfl) ?_
    exact takes_giving (takes_word rfl)

def comparatorStarts : List Char :=
  ['=', '!', '<', '>', 'c']

theorem refuses_comparator {a : Char} {w : List Char} (ha : a ∉ comparatorStarts) :
    comparator.Refuses recur (a :: w) := by
  have hskip (c : Comparator) : Text.stripStart? c.symbol.toList (a :: w) = none := by
    have hfirst : ∃ b bs, c.symbol.toList = b :: bs ∧ b ∈ comparatorStarts := by
      cases c <;> exact ⟨_, _, rfl, by decide⟩
    obtain ⟨b, bs, hsymbol, hb⟩ := hfirst
    refine stripStart?_eq_none hsymbol ?_
    rintro ⟨⟩
    exact ha hb
  have hsymbol (c : Comparator) : (comparatorOf c).Refuses recur (a :: w) := refuses_giving (refuses_text (hskip c))
  refine refuses_atom (refuses_orElse (hsymbol _) (refuses_orElse (hsymbol _) (refuses_orElse (hsymbol _)
    (refuses_orElse (hsymbol _) (refuses_orElse (hsymbol _) (refuses_orElse (hsymbol _)
      (refuses_orElse (hsymbol _) ?_)))))))
  exact refuses_giving (refuses_seqLeft_left (refuses_giving (refuses_text (hskip .contains))))

structure ConditionEnds (rest : List Char) : Prop where
  ends : Ends rest
  comparator : ∃ a w, rest.dropWhile Text.isBlank = a :: w ∧ a ∉ comparatorStarts

theorem TagEnds.conditionEnds (h : TagEnds rest) : ConditionEnds rest := by
  obtain ⟨after, hafter⟩ := h.dropWhile
  exact ⟨h.ends, '%', after, hafter, by decide⟩

theorem conditionEnds_linkText (link : Connective × Condition) : ConditionEnds (linkText q link ++ rest) := by
  obtain ⟨c, next⟩ := link
  refine ⟨ends_cons (by decide), ?_⟩
  cases c with
  | and =>
    refine ⟨'a', "nd ".toList ++ ((next.render q).toList ++ rest), ?_, by decide⟩
    simp [linkText, Connective.word, Text.isBlank]
  | or =>
    refine ⟨'o', "r ".toList ++ ((next.render q).toList ++ rest), ?_, by decide⟩
    simp [linkText, Connective.word, Text.isBlank]

theorem takes_simpleCondition {test : Condition} (hsimple : test.IsSimple) (h : test.Spelled)
    (hrest : ConditionEnds rest) :
    simpleCondition.Takes keys (test.render q).toList rest (test.norm q) := by
  cases test with
  | truthy e =>
    obtain ⟨a, w, hw, ha⟩ := hrest.comparator
    have hnone : (blanks *> comparator).Refuses keys rest := by
      refine refuses_after_blanks ?_
      rw [hw]
      exact refuses_comparator ha
    have hcomparison : comparison.Refuses keys ((e.render q).toList ++ rest) :=
      refuses_named (refuses_seq_left (refuses_seq_right (takes_map (takes_expression hrest.ends h))
        (refuses_seqLeft_left hnone)))
    exact takes_named (takes_orElse_right hcomparison (takes_map (takes_expression hrest.ends h)))
  | compare c left right =>
    obtain ⟨hleft, hright⟩ := h
    have htext : ((Condition.compare c left right).render q).toList =
        (left.render q).toList ++ ((" ".toList ++ c.symbol.toList) ++ " ".toList) ++ (right.render q).toList := by
      simp [Condition.render]
    have hcomparator : (blanks *> comparator <* blanks).Takes keys ((" ".toList ++ c.symbol.toList) ++ " ".toList)
        ((right.render q).toList ++ rest) c := by
      refine takes_seqLeft (takes_seqRight (takes_blanks (by decide) ?_) (takes_comparator c))
        (takes_blanks (by decide) (head_render hright.spelled q rest))
      cases c <;> rfl
    rw [htext]
    exact takes_named (takes_orElse_left
      (takes_named (takes_seq (g := fun right => Condition.compare c (left.norm q) right)
      (takes_seq (g := fun c right => Condition.compare c (left.norm q) right)
        (takes_map (takes_expression (ends_cons (by decide)) hleft)) hcomparator)
      (takes_expression hrest.ends hright))))
  | join => exact absurd hsimple id

theorem head_renderCondition {test : Condition} (h : test.Spelled) (q : Quote) (rest : List Char) :
    ((test.render q).toList ++ rest).head?.any Text.isBlank = false := by
  induction test generalizing rest with
  | truthy e => exact head_render h.spelled q rest
  | compare c left right =>
    simp only [Condition.render, String.toList_append, List.append_assoc]
    exact head_render h.1.spelled q _
  | join c left right ih _ =>
    simp only [Condition.render, String.toList_append, List.append_assoc]
    exact ih h.2.1 _

theorem takes_connective (c : Connective) : connective.Takes recur c.word.toList (' ' :: rest) c := by
  cases c with
  | and => exact takes_atom (takes_orElse_left (takes_giving (takes_word rfl)))
  | or =>
    refine takes_atom (takes_orElse_right (refuses_giving ?_) (takes_giving (takes_word rfl)))
    exact refuses_word (by decide) (by decide) rfl (by decide)

/-- **A condition is read as what it was written from.** -/
theorem takes_condition {test : Condition} (h : test.Spelled) (hrest : TagEnds rest) :
    condition.Takes keys (test.render q).toList rest (test.norm q) := by
  obtain ⟨first, more, rfl, ⟨hsimple, hfirst⟩, hmore⟩ := h.exists_chain
  have hlink : ∀ link ∈ more, ∀ rest, ConditionEnds rest →
      (Prod.mk <$> (blanks1 *> connective <* blanks1) <*> simpleCondition).Takes keys (linkText q link) rest
        (link.1, link.2.norm q) := by
    intro link hlink rest hrest
    obtain ⟨hsimple, hspelled⟩ := hmore link hlink
    refine takes_seq (g := Prod.mk link.1) (takes_map (takes_seqLeft (takes_seqRight (takes_space ?_)
      (takes_connective link.1)) (takes_space (head_renderCondition hspelled q rest))))
      (takes_simpleCondition hsimple hspelled hrest)
    cases link.1 <;> rfl
  have hstop : (Prod.mk <$> (blanks1 *> connective <* blanks1) <*> simpleCondition).Refuses keys rest := by
    refine refuses_seq_left (refuses_map (refuses_seqLeft_left (hrest.refuses fun after => ?_)))
    exact refuses_atom (refuses_orElse (refuses_giving (refuses_word_percent (by decide) (by decide) after))
      (refuses_giving (refuses_word_percent (by decide) (by decide) after)))
  have hlinks := takesMany_each hlink (fun link _ => by simp [linkText])
    (fun link _ rest => conditionEnds_linkText link)
    hrest.conditionEnds hstop
  rw [Condition.toList_renderChain, Condition.norm_chain]
  exact takes_named (takes_seq (takes_map (takes_simpleCondition hsimple hfirst hlinks.2)) hlinks.1.takes)

/-! ## Named arguments -/

theorem head_renderNamed {a : NamedArgument} (h : a.Spelled) (q : Quote) (rest : List Char) :
    ((a.render q).toList ++ rest).head?.any Text.isBlank = false :=
  head_renderArgument (a := .named a) h q rest

theorem takes_argumentSeparator {separator : String} (hseparator : separator = " " ∨ separator = ", ")
    {a : NamedArgument} (h : a.Spelled) :
    argumentSeparator.Takes recur separator.toList ((a.render q).toList ++ rest) () := by
  rcases hseparator with rfl | rfl
  · obtain ⟨b, v, hv, hb, -⟩ := h.name
    have hblank : Text.isBlank b = false := Text.isBlank_of_opensExpression (Text.opensExpression_of_isNameStart hb)
    have hafter : Text.afterBlanks (" ".toList ++ ((a.render q).toList ++ rest)) ≠ some ',' := by
      rw [Text.afterBlanks_append (by decide), NamedArgument.render, String.toList_append, String.toList_append, hv]
      rw [List.cons_append, List.cons_append, List.cons_append, Text.afterBlanks_cons hblank]
      rintro ⟨⟩
      exact absurd hb (by decide)
    exact takes_orElse_right (refuses_comma hafter) (takes_space (head_renderNamed h q rest))
  · exact takes_orElse_left (takes_comma (head_renderNamed h q rest))

theorem takes_namedArguments {separator : String} (hseparator : separator = " " ∨ separator = ", ")
    {arguments : List NamedArgument} (h : ∀ a ∈ arguments, a.Spelled) (hrest : TagEnds rest) :
    namedArguments.Takes keys (renderArguments q separator arguments).toList rest
      (arguments.map (NamedArgument.norm q)) ∧
      Ends ((renderArguments q separator arguments).toList ++ rest) := by
  have hitem : ∀ a ∈ arguments, ∀ rest, Ends rest → (argumentSeparator *> namedArgument).Takes keys
      (separator.toList ++ (a.render q).toList) rest (a.norm q) :=
    fun a ha rest hrest => takes_seqRight (takes_argumentSeparator hseparator (h a ha))
      (takes_namedArgument (h a ha) hrest)
  have hends : ∀ a ∈ arguments, ∀ rest, Ends (separator.toList ++ (a.render q).toList ++ rest) := by
    intro a _ rest
    rcases hseparator with rfl | rfl <;> exact ends_cons (by decide)
  have hstop : (argumentSeparator *> namedArgument).Refuses keys rest := by
    have hcomma : comma.Refuses keys rest := refuses_comma (hrest.afterBlanks (by decide))
    obtain ⟨after, rfl⟩ := hrest
    exact refuses_seqRight_right (takes_orElse_right hcomma (takes_space rfl)) (refuses_namedArgument rfl)
  have hmany := takesMany_each hitem (fun a _ => by rcases hseparator with rfl | rfl <;> simp) hends hrest.ends hstop
  rw [toList_renderArguments]
  exact ⟨hmany.1.takes, hmany.2⟩

/-! ## Tags that open a block -/

theorem takes_wordGap {s : String} (hrest : rest.head?.any Text.isBlank = false) :
    (word s <* blanks1).Takes recur (s.toList ++ " ".toList) rest s :=
  takes_seqLeft (takes_word rfl) (takes_space hrest)

theorem takes_wordGap₂ {s t name : String} (hs : s.toList.all Text.isWordChar = true)
    (ht : t.toList.all Text.isWordChar = true) (hne : s.toList ≠ t.toList) (hname : name = s ∨ name = t)
    (hrest : rest.head?.any Text.isBlank = false) :
    ((word s <|> word t) <* blanks1).Takes recur (name.toList ++ " ".toList) rest name := by
  refine takes_seqLeft ?_ (takes_space hrest)
  rcases hname with rfl | rfl
  · exact takes_orElse_left (takes_word rfl)
  · exact takes_orElse_right (refuses_word hs ht rfl hne) (takes_word rfl)

theorem head_name {name : String} (h : Text.IsAskingName name.toList) (rest : List Char) :
    (name.toList ++ rest).head?.any Text.isBlank = false := by
  obtain ⟨a, v, hv, ha⟩ := h.exists_cons
  rw [hv]
  exact Text.isBlank_of_opensExpression (Text.opensExpression_of_isNameStart ha)

theorem takes_ifMarkup {name : String} (hname : name = "if" ∨ name = "unless") {test : Condition} (h : test.Spelled)
    (hrest : TagEnds rest) : ifMarkup.Takes keys (name.toList ++ " ".toList ++ (test.render q).toList) rest
      (name, .condition (test.norm q)) :=
  takes_named (takes_seq (takes_map (takes_wordGap₂ (by decide) (by decide) (by decide) hname
    (head_renderCondition h q rest))) (takes_map (takes_condition h hrest)))

theorem takes_caseMarkup {value : Expression} (h : value.Readable) (hrest : TagEnds rest) :
    caseMarkup.Takes keys ("case".toList ++ " ".toList ++ (value.render q).toList) rest
      ("case", .subject (value.norm q)) :=
  takes_named (takes_seq (takes_map (takes_wordGap (head_render h.spelled q rest)))
    (takes_map (takes_expression hrest.ends h)))

/-- A word is not read from a name that goes on after it. -/
theorem refuses_word_name {s name : String} (hs : s.toList.all Text.isWordChar = true)
    (h : (Text.stripStart? s.toList name.toList).any (fun more => !more.head?.any Text.isWordChar) = false) :
    (word s).Refuses recur (name.toList ++ ':' :: rest) := by
  cases hstrip : Text.stripStart? s.toList (name.toList ++ ':' :: rest) with
  | none => exact refuses_seqLeft_left (refuses_giving (refuses_text hstrip))
  | some r =>
    have hsplit : name.toList ++ ':' :: rest = s.toList ++ r := Text.stripStart?_eq_some_iff.1 hstrip
    rcases List.append_eq_append_iff.1 hsplit with ⟨v, hv, hr⟩ | ⟨v, hv, hr⟩
    · cases v with
      | nil =>
        have hwhole : Text.stripStart? s.toList name.toList = some [] := by
          rw [Text.stripStart?_eq_some_iff, hv, List.append_nil, List.append_nil]
        simp [hwhole] at h
      | cons a v =>
        obtain ⟨rfl, -⟩ := List.cons_eq_cons.1 hr
        rw [List.all_eq_true] at hs
        exact absurd (hs ':' (by simp [hv])) (by decide)
    · have hmore : Text.stripStart? s.toList name.toList = some v := Text.stripStart?_eq_some_iff.2 hv
      simp only [hmore, Option.any_some, Bool.not_eq_false'] at h
      cases v with
      | nil => cases h
      | cons a v =>
        have hnext : (Peg.char Text.isWordChar : Grammar Char).Takes recur [a] (v ++ ':' :: rest) a := takes_char h
        rw [hv, List.append_assoc]
        exact refuses_seqLeft_right (takes_giving takes_text) (s := [a] ++ (v ++ ':' :: rest)) (refuses_notAhead hnext)

theorem takes_reversed {item : String} {collection : Expression} {reversed : Bool} {arguments : List NamedArgument}
    (h : ∀ a ∈ arguments, a.Spelled) (hshown : (Markup.loop item collection reversed arguments).hidesArgument = false)
    (hrest : TagEnds rest) : (flag (blanks1 *> named .reversed (word "reversed"))).Takes keys
      (if reversed then " reversed" else "").toList ((renderArguments q " " arguments).toList ++ rest) reversed := by
  cases reversed with
  | true =>
    have hends := (takes_namedArguments (q := q) (.inl rfl) h hrest).2
    exact takes_flag_true (takes_seqRight (u := " ".toList) (takes_space rfl)
      (takes_named (takes_word (hends.head_any (by decide)))))
  | false =>
    refine takes_flag_false ?_
    rw [toList_renderArguments]
    cases arguments with
    | nil => exact hrest.refuses fun after => refuses_named (refuses_word_percent (by decide) (by decide) after)
    | cons a arguments =>
      have htext : ((a :: arguments).flatMap fun a => " ".toList ++ (a.render q).toList) ++ rest = " ".toList ++
          (a.name.toList ++ ':' :: (" ".toList ++ (a.value.render q).toList ++
            ((arguments.flatMap fun a => " ".toList ++ (a.render q).toList) ++ rest))) := by
        simp [NamedArgument.render]
      rw [htext]
      exact refuses_seqRight_right (takes_space (head_name (.inl (h a (by simp)).name) _))
        (refuses_named (refuses_word_name (by decide) hshown))

theorem takes_forMarkup {name item : String} (hname : name = "for" ∨ name = "tablerow")
    (hitem : Text.IsAskingName item.toList) {collection : Expression} (hcollection : collection.Readable)
    {reversed : Bool} {arguments : List NamedArgument} (h : ∀ a ∈ arguments, a.Spelled)
    (hshown : (Markup.loop item collection reversed arguments).hidesArgument = false) (hrest : TagEnds rest) :
    forMarkup.Takes keys (name.toList ++ " ".toList ++
      ((Markup.loop item collection reversed arguments).render q).toList)
      rest (name, (Markup.loop item collection reversed arguments).norm q) := by
  have htext : name.toList ++ " ".toList ++ ((Markup.loop item collection reversed arguments).render q).toList =
      (name.toList ++ " ".toList) ++ (item.toList ++ " ".toList ++ "in".toList ++ " ".toList) ++
        (collection.render q).toList ++ (if reversed then " reversed" else "").toList ++
        (renderArguments q " " arguments).toList := by
    simp [Markup.render]
  obtain ⟨harguments, hends⟩ := takes_namedArguments (q := q) (.inl rfl) h hrest
  have hflag := takes_reversed (q := q) h hshown hrest
  have hends' : Ends ((if reversed then " reversed" else "").toList ++
      ((renderArguments q " " arguments).toList ++ rest)) := by
    cases reversed with
    | true => exact ends_cons (by decide)
    | false => exact hends
  rw [htext]
  refine takes_named (takes_seq (g := fun arguments => (name, Markup.loop item (collection.norm q) reversed arguments))
    (takes_seq (g := fun reversed arguments => (name, Markup.loop item (collection.norm q) reversed arguments))
      (takes_seq (g := fun collection reversed arguments => (name, Markup.loop item collection reversed arguments))
        (takes_seq (g := fun item collection reversed arguments =>
          (name, Markup.loop item collection reversed arguments))
          (takes_map ?_) ?_)
        (takes_expression hends' hcollection)) hflag) harguments)
  · rw [List.append_assoc, List.append_assoc, List.append_assoc]
    exact takes_wordGap₂ (by decide) (by decide) (by decide) hname (head_name hitem _)
  · exact takes_seqLeft (takes_seqLeft (takes_seqLeft (takes_variableName hitem (nameEnds_cons (by decide) (by decide)))
      (takes_space rfl)) (takes_word rfl)) (takes_space (head_render hcollection.spelled q _))

theorem takes_captureMarkup {item : String} (hitem : Text.IsAskingName item.toList) (hrest : TagEnds rest) :
    captureMarkup.Takes keys ("capture".toList ++ " ".toList ++ item.toList) rest ("capture", .target item) :=
  takes_named (takes_seq (takes_map (takes_wordGap (head_name hitem rest)))
    (takes_map (takes_variableName hitem hrest.ends.nameEnds)))

theorem takes_paginateMarkup {collection pageSize : Expression} (hcollection : collection.Readable)
    (hpageSize : pageSize.Readable) {arguments : List NamedArgument} (h : ∀ a ∈ arguments, a.Spelled)
    (hrest : TagEnds rest) : paginateMarkup.Takes keys
      ("paginate".toList ++ " ".toList ++ ((Markup.paginate collection pageSize arguments).render q).toList) rest
      ("paginate", (Markup.paginate collection pageSize arguments).norm q) := by
  have htext : "paginate".toList ++ " ".toList ++ ((Markup.paginate collection pageSize arguments).render q).toList =
      ("paginate".toList ++ " ".toList) ++ ((collection.render q).toList ++ " ".toList ++ "by".toList ++ " ".toList) ++
        (pageSize.render q).toList ++ (renderArguments q ", " arguments).toList := by
    simp [Markup.render]
  obtain ⟨harguments, hends⟩ := takes_namedArguments (q := q) (.inr rfl) h hrest
  rw [htext]
  refine takes_named (takes_seq
    (g := fun arguments => ("paginate", Markup.paginate (collection.norm q) (pageSize.norm q) arguments))
    (takes_seq (g := fun pageSize arguments => ("paginate", Markup.paginate (collection.norm q) pageSize arguments))
      (takes_seq (g := fun collection pageSize arguments => ("paginate", Markup.paginate collection pageSize arguments))
        (takes_map ?_) ?_)
      (takes_expression hends hpageSize)) harguments)
  · rw [List.append_assoc, List.append_assoc, List.append_assoc]
    exact takes_wordGap (head_render hcollection.spelled q _)
  · exact takes_seqLeft (takes_seqLeft (takes_seqLeft (takes_expression (ends_cons (by decide)) hcollection)
      (takes_space rfl)) (takes_word rfl)) (takes_space (head_render hpageSize.spelled q _))

theorem startsWith_ifMarkup : StartsWith ifMarkup ["if", "unless"] :=
  ((startsWith_word (by decide)).orElse (startsWith_word (by decide))).seqLeft.map.seq.rule

theorem startsWith_caseMarkup : StartsWith caseMarkup ["case"] :=
  (startsWith_word (by decide)).seqLeft.map.seq.rule

theorem startsWith_forMarkup : StartsWith forMarkup ["for", "tablerow"] :=
  ((startsWith_word (by decide)).orElse (startsWith_word (by decide))).seqLeft.map.seq.seq.seq.seq.rule

theorem startsWith_captureMarkup : StartsWith captureMarkup ["capture"] :=
  (startsWith_word (by decide)).seqLeft.map.seq.rule

theorem startsWith_paginateMarkup : StartsWith paginateMarkup ["paginate"] :=
  (startsWith_word (by decide)).seqLeft.map.seq.seq.seq.rule

theorem startsWith_blockMarkup :
    StartsWith blockMarkup ["if", "unless", "case", "for", "tablerow", "capture", "paginate"] :=
  startsWith_ifMarkup.orElse (startsWith_caseMarkup.orElse (startsWith_forMarkup.orElse
    (startsWith_captureMarkup.orElse startsWith_paginateMarkup)))

/-- **The markup of a tag that opens a block is read as what it was written from.** -/
theorem takes_blockMarkup {name : String} {markup : Markup} (h : markup.BlockSpelled name)
    (hshown : markup.hidesArgument = false) (hrest : TagEnds rest) :
    blockMarkup.Takes keys (name.toList ++ " ".toList ++ (markup.render q).toList) rest (name, markup.norm q) := by
  have hcase := (Skips.refl blockMarkup).next startsWith_ifMarkup
  have hfor := hcase.next startsWith_caseMarkup
  have hcapture := hfor.next startsWith_forMarkup
  have hpaginate := hcapture.next startsWith_captureMarkup
  cases markup with
  | condition test => exact takes_orElse_left (takes_ifMarkup h.1 h.2 hrest)
  | subject value =>
    obtain ⟨rfl, hvalue⟩ := h
    exact hcase.takes (opensWord_space (by decide) _) (by decide) (takes_caseMarkup hvalue hrest)
  | loop item collection reversed arguments =>
    obtain ⟨hname, hitem, hcollection, harguments⟩ := h
    have htakes := takes_forMarkup (q := q) hname hitem hcollection harguments hshown hrest
    rcases hname with rfl | rfl <;> exact hfor.takes (opensWord_space (by decide) _) (by decide) htakes
  | target item =>
    obtain ⟨rfl, hitem⟩ := h
    exact hcapture.takes (opensWord_space (by decide) _) (by decide) (takes_captureMarkup hitem hrest)
  | paginate collection pageSize arguments =>
    obtain ⟨rfl, hcollection, hpageSize, harguments⟩ := h
    exact hpaginate _ _ _ _ _ (opensWord_space (by decide) _) (by decide)
      (takes_paginateMarkup hcollection hpageSize harguments hrest)
  | plain | values | assign | echo | cycle | snippet | layout | sectionName | statements => exact absurd h id

end Grammar

end LiquidTemplate
