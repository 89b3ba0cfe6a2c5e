import LiquidTemplate.Proofs.Grammar.WrittenMarkup

/-!
# Written markup of tags without a body

What `WrittenMarkup` says of tags that open a block, for the other tags (`takes_tagMarkup`).
-/

namespace LiquidTemplate.Grammar

open Peg

variable {recur : Cursor → Option (Expression × Cursor)} {q : Quote} {rest : List Char}

/-! ## Conditions, values and names -/

theorem takes_elsifMarkup {test : Condition} (h : test.Spelled) (hrest : TagEnds rest) :
    elsifMarkup.Takes keys ("elsif".toList ++ " ".toList ++ (test.render q).toList) rest
      ("elsif", .condition (test.norm q)) :=
  takes_named (takes_seq (takes_map (takes_wordGap (head_renderCondition h q rest)))
    (takes_map (takes_condition h hrest)))

theorem head_renderAll {choices : List Expression} (h : ∀ e ∈ choices, e.Readable) (hne : choices ≠ []) (q : Quote)
    (rest : List Char) :
    ((", ".intercalate (choices.map (Expression.render q))).toList ++ rest).head?.any Text.isBlank = false := by
  obtain ⟨e, choices, rfl⟩ := List.exists_cons_of_ne_nil hne
  rw [List.map_cons, toList_intercalate_cons, List.append_assoc]
  exact head_render (h e (by simp)).spelled q _

theorem takes_choices {separator : Grammar Unit} {choices : List Expression} (h : ∀ e ∈ choices, e.Readable)
    (hne : choices ≠ [])
    (hseparator : ∀ rest, rest.head?.any Text.isBlank = false → separator.Takes keys ", ".toList rest ())
    (hend : separator.Refuses keys rest) (hrest : Ends rest) : (sepBy1 expression separator).Takes keys
      (", ".intercalate (choices.map (Expression.render q))).toList rest (choices.map (Expression.norm q)) :=
  takes_sepBy1 (F := Ends) (fun e he rest => hseparator _ (head_render (h e he).spelled q rest))
    (fun e he rest hrest => takes_expression hrest (h e he)) (by decide)
      (fun rest => ends_cons (by decide)) hrest hend hne

theorem takes_whenMarkup {choices : List Expression} (h : ∀ e ∈ choices, e.Readable) (hne : choices ≠ [])
    (hrest : TagEnds rest) : whenMarkup.Takes keys
      ("when".toList ++ " ".toList ++ ((Markup.values choices).render q).toList) rest
      ("when", (Markup.values choices).norm q) := by
  have hend : whenSeparator.Refuses keys rest := by
    refine refuses_orElse (refuses_comma (hrest.afterBlanks (by decide))) (refuses_giving (refuses_seqLeft_left ?_))
    exact hrest.refuses (refuses_word_percent (by decide) (by decide))
  exact takes_named (takes_seq (takes_map (takes_wordGap (head_renderAll h hne q rest)))
    (takes_map (takes_choices h hne (fun _ hrest => takes_orElse_left (takes_comma hrest)) hend hrest.ends)))

theorem head_renderFiltered {v : Filtered} (h : v.Spelled) (q : Quote) (rest : List Char) :
    ((v.render q).toList ++ rest).head?.any Text.isBlank = false := by
  rw [toList_renderFiltered, filteredChars, List.append_assoc]
  exact head_render h.subject.spelled q _

theorem takes_filteredLine {v : Filtered} (h : v.Spelled) (hrest : TagEnds rest) :
    filtered.Takes keys (v.render q).toList rest (v.norm q) := by
  rw [toList_renderFiltered]
  exact takes_filtered (by decide) (by decide) h hrest.filterEnds (hrest.afterBlanks (by decide))

theorem takes_assignMarkup {item : String} (hitem : Text.IsAskingName item.toList) {value : Filtered}
    (h : value.Spelled) (hrest : TagEnds rest) : assignMarkup.Takes keys
      ("assign".toList ++ " ".toList ++ ((Markup.assign item value).render q).toList) rest
      ("assign", (Markup.assign item value).norm q) := by
  have htext : "assign".toList ++ " ".toList ++ ((Markup.assign item value).render q).toList =
      ("assign".toList ++ " ".toList) ++ (item.toList ++ " ".toList ++ "=".toList ++ " ".toList) ++
        (value.render q).toList := by
    simp [Markup.render]
  rw [htext]
  refine takes_named (takes_seq (g := fun value => ("assign", Markup.assign item value))
    (takes_seq (g := fun item value => ("assign", Markup.assign item value)) (takes_map ?_) ?_)
    (takes_filteredLine h hrest))
  · rw [List.append_assoc, List.append_assoc, List.append_assoc]
    exact takes_wordGap (head_name hitem _)
  · exact takes_seqLeft (takes_seqLeft (takes_seqLeft (takes_variableName hitem (nameEnds_cons (by decide) (by decide)))
      (takes_blanks (by decide) rfl)) takes_text) (takes_blanks (by decide) (head_renderFiltered h q rest))

theorem takes_echoMarkup {value : Filtered} (h : value.Spelled) (hrest : TagEnds rest) :
    echoMarkup.Takes keys ("echo".toList ++ " ".toList ++ (value.render q).toList) rest
      ("echo", .echo (value.norm q)) :=
  takes_named (takes_seq (takes_map (takes_wordGap (head_renderFiltered h q rest)))
    (takes_map (takes_filteredLine h hrest)))

/-- The text of the group of a cycle, with the colon after it. -/
def groupText (q : Quote) : Option Expression → List Char
  | some g => (g.render q).toList ++ ": ".toList
  | none => []

theorem takes_cycleGroup {group : Option Expression} (hgroup : ∀ e ∈ group, e.Readable) {choices : List Expression}
    (h : ∀ e ∈ choices, e.Readable) (hne : choices ≠ []) (hrest : TagEnds rest) :
    (opt (named .cycleGroup expression <* colon)).Takes keys (groupText q group)
      ((", ".intercalate (choices.map (Expression.render q))).toList ++ rest) (group.map (Expression.norm q)) := by
  cases group with
  | some g =>
    exact takes_opt_some (takes_seqLeft (takes_named (takes_expression (ends_cons (by decide)) (hgroup g rfl)))
      (takes_colon (head_renderAll h hne q rest)))
  | none =>
    -- a comma or the end of the tag follows the first choice
    obtain ⟨e, choices, rfl⟩ := List.exists_cons_of_ne_nil hne
    obtain ⟨he, -⟩ := List.forall_mem_cons.1 h
    rw [List.map_cons, toList_intercalate_cons, List.append_assoc, List.flatMap_map]
    have hnext : ∀ rest, TagEnds rest → Ends ((choices.flatMap fun e => ", ".toList ++ (e.render q).toList) ++ rest) ∧
        Text.afterBlanks ((choices.flatMap fun e => ", ".toList ++ (e.render q).toList) ++ rest) ≠ some ':' := by
      intro rest hrest
      cases choices with
      | nil => exact ⟨hrest.ends, hrest.afterBlanks (by decide)⟩
      | cons e choices => exact ⟨ends_cons (by decide), fun h => absurd (Option.some.inj h) (by decide)⟩
    obtain ⟨hends, hcolon⟩ := hnext rest hrest
    exact takes_opt_none (refuses_seqLeft_right (takes_named (takes_expression hends he)) (refuses_colon hcolon))

theorem takes_cycleMarkup {group : Option Expression} (hgroup : ∀ e ∈ group, e.Readable) {choices : List Expression}
    (h : ∀ e ∈ choices, e.Readable) (hne : choices ≠ []) (hrest : TagEnds rest) : cycleMarkup.Takes keys
      ("cycle".toList ++ " ".toList ++ ((Markup.cycle group choices).render q).toList) rest
      ("cycle", (Markup.cycle group choices).norm q) := by
  have htext : "cycle".toList ++ " ".toList ++ ((Markup.cycle group choices).render q).toList =
      ("cycle".toList ++ " ".toList) ++ groupText q group ++
        (", ".intercalate (choices.map (Expression.render q))).toList := by
    cases group <;> simp [Markup.render, groupText]
  have hhead : (groupText q group ++ ((", ".intercalate (choices.map (Expression.render q))).toList ++ rest)).head?.any
      Text.isBlank = false := by
    cases group with
    | none => exact head_renderAll h hne q rest
    | some g =>
      rw [groupText, List.append_assoc]
      exact head_render (hgroup g rfl).spelled q _
  rw [htext]
  exact takes_named (takes_seq (g := fun choices => ("cycle", Markup.cycle (group.map (Expression.norm q)) choices))
    (takes_seq (g := fun group choices => ("cycle", Markup.cycle group choices)) (takes_map (takes_wordGap hhead))
      (takes_cycleGroup hgroup h hne hrest))
    (takes_choices h hne (fun _ hrest => takes_comma hrest) (refuses_comma (hrest.afterBlanks (by decide))) hrest.ends))

theorem takes_counterMarkup {name item : String} (hname : name = "increment" ∨ name = "decrement")
    (hitem : Text.IsAskingName item.toList) (hrest : TagEnds rest) :
    counterMarkup.Takes keys (name.toList ++ " ".toList ++ item.toList) rest (name, .target item) :=
  takes_named (takes_seq (takes_map (takes_wordGap₂ (by decide) (by decide) (by decide) hname (head_name hitem rest)))
    (takes_map (takes_variableName hitem hrest.ends.nameEnds)))

theorem takes_layoutMarkup {value : Expression} (h : value.Readable) (hrest : TagEnds rest) :
    layoutMarkup.Takes keys ("layout".toList ++ " ".toList ++ (value.render q).toList) rest
      ("layout", .layout (value.norm q)) :=
  takes_named (takes_seq (takes_map (takes_wordGap (head_render h.spelled q rest)))
    (takes_map (takes_expression hrest.ends h)))

theorem takes_sectionMarkup {literal : StringLiteral} (h : literal.Spelled) :
    sectionMarkup.Takes keys ("section".toList ++ " ".toList ++ (literal.render q).toList) rest
      ("section", .sectionName (literal.norm q)) :=
  takes_named (takes_seq (takes_map (takes_wordGap (head_render (e := .string literal) h q rest)))
    (takes_map (takes_string h q)))

/-! ## Snippets -/

/-- The text that hands a value to a snippet. -/
def boundText (q : Quote) : Option (Binding × Expression) → List Char
  | some (b, e) => (" ".toList ++ b.word.toList ++ " ".toList) ++ (e.render q).toList
  | none => []

/-- The text that names the value in a snippet. -/
def renamedText : Option String → List Char
  | some a => " ".toList ++ "as".toList ++ " ".toList ++ a.toList
  | none => []

theorem takes_snippetName {name : Expression} (h : name.NamesSnippet) (hrest : Ends rest) :
    (Expression.string <$> string <|> lookup).Takes keys (name.render q).toList rest (name.norm q) := by
  cases name with
  | string s => exact takes_orElse_left (takes_map (takes_string h q))
  | lookup name steps =>
    have hlookup := takes_lookup (takesKeys_keys q _) (.inl hrest) h (Nat.le_refl _)
    have hstring : string.Refuses keys (((Expression.lookup name steps).render q).toList ++ rest) := by
      rcases render_lookup_cases (q := q) h with ⟨m, -, hm, hrender, -⟩ | ⟨key, more, -, -, hrender, -⟩
      · obtain ⟨a, v, hv, ha⟩ := hm.exists_cons
        rw [hrender, hv]
        refine refuses_string ?_ ?_ <;> (rintro rfl; exact absurd ha (by decide))
      · rw [hrender]
        exact refuses_string (by decide) (by decide)
    exact takes_orElse_right (refuses_map hstring) hlookup
  | number | keyword | range => exact absurd h id

theorem head_snippetName {name : Expression} (h : name.NamesSnippet) (q : Quote) (rest : List Char) :
    ((name.render q).toList ++ rest).head?.any Text.isBlank = false := by
  cases name with
  | string s => exact head_render (e := .string s) h q rest
  | lookup name steps => exact head_render (e := .lookup name steps) h q rest
  | number | keyword | range => exact absurd h id

theorem refuses_before_arguments {arguments : List NamedArgument} (hrest : TagEnds rest) {α : Type} {p : Grammar α}
    (hp : ∀ after, p.Refuses recur ('%' :: after)) :
    (blanks1 *> p).Refuses recur ((renderArguments q ", " arguments).toList ++ rest) := by
  rw [toList_renderArguments]
  cases arguments with
  | nil => exact hrest.refuses hp
  | cons a arguments => exact refuses_seqRight_left (refuses_blanks1 rfl)

theorem takes_renamed {renamed : Option String} (hrenamed : ∀ a ∈ renamed, Text.IsAskingName a.toList)
    {arguments : List NamedArgument} (h : ∀ a ∈ arguments, a.Spelled) (hrest : TagEnds rest) :
    (opt (named .renderAlias (blanks1 *> word "as" *> blanks1 *> variableName))).Takes keys (renamedText renamed)
      ((renderArguments q ", " arguments).toList ++ rest) renamed := by
  cases renamed with
  | none =>
    refine takes_opt_none (refuses_named (refuses_seqRight_left (refuses_seqRight_left ?_)))
    exact refuses_before_arguments hrest (refuses_word_percent (by decide) (by decide))
  | some a =>
    have ha := hrenamed a rfl
    have hends := (takes_namedArguments (q := q) (.inr rfl) h hrest).2
    exact takes_opt_some (takes_named (takes_seqRight (takes_seqRight (takes_seqRight (takes_space rfl)
      (takes_word rfl)) (takes_space (head_name ha _))) (takes_variableName ha hends.nameEnds)))

theorem takes_binding (b : Binding) : binding.Takes recur b.word.toList (' ' :: rest) b := by
  cases b with
  | asValue => exact takes_atom (takes_orElse_left (takes_giving (takes_word rfl)))
  | forEach =>
    refine takes_atom (takes_orElse_right (refuses_giving ?_) (takes_giving (takes_word rfl)))
    exact refuses_word (by decide) (by decide) rfl (by decide)

theorem startsWith_binding : StartsWith binding ["with", "for"] :=
  ((startsWith_word (by decide)).map.orElse (startsWith_word (by decide)).map).atom

theorem takes_bound {bound : Option (Binding × Expression)} (hbound : ∀ b ∈ bound, b.2.Readable)
    {renamed : Option String} {arguments : List NamedArgument} (h : ∀ a ∈ arguments, a.Spelled) (hrest : TagEnds rest) :
    (opt (named .renderVariable (.mk <$> (blanks1 *> binding <* blanks1) <*> expression))).Takes
      keys (boundText q bound)
      (renamedText renamed ++ ((renderArguments q ", " arguments).toList ++ rest))
      (bound.map fun b => (b.1, b.2.norm q)) := by
  cases bound with
  | none =>
    refine takes_opt_none (refuses_named (refuses_seq_left (refuses_map (refuses_seqLeft_left ?_))))
    cases renamed with
    | none =>
      refine refuses_before_arguments hrest fun after => ?_
      exact startsWith_binding _ [] _ ⟨rfl, _, rfl, rfl⟩ (by decide)
    | some a =>
      have hword : binding.Refuses keys ("as".toList ++ (" ".toList ++ a.toList ++
          ((renderArguments q ", " arguments).toList ++ rest))) :=
        startsWith_binding _ "as".toList _ ⟨rfl, _, rfl, rfl⟩ (by decide)
      have htext : renamedText (some a) ++ ((renderArguments q ", " arguments).toList ++ rest) = " ".toList ++
          ("as".toList ++ (" ".toList ++ a.toList ++ ((renderArguments q ", " arguments).toList ++ rest))) := by
        simp [renamedText]
      rw [htext]
      exact refuses_seqRight_right (takes_space rfl) hword
  | some b =>
    obtain ⟨b, e⟩ := b
    have he : e.Readable := hbound (b, e) rfl
    have hends : Ends (renamedText renamed ++ ((renderArguments q ", " arguments).toList ++ rest)) := by
      cases renamed with
      | none => exact (takes_namedArguments (.inr rfl) h hrest).2
      | some a => exact ends_cons (by decide)
    refine takes_opt_some (takes_named (takes_seq (g := Prod.mk b) (takes_map (takes_seqLeft (takes_seqRight
      (takes_space ?_) (takes_binding b)) (takes_space (head_render he.spelled q _)))) (takes_expression hends he)))
    cases b <;> rfl

theorem takes_snippetMarkup {name : String} (hname : name = "render" ∨ name = "include") {snippet : Expression}
    (hsnippet : snippet.NamesSnippet) {bound : Option (Binding × Expression)} (hbound : ∀ b ∈ bound, b.2.Readable)
    {renamed : Option String} (hrenamed : ∀ a ∈ renamed, Text.IsAskingName a.toList) {arguments : List NamedArgument}
    (h : ∀ a ∈ arguments, a.Spelled) (hrest : TagEnds rest) : snippetMarkup.Takes keys
      (name.toList ++ " ".toList ++ ((Markup.snippet snippet bound renamed arguments).render q).toList) rest
      (name, (Markup.snippet snippet bound renamed arguments).norm q) := by
  have htext : name.toList ++ " ".toList ++ ((Markup.snippet snippet bound renamed arguments).render q).toList =
      (name.toList ++ " ".toList) ++ (snippet.render q).toList ++ boundText q bound ++ renamedText renamed ++
        (renderArguments q ", " arguments).toList := by
    cases bound <;> cases renamed <;> simp [Markup.render, boundText, renamedText]
  have hends : Ends (boundText q bound ++
      (renamedText renamed ++ ((renderArguments q ", " arguments).toList ++ rest))) := by
    cases bound with
    | some b => exact ends_cons (by decide)
    | none =>
      cases renamed with
      | none => exact (takes_namedArguments (.inr rfl) h hrest).2
      | some a => exact ends_cons (by decide)
  rw [htext]
  refine takes_named (takes_seq (g := fun arguments =>
      (name, Markup.snippet (snippet.norm q) (bound.map fun b => (b.1, b.2.norm q)) renamed arguments))
    (takes_seq (g := fun renamed arguments =>
        (name, Markup.snippet (snippet.norm q) (bound.map fun b => (b.1, b.2.norm q)) renamed arguments))
      (takes_seq (g := fun bound renamed arguments => (name, Markup.snippet (snippet.norm q) bound renamed arguments))
        (takes_seq (g := fun snippet bound renamed arguments => (name, Markup.snippet snippet bound renamed arguments))
          (takes_map ?_) (takes_snippetName hsnippet hends))
        (takes_bound hbound h hrest)) (takes_renamed hrenamed h hrest)) (takes_namedArguments (.inr rfl) h hrest).1)
  exact takes_wordGap₂ (by decide) (by decide) (by decide) hname (head_snippetName hsnippet q _)

/-! ## Statements -/

theorem takesMany_upTo {R ρ α : Type} {r : Cursor → Option (ρ × Cursor)} {stop : Peg R ρ α} {w u v : List Char} {x : α}
    (h : ∀ a t, a :: t <:+ w → stop.Refuses r (a :: t ++ (u ++ v))) (hstop : stop.Takes r u v x) :
    (Peg.notAhead stop *> any).TakesMany r w (u ++ v) w := by
  induction w with
  | nil => exact takesMany_nil (refuses_seqRight_left (refuses_notAhead hstop))
  | cons a w ih =>
    have hchar : (Peg.notAhead stop *> any).Takes r ([] ++ [a]) (w ++ (u ++ v)) a :=
      takes_seqRight (takes_notAhead (h a w List.suffix_rfl)) (takes_char rfl)
    exact takesMany_cons (u := [a]) (by simp) hchar (ih fun b t ht => h b t (ht.trans (List.suffix_cons a w)))

def GapEnds (rest : List Char) : Prop :=
  ∃ gap right after, (gap ≠ [] ∧ gap.all Text.isBlank = true) ∧ rest = gap ++ (closingChars tagClose right ++ after)

theorem TagEnds.gapEnds (h : TagEnds rest) : GapEnds rest := by
  obtain ⟨after, rfl⟩ := h
  exact ⟨" ".toList, false, after, by decide, rfl⟩

theorem GapEnds.exists_cons (h : GapEnds rest) : ∃ a t, rest = a :: t ∧ Text.isBlank a = true := by
  obtain ⟨gap, right, after, ⟨hne, hgap⟩, rfl⟩ := h
  obtain ⟨a, gap, rfl⟩ := List.exists_cons_of_ne_nil hne
  exact ⟨a, _, rfl, List.all_eq_true.1 hgap a (by simp)⟩

theorem GapEnds.head_any (h : GapEnds rest) {p : Char → Bool} (hp : ∀ a, Text.isBlank a = true → p a = false) :
    rest.head?.any p = false := by
  obtain ⟨a, t, rfl, ha⟩ := h.exists_cons
  exact hp a ha

theorem stripStart?_tagClose {u : List Char} (hu : ¬ ['%', '\x7d'] <:+: u) (hrest : GapEnds rest) :
    Text.stripStart? tagClose.toList (u ++ rest) = none := by
  obtain ⟨c, t, rfl, hc⟩ := hrest.exists_cons
  have hclose : tagClose.toList = ['%', '\x7d'] := rfl
  rw [hclose]
  cases hstrip : Text.stripStart? ['%', '\x7d'] (u ++ c :: t) with
  | none => rfl
  | some r =>
    have hsplit := Text.stripStart?_eq_some_iff.1 hstrip
    match u, hsplit with
    | [], hsplit =>
      obtain ⟨rfl, -⟩ := List.cons_eq_cons.1 hsplit
      exact absurd hc (by decide)
    | [a], hsplit =>
      obtain ⟨rfl, -⟩ := List.cons_eq_cons.1 (List.cons_eq_cons.1 hsplit).2
      exact absurd hc (by decide)
    | a :: b :: u, hsplit =>
      obtain ⟨rfl, hsecond⟩ := List.cons_eq_cons.1 hsplit
      obtain ⟨rfl, -⟩ := List.cons_eq_cons.1 hsecond
      exact absurd ⟨[], u, rfl⟩ hu

/-- A tag does not end inside a text without its closing marks that does not end in a blank. -/
theorem refuses_tagEnd {w : List Char} (hne : w ≠ []) (hlast : w.getLast?.any Text.isBlank = false)
    (hw : ¬ ['%', '\x7d'] <:+: w) (hrest : GapEnds rest) : tagEnd.Refuses recur (w ++ rest) := by
  -- what is left of the text after the blanks at its start
  obtain ⟨a, u, hu⟩ : ∃ a u, w.dropWhile Text.isBlank = a :: u := by
    refine List.exists_cons_of_ne_nil fun hnil => ?_
    have hall : w.all Text.isBlank = true := by
      rw [← List.takeWhile_append_dropWhile (p := Text.isBlank) (l := w), hnil, List.append_nil]
      exact List.all_takeWhile
    rw [List.getLast?_eq_some_getLast hne, Option.any_some, List.all_eq_true.1 hall _ (List.getLast_mem hne)] at hlast
    cases hlast
  have htext : w = w.takeWhile Text.isBlank ++ a :: u := by rw [← hu, List.takeWhile_append_dropWhile]
  have ha : Text.isBlank a = false := by
    have hhead := head?_dropWhile Text.isBlank w
    rwa [hu] at hhead
  have hinside : ¬ ['%', '\x7d'] <:+: a :: u :=
    fun h => hw (by rw [htext]; exact h.trans (List.suffix_append _ _).isInfix)
  have hblanks : blanks.Takes recur (w.takeWhile Text.isBlank) (a :: u ++ rest) () :=
    takes_blanks List.all_takeWhile ha
  rw [htext, List.append_assoc, tagEnd]
  by_cases hdash : a = '-'
  · subst hdash
    have hopt : (opt (.text "-") : Grammar (Option Unit)).Takes recur "-".toList (u ++ rest) (some ()) :=
      takes_opt_some takes_text
    have hstart : (blanks *> opt (.text "-") : Grammar (Option Unit)).Takes recur _ (u ++ rest) (some ()) :=
      takes_seqRight hblanks hopt
    have hclose := stripStart?_tagClose (fun h => hinside (h.trans (List.suffix_cons _ u).isInfix)) hrest
    have h := refuses_seqRight_right hstart (refuses_text hclose)
    rwa [List.append_assoc] at h
  · have hopt : (opt (.text "-") : Grammar (Option Unit)).Takes recur [] (a :: u ++ rest) none :=
      takes_opt_none (refuses_text (stripStart?_eq_none (a := '-') rfl (by simpa using hdash)))
    have hstart : (blanks *> opt (.text "-") : Grammar (Option Unit)).Takes recur _ (a :: u ++ rest) none :=
      takes_seqRight hblanks hopt
    have h := refuses_seqRight_right hstart (refuses_text (stripStart?_tagClose hinside hrest))
    rwa [List.append_nil] at h

theorem takes_body {body : String} (hlast : body.toList.getLast?.any Text.isBlank = false)
    (hbody : ¬ ['%', '\x7d'] <:+: body.toList) (hrest : GapEnds rest) :
    (atom .liquidLines (covered (upTo tagEnd)) : Grammar String).Takes recur body.toList rest body := by
  have hinside : ∀ a t, a :: t <:+ body.toList → (tagEnd : Grammar Unit).Refuses recur (a :: t ++ rest) := by
    intro a t ht
    refine refuses_tagEnd (by simp) ?_ (fun h => hbody (h.trans ht.isInfix)) hrest
    obtain ⟨s, hs⟩ := ht
    rw [← hs] at hlast
    simpa [List.getLast?_cons] using hlast
  obtain ⟨gap, right, after, ⟨-, hgap⟩, rfl⟩ := hrest
  have hend : tagEnd.Takes recur (gap ++ closingChars tagClose right) after () := takes_closing (.inl rfl) hgap
  rw [← List.append_assoc] at hinside ⊢
  have h : (covered (upTo tagEnd) : Grammar String).Takes recur body.toList _ (String.ofList body.toList) :=
    takes_covered (takesMany_upTo hinside hend).takes
  rw [String.ofList_toList] at h
  exact takes_atom h

/-- Two characters that follow each other in a text do so on one side of any other character in it. -/
theorem not_infix_append {x y z : Char} (hx : x ≠ z) (hy : y ≠ z) {u v : List Char} (hu : ¬ [x, y] <:+: u)
    (hv : ¬ [x, y] <:+: v) : ¬ [x, y] <:+: u ++ z :: v := by
  induction u with
  | nil =>
    intro h
    rcases List.infix_cons_iff.1 h with h | h
    · exact hx (List.cons_prefix_cons.1 h).1
    · exact hv h
  | cons a u ih =>
    intro h
    have htail : ¬ [x, y] <:+: u := fun h => hu (h.trans (List.suffix_cons a u).isInfix)
    rcases List.infix_cons_iff.1 h with h | h
    · obtain ⟨rfl, hnext⟩ := List.cons_prefix_cons.1 h
      cases u with
      | nil => exact hy (List.cons_prefix_cons.1 hnext).1
      | cons b u =>
        obtain ⟨rfl, -⟩ := List.cons_prefix_cons.1 hnext
        exact hu ⟨[], u, rfl⟩
    · exact ih htail h

theorem not_infix_gap {w gap v : List Char} (hne : gap ≠ []) (hgap : gap.all Text.isBlank = true)
    (hw : ¬ ['%', '\x7d'] <:+: w) (hv : ¬ ['%', '\x7d'] <:+: v) : ¬ ['%', '\x7d'] <:+: w ++ (gap ++ v) := by
  have hdiffers {a : Char} (ha : Text.isBlank a = true) : '%' ≠ a ∧ '\x7d' ≠ a := by
    constructor <;> rintro rfl <;> exact absurd ha (by decide)
  induction gap generalizing w with
  | nil => exact absurd rfl hne
  | cons a gap ih =>
    rw [List.all_cons, Bool.and_eq_true] at hgap
    obtain ⟨hpercent, hbrace⟩ := hdiffers hgap.1
    cases gap with
    | nil => exact not_infix_append hpercent hbrace hw hv
    | cons b gap => exact not_infix_append hpercent hbrace hw (ih (w := []) (by simp) hgap.2 (by simp))

theorem inside_statement {w gap : List Char} (hne : gap ≠ []) (hgap : gap.all Text.isBlank = true)
    (hw : ¬ ['%', '\x7d'] <:+: w) {line : String} (h : IsStatement line) :
    ¬ ['%', '\x7d'] <:+: w ++ (gap ++ line.toList) ∧ (w ++ (gap ++ line.toList)).getLast?.any Text.isBlank = false := by
  refine ⟨not_infix_gap hne hgap hw h.inside, ?_⟩
  have hlast := h.last
  rw [List.getLast?_eq_some_getLast h.nonempty, Option.any_some] at hlast
  rw [← List.append_assoc, List.getLast?_append, List.getLast?_eq_some_getLast h.nonempty,
    Option.some_or, Option.any_some,
    ← Bool.not_eq_true]
  exact fun hblank => absurd (Text.isWhiteSpace_of_isBlank hblank) (by simp [hlast])

theorem inside_rows {rows : List (List Char × String)} (h : ∀ row ∈ rows, IsRow row) {w : List Char}
    (hw : ¬ ['%', '\x7d'] <:+: w ∧ w.getLast?.any Text.isBlank = false) :
    ¬ ['%', '\x7d'] <:+: w ++ rowChars rows ∧ (w ++ rowChars rows).getLast?.any Text.isBlank = false := by
  induction rows generalizing w with
  | nil => simpa [rowChars] using hw
  | cons row rows ih =>
    obtain ⟨hrow, hrows⟩ := List.forall_mem_cons.1 h
    have htext : w ++ rowChars (row :: rows) = (w ++ (row.1 ++ row.2.toList)) ++ rowChars rows := by
      simp [rowChars]
    rw [htext]
    exact ih hrows (inside_statement hrow.blank.1 hrow.blank.2 hw.1 hrow.statement)

/-- **The tag of statements is read from rows**, after a first part `w` that holds the statements `before`. -/
theorem takes_liquidRows {rows : List (List Char × String)} (h : ∀ row ∈ rows, IsRow row) {w : List Char}
    {before : List String} (hword : (w ++ rowChars rows ++ rest).head?.any Text.isWordChar = false)
    (hw : ¬ ['%', '\x7d'] <:+: w ∧ w.getLast?.any Text.isBlank = false)
    (hbefore : ∀ v, Text.IsMargin v → statementsIn (w ++ v) = before) (hrest : GapEnds rest) :
    liquidMarkup.Takes keys ("liquid".toList ++ (w ++ rowChars rows)) rest
      ("liquid", .statements (before ++ rows.map (·.2))) := by
  obtain ⟨hinside, hlast⟩ := inside_rows h hw
  have hbody : (atom .liquidLines (covered (upTo tagEnd)) : Grammar String).Takes keys
      (String.ofList (w ++ rowChars rows)).toList rest (String.ofList (w ++ rowChars rows)) :=
    takes_body (by rwa [String.toList_ofList]) (by rwa [String.toList_ofList]) hrest
  have hstatements : statementsOf (String.ofList (w ++ rowChars rows)) = before ++ rows.map (·.2) := by
    rw [statementsOf_eq, String.toList_ofList]
    exact statementsIn_rows h hbefore
  rw [String.toList_ofList] at hbody
  rw [← hstatements]
  exact takes_named (takes_seq (g := Prod.mk "liquid") (takes_map (takes_word hword)) (takes_map hbody))

theorem takes_liquidMarkup {lines : List String} (h : ∀ line ∈ lines, IsStatement line) (hne : lines ≠ [])
    (hrest : TagEnds rest) : liquidMarkup.Takes keys
      ("liquid".toList ++ " ".toList ++ ((Markup.statements lines).render q).toList) rest
      ("liquid", .statements lines) := by
  obtain ⟨first, lines, rfl⟩ := List.exists_cons_of_ne_nil hne
  obtain ⟨hfirst, hlines⟩ := List.forall_mem_cons.1 h
  have hrows : ∀ row ∈ lines.map fun line => ("\n".toList, line), IsRow row := by
    simp only [List.mem_map]
    rintro _ ⟨line, hline, rfl⟩
    exact ⟨⟨[], [], rfl, ⟨rfl, by simp⟩, ⟨rfl, by simp⟩⟩, hlines line hline⟩
  have htext : "liquid".toList ++ " ".toList ++ ((Markup.statements (first :: lines)).render q).toList =
      "liquid".toList ++ ((" ".toList ++ first.toList) ++ rowChars (lines.map fun line => ("\n".toList, line))) := by
    rw [Markup.render, toList_intercalate_cons]
    simp [rowChars, List.flatMap_map]
  have hbefore : ∀ v, Text.IsMargin v → statementsIn ((" ".toList ++ first.toList) ++ v) = [first] := by
    intro v hv
    rw [List.append_assoc]
    exact hfirst.statementsIn ⟨rfl, by simp⟩ hv
  have hinside : ¬ ['%', '\x7d'] <:+: " ".toList ++ first.toList ∧
      (" ".toList ++ first.toList).getLast?.any Text.isBlank = false :=
    @inside_statement [] " ".toList (by decide) (by decide) (by simp) first hfirst
  have hmarkup := takes_liquidRows hrows rfl hinside hbefore hrest.gapEnds
  rw [htext]
  simpa [Function.comp_def] using hmarkup

theorem takes_liquidMarkup_nil (hrest : TagEnds rest) :
    liquidMarkup.Takes keys "liquid".toList rest ("liquid", .statements []) :=
  @takes_liquidRows rest [] (by simp) [] [] (hrest.ends.head_any (by decide)) (by simp) (fun _ hv => hv.statementsIn)
    hrest.gapEnds

/-! ## All of them -/

theorem startsWith_elsifMarkup : StartsWith elsifMarkup ["elsif"] :=
  (startsWith_word (by decide)).seqLeft.map.seq.rule

theorem startsWith_whenMarkup : StartsWith whenMarkup ["when"] :=
  (startsWith_word (by decide)).seqLeft.map.seq.rule

theorem startsWith_assignMarkup : StartsWith assignMarkup ["assign"] :=
  (startsWith_word (by decide)).seqLeft.map.seq.seq.rule

theorem startsWith_echoMarkup : StartsWith echoMarkup ["echo"] :=
  (startsWith_word (by decide)).seqLeft.map.seq.rule

theorem startsWith_cycleMarkup : StartsWith cycleMarkup ["cycle"] :=
  (startsWith_word (by decide)).seqLeft.map.seq.seq.rule

theorem startsWith_snippetMarkup : StartsWith snippetMarkup ["render", "include"] :=
  ((startsWith_word (by decide)).orElse (startsWith_word (by decide))).seqLeft.map.seq.seq.seq.seq.rule

theorem startsWith_counterMarkup : StartsWith counterMarkup ["increment", "decrement"] :=
  ((startsWith_word (by decide)).orElse (startsWith_word (by decide))).seqLeft.map.seq.rule

theorem startsWith_layoutMarkup : StartsWith layoutMarkup ["layout"] :=
  (startsWith_word (by decide)).seqLeft.map.seq.rule

theorem startsWith_sectionMarkup : StartsWith sectionMarkup ["section"] :=
  (startsWith_word (by decide)).seqLeft.map.seq.rule

theorem head_blockMarkup {name : String} {markup : Markup} (h : markup.BlockSpelled name)
    (q : Quote) (rest : List Char) :
    ((markup.render q).toList ++ rest).head?.any Text.isBlank = false := by
  cases markup with
  | condition test => exact head_renderCondition h.2 q rest
  | subject value => exact head_render h.2.spelled q rest
  | loop item collection reversed arguments =>
    simp only [Markup.render, String.toList_append, List.append_assoc]
    exact head_name h.2.1 _
  | target item => exact head_name h.2 rest
  | paginate collection pageSize arguments =>
    simp only [Markup.render, String.toList_append, List.append_assoc]
    exact head_render h.2.1.spelled q _
  | plain | values | assign | echo | cycle | snippet | layout | sectionName | statements => exact absurd h id

theorem head_tagMarkup {name : String} {markup : Markup} (h : markup.LeafSpelled name) (hne : markup ≠ .statements [])
    (q : Quote) (rest : List Char) : ((markup.render q).toList ++ rest).head?.any Text.isBlank = false := by
  cases markup with
  | condition test => exact head_renderCondition h.2 q rest
  | values choices => exact head_renderAll h.2.2 h.2.1 q rest
  | assign item value =>
    simp only [Markup.render, String.toList_append, List.append_assoc]
    exact head_name h.2.1 _
  | echo value => exact head_renderFiltered h.2 q rest
  | cycle group choices =>
    obtain ⟨-, hgroup, hchoices, h⟩ := h
    cases group with
    | none => simpa [Markup.render] using head_renderAll h hchoices q rest
    | some g =>
      simp only [Markup.render, String.toList_append, List.append_assoc]
      exact head_render (hgroup g rfl).spelled q _
  | snippet name bound renamed arguments =>
    simp only [Markup.render, String.toList_append, List.append_assoc]
    exact head_snippetName h.2.1 q _
  | target item => exact head_name h.2 rest
  | layout value => exact head_render h.2.spelled q rest
  | sectionName literal => exact head_render (e := .string literal) h.2 q rest
  | statements lines =>
    obtain ⟨line, lines, rfl⟩ := List.exists_cons_of_ne_nil fun hnil => hne (congrArg Markup.statements hnil)
    have hline := h.2 line (by simp)
    obtain ⟨a, w, hw⟩ := List.exists_cons_of_ne_nil hline.nonempty
    have hfirst := hline.first
    rw [Markup.render, toList_intercalate_cons, hw, List.append_assoc]
    rw [hw] at hfirst
    rw [← Bool.not_eq_true]
    intro hblank
    exact absurd (Text.isWhiteSpace_of_isBlank hblank) (by simpa using hfirst)
  | plain | subject | loop | paginate => exact absurd h id

theorem toList_tagHead {name : String} {markup : Markup}
    (h : ((markup.render q).toList ++ " ".toList).head?.any Text.isBlank = false) :
    (tagHead q name markup).toList = name.toList ++ " ".toList ++ (markup.render q).toList := by
  have hne : (markup.render q).isEmpty = false := by
    rw [← Bool.not_eq_true]
    intro hempty
    rw [String.isEmpty_iff.1 hempty] at h
    cases h
  simp [tagHead, hne]

theorem takes_tagMarkup_liquid {w : List Char} {x : String × Markup} (hopens : OpensWord "liquid".toList (w ++ rest))
    (h : liquidMarkup.Takes keys w rest x) : tagMarkup.Takes keys w rest x := by
  have hskips := (((((((((Skips.refl tagMarkup).next startsWith_elsifMarkup).next startsWith_whenMarkup).next
    startsWith_assignMarkup).next startsWith_echoMarkup).next startsWith_cycleMarkup).next
    startsWith_snippetMarkup).next startsWith_counterMarkup).next startsWith_layoutMarkup).next startsWith_sectionMarkup
  exact hskips _ _ _ _ _ hopens (by decide) h

/-- **The markup of a tag without a body is read as what it was written from.** -/
theorem takes_tagMarkup {name : String} {markup : Markup} (h : markup.LeafSpelled name) (hrest : TagEnds rest) :
    tagMarkup.Takes keys (tagHead q name markup).toList rest (name, markup.norm q) := by
  have hwhen := (Skips.refl tagMarkup).next startsWith_elsifMarkup
  have hassign := hwhen.next startsWith_whenMarkup
  have hecho := hassign.next startsWith_assignMarkup
  have hcycle := hecho.next startsWith_echoMarkup
  have hsnippet := hcycle.next startsWith_cycleMarkup
  have hcounter := hsnippet.next startsWith_snippetMarkup
  have hlayout := hcounter.next startsWith_counterMarkup
  have hsection := hlayout.next startsWith_layoutMarkup
  by_cases hempty : markup = .statements []
  · -- only here nothing stands between the name and the end of the tag
    subst hempty
    obtain ⟨rfl, -⟩ := h
    have hopens : OpensWord "liquid".toList ("liquid".toList ++ rest) :=
      ⟨by decide, rest, rfl, hrest.ends.head_any (by decide)⟩
    exact takes_tagMarkup_liquid hopens (takes_liquidMarkup_nil hrest)
  rw [toList_tagHead (head_tagMarkup h hempty q _)]
  cases markup with
  | condition test =>
    obtain ⟨rfl, h⟩ := h
    exact takes_orElse_left (takes_elsifMarkup h hrest)
  | values choices =>
    obtain ⟨rfl, hne, h⟩ := h
    exact hwhen.takes (opensWord_space (by decide) _) (by decide) (takes_whenMarkup h hne hrest)
  | assign item value =>
    obtain ⟨rfl, hitem, h⟩ := h
    exact hassign.takes (opensWord_space (by decide) _) (by decide) (takes_assignMarkup hitem h hrest)
  | echo value =>
    obtain ⟨rfl, h⟩ := h
    exact hecho.takes (opensWord_space (by decide) _) (by decide) (takes_echoMarkup h hrest)
  | cycle group choices =>
    obtain ⟨rfl, hgroup, hne, h⟩ := h
    exact hcycle.takes (opensWord_space (by decide) _) (by decide) (takes_cycleMarkup hgroup h hne hrest)
  | snippet snippet bound renamed arguments =>
    obtain ⟨hname, hsnippetName, hbound, hrenamed, h⟩ := h
    have htakes := takes_snippetMarkup (q := q) hname hsnippetName hbound hrenamed h hrest
    rcases hname with rfl | rfl <;> exact hsnippet.takes (opensWord_space (by decide) _) (by decide) htakes
  | target item =>
    obtain ⟨hname, hitem⟩ := h
    have htakes := takes_counterMarkup hname hitem hrest
    rcases hname with rfl | rfl <;> exact hcounter.takes (opensWord_space (by decide) _) (by decide) htakes
  | layout value =>
    obtain ⟨rfl, h⟩ := h
    exact hlayout.takes (opensWord_space (by decide) _) (by decide) (takes_layoutMarkup h hrest)
  | sectionName literal =>
    obtain ⟨rfl, h⟩ := h
    exact hsection.takes (opensWord_space (by decide) _) (by decide) (takes_sectionMarkup h)
  | statements lines =>
    obtain ⟨rfl, h⟩ := h
    have hne : lines ≠ [] := fun hnil => hempty (congrArg Markup.statements hnil)
    exact takes_tagMarkup_liquid (opensWord_space (by decide) _) (takes_liquidMarkup h hne hrest)
  | plain | subject | loop | paginate => exact absurd h id

end LiquidTemplate.Grammar
