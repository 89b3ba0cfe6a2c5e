import LiquidTemplate.Proofs.Grammar.Written

/-!
# Written arguments and filters are read again

What `Written` says of expressions, for lists of them, named arguments, and expressions with filters. Filters may stand
on lines of their own: any blanks may separate them.
-/

namespace LiquidTemplate

/-! ## Blanks and what follows them -/

def Text.afterBlanks (cs : List Char) : Option Char :=
  (cs.dropWhile isBlank).head?

theorem Text.afterBlanks_append {gap cs : List Char} (hgap : gap.all isBlank = true) :
    afterBlanks (gap ++ cs) = afterBlanks cs := by
  rw [afterBlanks, List.dropWhile_append_of_pos (List.all_eq_true.1 hgap), afterBlanks]

theorem Text.afterBlanks_cons {a : Char} {cs : List Char} (ha : isBlank a = false) :
    afterBlanks (a :: cs) = some a := by
  rw [afterBlanks, List.dropWhile_cons_of_neg (by simp [ha]), List.head?_cons]

theorem mem_expressionEnders_of_isBlank {a : Char} (ha : Text.isBlank a = true) : a ∈ expressionEnders := by
  simp only [Text.isBlank, Bool.or_eq_true, beq_iff_eq] at ha
  rcases ha with (((rfl | rfl) | rfl) | rfl) | rfl <;> decide

theorem ends_of_gap {gap rest : List Char} (hne : gap ≠ []) (hgap : gap.all Text.isBlank = true) :
    Ends (gap ++ rest) := by
  obtain ⟨a, gap, rfl⟩ := List.exists_cons_of_ne_nil hne
  rw [List.all_cons, Bool.and_eq_true] at hgap
  exact ends_cons (mem_expressionEnders_of_isBlank hgap.1)

theorem toList_intercalate_cons (sep s : String) (ss : List String) :
    (sep.intercalate (s :: ss)).toList = s.toList ++ ss.flatMap fun t => sep.toList ++ t.toList := by
  induction ss generalizing s with
  | nil => simp
  | cons t ss ih =>
    have h := ih t
    rw [String.toList_intercalate] at h ⊢
    simp only [List.map_cons, List.flatMap_cons] at h ⊢
    rw [List.intercalate_cons_cons, h]
    simp

namespace Grammar

open Peg

variable {recur : Cursor → Option (Expression × Cursor)} {q : Quote} {rest : List Char}

/-! ## Separators -/

theorem refuses_after_blanks {α : Type} {p : Grammar α} (h : p.Refuses recur (rest.dropWhile Text.isBlank)) :
    (blanks *> p).Refuses recur rest := by
  have hblanks : blanks.Takes recur (rest.takeWhile Text.isBlank) (rest.dropWhile Text.isBlank) () :=
    takes_blanks List.all_takeWhile (head?_dropWhile _ _)
  have h := refuses_seqRight_right hblanks h
  rwa [List.takeWhile_append_dropWhile] at h

theorem refuses_mark_after_blanks {a : Char} {s : String} (hs : s.toList = [a]) (h : Text.afterBlanks rest ≠ some a) :
    (blanks *> .text s : Grammar Unit).Refuses recur rest :=
  refuses_after_blanks (refuses_text (stripStart?_eq_none hs h))

theorem refuses_comma (h : Text.afterBlanks rest ≠ some ',') : comma.Refuses recur rest :=
  refuses_seqLeft_left (refuses_mark_after_blanks rfl h)

theorem refuses_colon (h : Text.afterBlanks rest ≠ some ':') : colon.Refuses recur rest :=
  refuses_seqLeft_left (refuses_mark_after_blanks rfl h)

theorem takes_comma (hrest : rest.head?.any Text.isBlank = false) : comma.Takes recur ", ".toList rest () :=
  takes_seqLeft (u := [','] ) (v := [' ']) (takes_seqRight (u := []) (takes_blanks rfl rfl) (takes_text (s := ",")))
    (takes_blanks rfl hrest)

theorem takes_colon (hrest : rest.head?.any Text.isBlank = false) : colon.Takes recur ": ".toList rest () :=
  takes_seqLeft (u := [':'] ) (v := [' ']) (takes_seqRight (u := []) (takes_blanks rfl rfl) (takes_text (s := ":")))
    (takes_blanks rfl hrest)

theorem head_render {e : Expression} (h : e.Spelled) (q : Quote) (rest : List Char) :
    ((e.render q).toList ++ rest).head?.any Text.isBlank = false := by
  obtain ⟨a, w, hw, ha⟩ := exists_cons_render h q
  simpa [hw] using Text.isBlank_of_opensExpression ha

theorem takes_sepBy1 {α β : Type} {item : Grammar α} {separator : Grammar Unit} {mark : String} {F : List Char → Prop}
    {text : β → String} {value : β → α} {xs : List β}
    (hseparator : ∀ x ∈ xs, ∀ rest, separator.Takes recur mark.toList ((text x).toList ++ rest) ())
    (hitem : ∀ x ∈ xs, ∀ rest, F rest → item.Takes recur (text x).toList rest (value x)) (hmark : mark.toList ≠ [])
    (hF : ∀ rest, F (mark.toList ++ rest)) (hrest : F rest) (hend : separator.Refuses recur rest) (hxs : xs ≠ []) :
    (sepBy1 item separator).Takes recur (mark.intercalate (xs.map text)).toList rest (xs.map value) := by
  obtain ⟨x, xs, rfl⟩ := List.exists_cons_of_ne_nil hxs
  obtain ⟨hx, hitem⟩ := List.forall_mem_cons.1 hitem
  have hpair : ∀ x ∈ xs, ∀ rest, F rest →
      (separator *> item).Takes recur (mark.toList ++ (text x).toList) rest (value x) :=
    fun x hx rest hrest => takes_seqRight (hseparator x (List.mem_cons_of_mem _ hx) rest) (hitem x hx rest hrest)
  have hmore := takesMany_each hpair (fun x _ => by simp [hmark])
    (fun x _ rest => by rw [List.append_assoc]; exact hF _) hrest (refuses_seqRight_left hend)
  rw [List.map_cons, toList_intercalate_cons, List.flatMap_map]
  exact takes_seq (takes_map (hx _ hmore.2)) hmore.1.takes

/-! ## Arguments -/

theorem takes_nameText {rule : Rule} {name : String} (hname : Text.IsPlainName name.toList) (hrest : NameEnds rest) :
    (atom rule (covered plainName) : Grammar String).Takes recur name.toList rest name := by
  have h : (covered plainName : Grammar String).Takes recur name.toList rest (String.ofList name.toList) :=
    takes_covered (takes_plainName hname hrest.joins)
  rw [String.ofList_toList] at h
  exact takes_atom h

theorem takes_namedArgument {a : NamedArgument} (h : a.Spelled) (hrest : Ends rest) :
    namedArgument.Takes keys (a.render q).toList rest (a.norm q) := by
  have htext : (a.render q).toList = a.name.toList ++ (": ".toList ++ (a.value.render q).toList) := by
    simp [NamedArgument.render]
  rw [htext]
  exact takes_named (takes_seq (takes_map (takes_nameText h.name (nameEnds_cons (by decide) (by decide))))
    (takes_seqRight (takes_colon (head_render h.value.spelled q rest)) (takes_expression hrest h.value)))

/-- A name that no colon follows does not start a named argument. -/
theorem refuses_namedArgument_name {u v : List Char} (hu : Text.IsPlainName u) (hv : v.head?.any Text.joinsName = false)
    (hcolon : Text.afterBlanks v ≠ some ':') : namedArgument.Refuses recur (u ++ v) :=
  refuses_named (refuses_seq_right (takes_map (takes_atom (takes_covered (takes_plainName hu hv))))
    (refuses_seqRight_left (refuses_colon hcolon)))

theorem refuses_namedArgument {a : Char} {w : List Char} (ha : Text.isNameStart a = false) :
    namedArgument.Refuses recur (a :: w) :=
  refuses_named (refuses_seq_left (refuses_map (refuses_atom (refuses_covered (refuses_seqLeft_left
    (refuses_giving (refuses_char ha)))))))

theorem refuses_namedArgument_render {e : Expression} (h : e.Spelled) (hrest : Ends rest)
    (hcolon : Text.afterBlanks rest ≠ some ':') : namedArgument.Refuses recur ((e.render q).toList ++ rest) := by
  cases e with
  | string s =>
    rw [Expression.render, s.toList_render]
    refine refuses_namedArgument ?_
    cases (s.norm q).quote <;> rfl
  | number digits =>
    obtain ⟨a, v, hv, ha⟩ := Text.IsNumber.exists_cons h
    rw [Expression.render, hv]
    refine refuses_namedArgument ?_
    rw [← Bool.not_eq_true]
    intro hstart
    rcases ha with rfl | ha
    · exact absurd hstart (by decide)
    · rw [isDigit_of_isNameStart hstart] at ha
      cases ha
  | keyword k => exact refuses_namedArgument_name k.isPlainName hrest.nameEnds.joins hcolon
  | range first last =>
    rw [Expression.render, String.toList_append, String.toList_append, String.toList_append, String.toList_append]
    exact refuses_namedArgument rfl
  | lookup name steps =>
    have hsteps := spelledSteps_iff.1 h.2
    rcases render_lookup_cases (q := q) h with ⟨m, rfl, hm, hrender, -⟩ | ⟨key, more, rfl, rfl, hrender, -⟩
    · rw [hrender, List.append_assoc]
      have hends : NameEnds (stepChars q steps ++ rest) := nameEnds_stepChars (.inl hrest) hsteps
      rcases hm with hm | ⟨w, hw, hplain⟩
      · refine refuses_namedArgument_name hm hends.joins ?_
        cases steps with
        | nil => exact hcolon
        | cons step steps =>
          rw [stepChars, List.flatMap_cons, List.append_assoc]
          rcases step.render_cases q false (hsteps step (by simp)) with ⟨name, -, hdot, -⟩ | ⟨key, -, hbracket, -⟩
          · rw [hdot, String.toList_append]
            exact fun h => absurd (Option.some.inj h) (by decide)
          · rw [hbracket, String.toList_append, String.toList_append]
            exact fun h => absurd (Option.some.inj h) (by decide)
      · rw [hw, List.append_assoc]
        exact refuses_namedArgument_name hplain rfl fun h => absurd (Option.some.inj h) (by decide)
    · rw [hrender]
      exact refuses_namedArgument rfl

structure FilterEnds (rest : List Char) : Prop where
  ends : Ends rest
  colon : Text.afterBlanks rest ≠ some ':'
  comma : Text.afterBlanks rest ≠ some ','

theorem takes_filterArgument {a : Argument} (h : a.Spelled) (hrest : Ends rest)
    (hcolon : Text.afterBlanks rest ≠ some ':') : filterArgument.Takes keys (a.render q).toList rest (a.norm q) := by
  cases a with
  | positional value =>
    exact takes_orElse_right (refuses_map (refuses_namedArgument_render h.spelled hrest hcolon))
      (takes_map (takes_expression hrest h))
  | named a => exact takes_orElse_left (takes_map (takes_namedArgument h hrest))

theorem head_renderArgument {a : Argument} (h : a.Spelled) (q : Quote) (rest : List Char) :
    ((a.render q).toList ++ rest).head?.any Text.isBlank = false := by
  cases a with
  | positional value => exact head_render h.spelled q rest
  | named a =>
    obtain ⟨b, v, hv, hb, -⟩ := h.name
    have hstart := Text.isBlank_of_opensExpression (Text.opensExpression_of_isNameStart hb)
    simpa [Argument.render, NamedArgument.render, hv] using hstart

theorem takes_filterArguments {arguments : List Argument} (h : ∀ a ∈ arguments, a.Spelled) (hne : arguments ≠ [])
    (hrest : FilterEnds rest) : (sepBy1 filterArgument comma).Takes keys
      (", ".intercalate (arguments.map (Argument.render q))).toList rest (arguments.map (Argument.norm q)) := by
  refine takes_sepBy1 (F := fun rest => Ends rest ∧ Text.afterBlanks rest ≠ some ':') ?_ ?_ (by simp) ?_
    ⟨hrest.ends, hrest.colon⟩ (refuses_comma hrest.comma) hne
  · exact fun a ha rest => takes_comma (head_renderArgument (h a ha) q rest)
  · exact fun a ha rest hrest => takes_filterArgument (h a ha) hrest.1 hrest.2
  · exact fun rest => ⟨ends_cons (by decide), fun h => absurd (Option.some.inj h) (by decide)⟩

theorem takes_filter {gap : List Char} (hgap : gap.all Text.isBlank = true) {f : Filter} (h : f.Spelled)
    (hrest : FilterEnds rest) : filter.Takes keys (gap ++ (f.render q).toList) rest (f.norm q) := by
  obtain ⟨a, v, hv, ha, -⟩ := h.name
  have hblank : Text.isBlank a = false :=
    Text.isBlank_of_opensExpression (Text.opensExpression_of_isNameStart ha)
  have hname {rest : List Char} (hrest : NameEnds rest) :
      (blanks *> .text "|" *> blanks *> atom .filterName (covered plainName) : Grammar String).Takes keys
        (gap ++ ("| " ++ f.name).toList) rest f.name := by
    have htext : gap ++ ("| " ++ f.name).toList = ((gap ++ "|".toList) ++ [' ']) ++ f.name.toList := by simp
    rw [htext]
    exact takes_seqRight (takes_seqRight (takes_seqRight (takes_blanks hgap rfl) takes_text)
      (takes_blanks rfl (by simpa [hv] using hblank))) (takes_nameText h.name hrest)
  rw [Filter.render, Filter.norm]
  split
  next hnil =>
    have harguments : f.arguments.map (Argument.norm q) = [] := by simpa using hnil
    have hnone : (opt (colon *> sepBy1 filterArgument comma)).Takes keys [] rest none :=
      takes_opt_none (refuses_seqRight_left (refuses_colon hrest.colon))
    rw [harguments, ← List.append_nil (gap ++ ("| " ++ f.name).toList)]
    exact takes_named (takes_seq (g := fun arguments => Filter.mk f.name (arguments.getD []))
      (takes_map (hname hrest.ends.nameEnds)) hnone)
  next hne =>
    have hne : f.arguments ≠ [] := by simpa using hne
    have hhead : ((", ".intercalate (f.arguments.map (Argument.render q))).toList ++ rest).head?.any
        Text.isBlank = false := by
      obtain ⟨a, arguments, harguments⟩ := List.exists_cons_of_ne_nil hne
      rw [harguments, List.map_cons, toList_intercalate_cons, List.append_assoc]
      exact head_renderArgument (h.arguments a (by simp [harguments])) q _
    have htext : gap ++ ("| " ++ f.name ++ ": " ++ ", ".intercalate (f.arguments.map (Argument.render q))).toList =
        (gap ++ ("| " ++ f.name).toList) ++
          (": ".toList ++ (", ".intercalate (f.arguments.map (Argument.render q))).toList) := by
      simp
    rw [htext]
    exact takes_named (takes_seq (g := fun arguments => Filter.mk f.name (arguments.getD []))
      (takes_map (hname (nameEnds_cons (by decide) (by decide))))
      (takes_opt_some (takes_seqRight (takes_colon hhead) (takes_filterArguments h.arguments hne hrest))))

/-- The text of an expression with filters, each of them after the same blanks. -/
def filteredChars (q : Quote) (gap : List Char) (v : Filtered) : List Char :=
  (v.subject.render q).toList ++ v.filters.flatMap fun f => gap ++ (f.render q).toList

theorem toList_renderFiltered (q : Quote) (v : Filtered) : (v.render q).toList = filteredChars q [' '] v := by
  rw [Filtered.render, toList_intercalate_cons, List.flatMap_map]
  rfl

/-- **An expression with filters is read as what it was written from.** -/
theorem takes_filtered {gap : List Char} (hne : gap ≠ []) (hgap : gap.all Text.isBlank = true) {v : Filtered}
    (h : v.Spelled) (hrest : FilterEnds rest) (hbar : Text.afterBlanks rest ≠ some '|') :
    filtered.Takes keys (filteredChars q gap v) rest (v.norm q) := by
  have hstop : filter.Refuses keys rest :=
    refuses_named (refuses_seq_left (refuses_map (refuses_seqRight_left (refuses_seqRight_left
      (refuses_mark_after_blanks rfl hbar)))))
  have hends : ∀ f ∈ v.filters, ∀ rest, FilterEnds (gap ++ (f.render q).toList ++ rest) := by
    intro f _ rest
    have hafter : Text.afterBlanks (gap ++ (f.render q).toList ++ rest) = some '|' := by
      rw [List.append_assoc, Text.afterBlanks_append hgap, Filter.render]
      split <;> simpa using Text.afterBlanks_cons rfl
    rw [List.append_assoc] at hafter ⊢
    exact ⟨ends_of_gap hne hgap, by simp [hafter], by simp [hafter]⟩
  have hfilters := takesMany_each (fun f hf rest hrest => takes_filter (q := q) hgap (h.filters f hf) hrest)
    (fun f _ => by simp [hne]) hends hrest hstop
  exact takes_named (takes_seq (takes_map (takes_expression hfilters.2.ends h.subject)) hfilters.1.takes)

end Grammar

end LiquidTemplate
