import LiquidTemplate.Proofs.Grammar.Names
import LiquidTemplate.Proofs.Peg.Depth

/-!
# Written expressions are read again

The text of an expression is read as the expression that it was written from, with its strings and lookups as they
are after writing (`takes_expression`). What follows has to end the expression (`Ends`); at the first end of a range
two dots follow instead (`LookupEnds`).
-/

namespace LiquidTemplate

/-! ## What follows an expression -/

/-- The characters that end an expression wherever it stands in a tag. -/
def expressionEnders : List Char :=
  [' ', '\t', '\n', '\x0c', '\r', ',', ']', ')', ':']

/-- What follows ends an expression. -/
def Ends (rest : List Char) : Prop :=
  ∀ a, rest.head? = some a → a ∈ expressionEnders

def LookupEnds (rest : List Char) : Prop :=
  Ends rest ∨ ∃ r, rest = '.' :: '.' :: r

section

variable {rest : List Char}

theorem ends_cons {a : Char} (ha : a ∈ expressionEnders) : Ends (a :: rest) := by
  rintro b ⟨⟩
  exact ha

theorem Ends.head_any (h : Ends rest) {p : Char → Bool} (hp : expressionEnders.any p = false) :
    rest.head?.any p = false := by
  cases hhead : rest.head? with
  | none => rfl
  | some a => exact Bool.eq_false_iff.2 (List.any_eq_false.1 hp a (h a hhead))

theorem Ends.head_ne (h : Ends rest) {a : Char} (ha : a ∉ expressionEnders) : rest.head? ≠ some a :=
  fun hhead => ha (h a hhead)

theorem Ends.keywordEnds (h : Ends rest) : Grammar.KeywordEnds rest where
  name := Text.opensNameChar_of_joinsName (h.head_any (by decide))
  dot := h.head_ne (by decide)
  bracket := h.head_ne (by decide)

structure NameEnds (rest : List Char) : Prop where
  joins : rest.head?.any Text.joinsName = false
  asks : rest.head? ≠ some '?'

theorem nameEnds_cons {a : Char} (hjoins : Text.joinsName a = false) (hasks : a ≠ '?') : NameEnds (a :: rest) :=
  ⟨hjoins, by simpa using hasks⟩

theorem Ends.nameEnds (h : Ends rest) : NameEnds rest :=
  ⟨h.head_any (by decide), h.head_ne (by decide)⟩

theorem LookupEnds.nameEnds (h : LookupEnds rest) : NameEnds rest := by
  rcases h with h | ⟨r, rfl⟩
  · exact h.nameEnds
  · exact nameEnds_cons (by decide) (by decide)

theorem LookupEnds.numberEnds (h : LookupEnds rest) : Grammar.NumberEnds rest := by
  rcases h with h | ⟨r, rfl⟩
  · refine ⟨h.head_any (by decide), ?_⟩
    rintro r rfl
    exact absurd rfl (h.head_ne (a := '.') (by decide))
  · refine ⟨rfl, ?_⟩
    rintro s ⟨⟩
    rfl

end

/-! ## Texts of lookups -/

theorem isAskingName_of_isDotName {s : String} (h : isDotName s = true) : Text.IsAskingName s.toList := by
  have htail {w : List Char} (hw : w.all Text.isWordChar = true) : w.all Text.isNameTail = true := by
    rw [List.all_eq_true] at hw ⊢
    intro a ha
    simp [Text.isNameTail, hw a ha]
  unfold isDotName at h
  split at h
  · cases h
  next a w hs =>
    rw [hs]
    rw [Bool.and_eq_true] at h
    obtain ⟨ha, hw⟩ := h
    split at hw
    next v hreverse =>
      have hv : w = v.reverse ++ ['?'] := by
        rw [← List.reverse_reverse w, hreverse, List.reverse_cons]
      have hall : v.reverse.all Text.isWordChar = true := by rwa [List.all_reverse]
      exact .inr ⟨a :: v.reverse, by rw [hv, List.cons_append], a, v.reverse, rfl, ha, htail hall⟩
    next => exact .inl ⟨a, w, rfl, ha, htail hw⟩

theorem Text.IsAskingName.exists_cons {w : List Char} (h : IsAskingName w) :
    ∃ a v, w = a :: v ∧ isNameStart a = true := by
  rcases h with ⟨a, v, rfl, ha, -⟩ | ⟨_, rfl, a, v, rfl, ha, -⟩
  · exact ⟨a, v, rfl, ha⟩
  · exact ⟨a, v ++ ['?'], rfl, ha⟩

theorem Text.isNameTail_of_isNameStart {a : Char} (ha : isNameStart a = true) : isNameTail a = true := by
  simp only [isNameStart, Bool.or_eq_true] at ha
  rcases ha with ha | ha <;> simp [isNameTail, isWordChar, Char.isAlphanum, ha]

theorem Text.opensNameChar_cons {a : Char} {cs : List Char} (ha : isNameTail a = true)
    (hpercent : opensWith "%\x7d" cs = false) (hbrace : opensWith "\x7d\x7d" cs = false) :
    opensNameChar (a :: cs) = true := by
  simp only [isNameTail, Bool.or_eq_true, beq_iff_eq] at ha
  rcases ha with ha | rfl
  · simp [opensNameChar, ha]
  · simp [opensNameChar, stripStart?, hpercent, hbrace]

theorem Text.IsPlainName.all {w : List Char} (h : IsPlainName w) : w.all isNameTail = true := by
  obtain ⟨a, v, rfl, ha, hv⟩ := h
  rw [List.all_cons, isNameTail_of_isNameStart ha, hv]
  rfl

theorem Text.joinsName_of_isNameTail {a : Char} (ha : isNameTail a = true) : joinsName a = true := by
  simp only [isNameTail, Bool.or_eq_true] at ha
  rcases ha with ha | ha <;> simp [joinsName, ha]

theorem Text.IsAskingName.eq_nil_of_question {u v : List Char} (h : IsAskingName (u ++ '?' :: v)) : v = [] := by
  have hnot {w : List Char} (hw : IsPlainName w) : '?' ∉ w := by
    intro hmem
    exact absurd (List.all_eq_true.1 hw.all '?' hmem) (by decide)
  rcases h with h | ⟨w, hw, hplain⟩
  · exact absurd (by simp) (hnot h)
  · rcases List.eq_nil_or_concat v with hv | ⟨v', b, rfl⟩
    · exact hv
    · have hlast : (u ++ '?' :: v') ++ [b] = w ++ ['?'] := by simpa using hw
      obtain ⟨rfl, -⟩ := List.append_inj' hlast rfl
      exact absurd (by simp) (hnot hplain)

theorem Text.IsAskingName.of_mem {w : List Char} (h : IsAskingName w) {a : Char} (ha : a ∈ w) :
    isNameTail a = true ∨ a = '?' := by
  rcases h with h | ⟨v, rfl, h⟩
  · exact .inl (List.all_eq_true.1 h.all a ha)
  · rcases List.mem_append.1 ha with ha | ha
    · exact .inl (List.all_eq_true.1 h.all a ha)
    · exact .inr (by simpa using ha)

theorem Lookup.render_cases (q : Quote) (first : Bool) (step : Lookup) (h : step.Spelled) :
    (∃ name, Text.IsAskingName name.toList ∧ step.render q first = "." ++ name ∧ step.norm q first = .dot name) ∨
    (∃ key : Expression, key.Readable ∧ step.render q first = "[" ++ key.render q ++ "]" ∧
      step.norm q first = .bracket (key.norm q)) := by
  cases step with
  | dot name => exact .inl ⟨name, h, by simp [render], by simp [norm]⟩
  | bracket key =>
    have hkey : key.Readable := ⟨h.1, h.2⟩
    cases key with
    | string s =>
      simp only [render, norm]
      split
      next hdot =>
        rw [Bool.and_eq_true] at hdot
        exact .inl ⟨s.value, isAskingName_of_isDotName hdot.2, rfl, rfl⟩
      next => exact .inr ⟨.string s, hkey, by simp [Expression.render], by simp [Expression.norm]⟩
    | number digits => exact .inr ⟨_, hkey, rfl, rfl⟩
    | keyword k => exact .inr ⟨_, hkey, rfl, rfl⟩
    | range first last => exact .inr ⟨_, hkey, rfl, rfl⟩
    | lookup name steps => exact .inr ⟨_, hkey, rfl, rfl⟩

theorem Lookup.render_first (q : Quote) (key : Expression) :
    (Lookup.bracket key).render q true = "[" ++ key.render q ++ "]" ∧
      (Lookup.bracket key).norm q true = .bracket (key.norm q) := by
  cases key <;> simp [render, norm, Expression.render, Expression.norm]

/-- The steps that follow something. -/
def stepChars (q : Quote) (steps : List Lookup) : List Char :=
  steps.flatMap fun step => (step.render q false).toList

theorem toList_renderSteps (q : Quote) {before : String} (hbefore : before ≠ "") (steps : List Lookup) :
    (renderSteps q before steps).toList = before.toList ++ stepChars q steps := by
  induction steps generalizing before with
  | nil => simp [renderSteps, stepChars]
  | cons step steps ih =>
    have hfirst : (before == "") = false := by simpa using hbefore
    have hnext : before ++ step.render q false ≠ "" := by simp [hbefore]
    rw [renderSteps, hfirst, ih hnext]
    simp [stepChars]

theorem normSteps_false (q : Quote) (steps : List Lookup) :
    normSteps q false steps = steps.map (Lookup.norm q false) := by
  induction steps with
  | nil => rfl
  | cons step steps ih => rw [normSteps, ih, List.map_cons]

theorem render_lookup_cases {q : Quote} {name : Option String} {steps : List Lookup}
    (h : (Expression.lookup name steps).Spelled) :
    (∃ n, name = some n ∧ Text.IsAskingName n.toList ∧
      ((Expression.lookup name steps).render q).toList = n.toList ++ stepChars q steps ∧
      (Expression.lookup name steps).norm q = .lookup name (steps.map (Lookup.norm q false))) ∨
    (∃ key more, name = none ∧ steps = .bracket key :: more ∧
      ((Expression.lookup name steps).render q).toList = '[' :: (key.render q).toList ++ ']' :: stepChars q more ∧
      (Expression.lookup name steps).norm q =
        .lookup none (.bracket (key.norm q) :: more.map (Lookup.norm q false))) := by
  obtain ⟨hname, -⟩ := h
  cases name with
  | some n =>
    obtain ⟨a, v, hn, -⟩ := Text.IsAskingName.exists_cons hname
    have hne : n ≠ "" := by
      rintro rfl
      cases hn
    refine .inl ⟨n, rfl, hname, ?_, ?_⟩
    · rw [Expression.render, Option.getD_some, toList_renderSteps q hne]
    · rw [Expression.norm, Option.isNone_some, normSteps_false]
  | none =>
    obtain ⟨key, more, rfl⟩ := hname
    obtain ⟨hrender, hnorm⟩ := Lookup.render_first q key
    refine .inr ⟨key, more, rfl, rfl, ?_, ?_⟩
    · have hne : "" ++ ("[" ++ key.render q ++ "]") ≠ "" := by simp
      rw [Expression.render, Option.getD_none, renderSteps, beq_self_eq_true, hrender, toList_renderSteps q hne]
      simp
    · rw [Expression.norm, Option.isNone_none, normSteps, hnorm, normSteps_false]

/-! ## First characters -/

def Text.opensExpression (c : Char) : Bool :=
  isNameStart c || c.isDigit || c ∈ ['\'', '"', '-', '(', '[']

theorem Text.isBlank_of_opensExpression {a : Char} (ha : opensExpression a = true) : isBlank a = false := by
  rw [← Bool.not_eq_true]
  intro hblank
  simp only [isBlank, Bool.or_eq_true, beq_iff_eq] at hblank
  rcases hblank with (((rfl | rfl) | rfl) | rfl) | rfl <;> exact absurd ha (by decide)

theorem Text.opensExpression_of_isNameStart {a : Char} (ha : isNameStart a = true) : opensExpression a = true := by
  simp [opensExpression, ha]

theorem Text.IsNumber.exists_cons {w : List Char} (h : IsNumber w) :
    ∃ a v, w = a :: v ∧ (a = '-' ∨ a.isDigit = true) := by
  obtain ⟨sign, whole, fraction, rfl, hsign, ⟨hne, hdigits⟩, -⟩ := h
  rcases hsign with rfl | rfl
  · obtain ⟨a, v, rfl⟩ := List.exists_cons_of_ne_nil hne
    exact ⟨a, v ++ fraction, rfl, .inr (List.all_eq_true.1 hdigits a List.mem_cons_self)⟩
  · exact ⟨'-', whole ++ fraction, rfl, .inl rfl⟩

theorem exists_cons_render {e : Expression} (h : e.Spelled) (q : Quote) :
    ∃ a w, (e.render q).toList = a :: w ∧ Text.opensExpression a = true := by
  cases e with
  | string s =>
    refine ⟨(s.norm q).quote.char, s.value.toList ++ [(s.norm q).quote.char], ?_, ?_⟩
    · rw [Expression.render, s.toList_render, List.cons_append]
    · cases (s.norm q).quote <;> rfl
  | number digits =>
    obtain ⟨a, v, hv, ha⟩ := Text.IsNumber.exists_cons h
    refine ⟨a, v, hv, ?_⟩
    rcases ha with rfl | ha
    · rfl
    · simp [Text.opensExpression, ha]
  | keyword k =>
    obtain ⟨a, v, hv, ha, -⟩ := k.isPlainName
    exact ⟨a, v, hv, Text.opensExpression_of_isNameStart ha⟩
  | range first last =>
    exact ⟨'(', (first.render q ++ ".." ++ last.render q ++ ")").toList, by simp [Expression.render], rfl⟩
  | lookup name steps =>
    rcases render_lookup_cases (q := q) h with ⟨n, -, hn, hrender, -⟩ | ⟨key, more, -, -, hrender, -⟩
    · obtain ⟨a, v, hv, ha⟩ := hn.exists_cons
      exact ⟨a, v ++ stepChars q steps, by rw [hrender, hv, List.cons_append], Text.opensExpression_of_isNameStart ha⟩
    · exact ⟨'[', (key.render q).toList ++ ']' :: stepChars q more, by rw [hrender, List.cons_append], rfl⟩

namespace Grammar

open Peg

/-! ## Lookups -/

variable {recur : Cursor → Option (Expression × Cursor)} {q : Quote} {n : Nat} {rest : List Char}

/-- The recursive nonterminal reads what was written, up to a length. -/
def TakesKeys (recur : Cursor → Option (Expression × Cursor)) (q : Quote) (n : Nat) : Prop :=
  ∀ key : Expression, key.Readable → (key.render q).toList.length < n → ∀ rest, Ends rest →
    (Peg.recur : Grammar Expression).Takes recur (key.render q).toList rest (key.norm q)

theorem takes_dotStep {name : String} (hname : Text.IsAskingName name.toList) (hrest : NameEnds rest) :
    dotStep.Takes recur ("." ++ name).toList rest (.dot name) := by
  have hcovered : (covered askingName : Grammar String).Takes recur name.toList rest (String.ofList name.toList) :=
    takes_covered (takes_askingName hname hrest.joins hrest.asks)
  rw [String.ofList_toList] at hcovered
  rw [String.toList_append]
  exact takes_named (takes_map (takes_seqRight takes_text (takes_atom hcovered)))

theorem takes_bracketStep (hkeys : TakesKeys recur q n) {key : Expression} (hkey : key.Readable)
    (hlength : ("[" ++ key.render q ++ "]").toList.length ≤ n) :
    bracketStep.Takes recur ("[" ++ key.render q ++ "]").toList rest (.bracket (key.norm q)) := by
  have hshort : (key.render q).toList.length < n := by
    have hmark : "[".toList.length = 1 := rfl
    simp only [String.toList_append, List.length_append] at hlength
    omega
  obtain ⟨a, w, hw, ha⟩ := exists_cons_render hkey.spelled q
  have htakes := hkeys key hkey hshort ([] ++ ("]".toList ++ rest)) (ends_cons (by decide))
  have hbefore : blanks.Takes recur [] ((key.render q).toList ++ ([] ++ ("]".toList ++ rest))) () :=
    takes_blanks rfl (by simpa [hw] using Text.isBlank_of_opensExpression ha)
  have hafter : blanks.Takes recur [] ("]".toList ++ rest) () := takes_blanks rfl rfl
  have hopened := takes_seqRight (takes_seqRight (takes_text (s := "[")) hbefore) htakes
  have h := takes_seqLeft (takes_seqLeft hopened hafter) (takes_text (s := "]"))
  rw [List.append_nil, List.append_nil] at h
  rw [String.toList_append, String.toList_append]
  exact takes_named (takes_map h)

theorem takes_step (hkeys : TakesKeys recur q n) {step : Lookup} (hstep : step.Spelled)
    (hlength : (step.render q false).toList.length ≤ n) (hrest : NameEnds rest) :
    (dotStep <|> bracketStep).Takes recur (step.render q false).toList rest (step.norm q false) := by
  rcases step.render_cases q false hstep with ⟨name, hname, hrender, hnorm⟩ | ⟨key, hkey, hrender, hnorm⟩
  · rw [hrender, hnorm]
    exact takes_orElse_left (takes_dotStep hname hrest)
  · rw [hrender] at hlength
    rw [hrender, hnorm]
    refine takes_orElse_right (refuses_named (refuses_map (refuses_seqRight_left (refuses_text ?_))))
      (takes_bracketStep hkeys hkey hlength)
    simp [Text.stripStart?]

theorem refuses_step (hrest : LookupEnds rest) : (dotStep <|> bracketStep).Refuses recur rest := by
  have hbracket : rest.head? ≠ some '[' := by
    rcases hrest with h | ⟨r, rfl⟩
    · exact h.head_ne (by decide)
    · simp
  refine refuses_orElse (refuses_named (refuses_map ?_)) (refuses_named (refuses_map ?_))
  · rcases hrest with h | ⟨r, rfl⟩
    · exact refuses_seqRight_left (refuses_text (stripStart?_eq_none rfl (h.head_ne (by decide))))
    · -- a second dot is no name
      have hname : (atom .lookupName (covered askingName) : Grammar String).Refuses recur ('.' :: r) :=
        refuses_atom (refuses_covered (refuses_seqLeft_left (refuses_seqLeft_left (refuses_giving (refuses_char rfl)))))
      exact refuses_seqRight_right (takes_text (s := ".")) hname
  · exact refuses_seqLeft_left (refuses_seqLeft_left (refuses_seqRight_left (refuses_seqRight_left
      (refuses_text (stripStart?_eq_none rfl hbracket)))))

theorem nameEnds_stepChars (hrest : LookupEnds rest) {steps : List Lookup} (hsteps : ∀ s ∈ steps, s.Spelled) :
    NameEnds (stepChars q steps ++ rest) := by
  cases steps with
  | nil => exact hrest.nameEnds
  | cons step steps =>
    rw [stepChars, List.flatMap_cons, List.append_assoc]
    rcases step.render_cases q false (hsteps step (by simp)) with ⟨name, -, hrender, -⟩ | ⟨key, -, hrender, -⟩
    · simpa [hrender] using nameEnds_cons (by decide) (by decide)
    · simpa [hrender] using nameEnds_cons (by decide) (by decide)

theorem takesMany_steps (hkeys : TakesKeys recur q n) (hrest : LookupEnds rest) {steps : List Lookup}
    (hsteps : ∀ s ∈ steps, s.Spelled) (hlength : (stepChars q steps).length ≤ n) :
    (dotStep <|> bracketStep).TakesMany recur (stepChars q steps) rest (steps.map (Lookup.norm q false)) := by
  induction steps with
  | nil => exact takesMany_nil (refuses_step hrest)
  | cons step steps ih =>
    obtain ⟨hstep, hsteps⟩ := List.forall_mem_cons.1 hsteps
    rw [stepChars, List.flatMap_cons, List.length_append] at hlength
    have hne : (step.render q false).toList ≠ [] := by
      rcases step.render_cases q false hstep with ⟨name, -, hrender, -⟩ | ⟨key, -, hrender, -⟩ <;> simp [hrender]
    have htakes := takes_step hkeys hstep (by omega) (nameEnds_stepChars (q := q) hrest hsteps)
    exact takesMany_cons hne htakes (ih hsteps (by rw [stepChars]; omega))

theorem takes_variableName {name : String} (hname : Text.IsAskingName name.toList) (hrest : NameEnds rest) :
    variableName.Takes recur name.toList rest name := by
  have h : variableName.Takes recur name.toList rest (String.ofList name.toList) :=
    takes_atom (takes_covered (takes_askingName hname hrest.joins hrest.asks))
  rwa [String.ofList_toList] at h

theorem takes_lookup (hkeys : TakesKeys recur q n) (hrest : LookupEnds rest)
    {name : Option String} {steps : List Lookup}
    (h : (Expression.lookup name steps).Spelled)
    (hlength : ((Expression.lookup name steps).render q).toList.length ≤ n) :
    lookup.Takes recur ((Expression.lookup name steps).render q).toList rest
      ((Expression.lookup name steps).norm q) := by
  have hsteps := spelledSteps_iff.1 h.2
  rcases render_lookup_cases (q := q) h with ⟨m, rfl, hm, hrender, hnorm⟩ | ⟨key, more, rfl, rfl, hrender, hnorm⟩
  · rw [hrender, List.length_append] at hlength
    rw [hrender, hnorm]
    have hname : variableName.Takes recur m.toList (stepChars q steps ++ rest) m :=
      takes_variableName hm (nameEnds_stepChars hrest hsteps)
    exact takes_named (takes_seq (takes_map (takes_orElse_left (takes_map hname)))
      (takesMany_steps hkeys hrest hsteps (by omega)).takes)
  · obtain ⟨⟨hoperand, hspelled⟩, hmore⟩ := List.forall_mem_cons.1 hsteps
    rw [hrender] at hlength
    simp only [List.cons_append, List.length_cons, List.length_append] at hlength
    rw [hrender, hnorm]
    have hkey : bracketStep.Takes recur ("[" ++ key.render q ++ "]").toList (stepChars q more ++ rest)
        (.bracket (key.norm q)) :=
      takes_bracketStep hkeys ⟨hoperand, hspelled⟩ (by simp; omega)
    have hname : variableName.Refuses recur (("[" ++ key.render q ++ "]").toList ++ (stepChars q more ++ rest)) :=
      refuses_atom (refuses_covered (refuses_seqLeft_left (refuses_seqLeft_left (refuses_giving
        (refuses_char (by simp [Text.isNameStart]))))))
    have htext : '[' :: (key.render q).toList ++ ']' :: stepChars q more =
        ("[" ++ key.render q ++ "]").toList ++ stepChars q more := by simp
    rw [htext]
    exact takes_named (takes_seq (g := fun steps => Expression.lookup none ([.bracket (key.norm q)] ++ steps))
      (takes_map (takes_orElse_right (refuses_map hname) (takes_map hkey)))
      (takesMany_steps hkeys hrest hmore (by omega)).takes)

/-! ## Other expressions -/

theorem refuses_string {a : Char} {w : List Char} (hsingle : a ≠ '\'') (hdouble : a ≠ '"') :
    string.Refuses recur (a :: w) := by
  have hquoted (m : Quote) (ha : a ≠ m.char) : (quoted m).Refuses recur (a :: w) :=
    refuses_map (refuses_seqLeft_left (refuses_seqRight_left (refuses_char (by simpa using ha))))
  exact refuses_atom (refuses_orElse (hquoted .single hsingle) (hquoted .double hdouble))

theorem refuses_number {a : Char} {w : List Char} (hdash : a ≠ '-') (hdigit : a.isDigit = false) :
    number.Refuses recur (a :: w) := by
  have hsign : (opt (.text "-") : Grammar (Option Unit)).Takes recur [] (a :: w) none :=
    takes_opt_none (refuses_text (stripStart?_eq_none (a := '-') rfl (by simpa using hdash)))
  have hdigits : (many1 (.char Char.isDigit) : Grammar (List Char)).Refuses recur (a :: w) :=
    refuses_many1 (refuses_char hdigit)
  exact refuses_map (refuses_atom (refuses_covered (refuses_seqRight_left (refuses_seqRight_left
    (refuses_seqRight_right hsign hdigits)))))

theorem refuses_range {a : Char} {w : List Char} (ha : a ≠ '(') : range.Refuses recur (a :: w) :=
  refuses_named (refuses_seq_left (refuses_map (refuses_seqLeft_left (refuses_seqRight_left (refuses_seqRight_left
    (refuses_text (stripStart?_eq_none (a := '(') rfl (by simpa using ha))))))))

theorem isDigit_of_isNameStart {a : Char} (ha : Text.isNameStart a = true) : a.isDigit = false := by
  rw [← Bool.not_eq_true]
  intro hdigit
  simp only [Char.isDigit, Bool.and_eq_true, decide_eq_true_eq, ge_iff_le, UInt32.le_iff_toNat_le] at hdigit
  delta Text.isNameStart Char.isAlpha Char.isUpper Char.isLower at ha
  simp only [Bool.or_eq_true, Bool.and_eq_true, decide_eq_true_eq, beq_iff_eq, ge_iff_le,
    UInt32.le_iff_toNat_le] at ha
  rcases ha with (ha | ha) | rfl
  · exact absurd (Nat.le_trans ha.1 hdigit.2) (by decide)
  · exact absurd (Nat.le_trans ha.1 hdigit.2) (by decide)
  · exact absurd hdigit.2 (by decide)

theorem reads_keyword {H : (Cursor → Option (Expression × Cursor)) → Prop} :
    keyword.ReadsGiven H fun c k d => c.rest = k.word.toList ++ d.rest ∧ KeywordEnds d.rest := by
  have hend : (Peg.notAhead (giving () nameChar <|> .text "." <|> .text "[") : Grammar Unit).ReadsGiven H
      fun c _ d => d = c ∧ KeywordEnds c.rest := by
    refine reads_notAhead fun recur c hnone => ⟨rfl, ?_⟩
    rw [read_orElse, Option.or_eq_none_iff, read_orElse, Option.or_eq_none_iff] at hnone
    obtain ⟨hname, hdot, hbracket⟩ := hnone
    have hmark {a : Char} {s : String} (hs : s.toList = [a]) (hread : (Peg.text s : Grammar Unit).read recur c = none) :
        c.rest.head? ≠ some a := by
      intro hhead
      obtain ⟨r, hr⟩ := List.head?_eq_some_iff.1 hhead
      have hsplit : c.rest = s.toList ++ r := by rw [hr, hs, List.singleton_append]
      rw [takes_text.read hsplit] at hread
      cases hread
    exact ⟨opensNameChar_of_read (by simpa [read_giving] using hname), hmark rfl hdot, hmark rfl hbracket⟩
  have hkeyword (k : Keyword) : (keywordOf k).ReadsGiven H
      fun c k d => c.rest = k.word.toList ++ d.rest ∧ KeywordEnds d.rest := by
    refine reads_seqLeft (reads_map (reads_text fun c d hrest _ => ?_)) hend
    rintro - e ⟨rfl, hends⟩
    exact ⟨hrest, hends⟩
  exact reads_atom (reads_orElse (hkeyword _) (reads_orElse (hkeyword _) (reads_orElse (hkeyword _)
    (reads_orElse (hkeyword _) (reads_orElse (hkeyword _) (hkeyword _))))))

theorem refuses_keyword {a : Char} {w : List Char} (ha : Text.isNameStart a = false) :
    keyword.Refuses recur (a :: w) := by
  intro offset stack
  cases hread : keyword.read recur ⟨a :: w, offset, stack⟩ with
  | none => rfl
  | some r =>
    obtain ⟨hsplit, -⟩ := reads_keyword (H := fun _ => True) recur trivial _ _ _ hread
    obtain ⟨b, v, hv, hb, -⟩ := r.1.isPlainName
    rw [hv] at hsplit
    obtain ⟨rfl, -⟩ := List.cons.inj hsplit
    rw [ha] at hb
    cases hb

/-- What starts with a name, a range or a bracket is neither a string nor a number. -/
theorem takes_after_literals {a : Char} {w : List Char} {e : Expression}
    (ha : Text.isNameStart a = true ∨ a = '(' ∨ a = '[')
    (h : (.keyword <$> keyword <|> range <|> lookup : Grammar Expression).Takes recur (a :: w) rest e) :
    expression.Takes recur (a :: w) rest e := by
  have hne {b : Char} (hb : Text.isNameStart b = false ∧ b ≠ '(' ∧ b ≠ '[') : a ≠ b := by
    rintro rfl
    simp [hb] at ha
  have hdigit : a.isDigit = false := by
    rcases ha with ha | rfl | rfl
    · exact isDigit_of_isNameStart ha
    · rfl
    · rfl
  exact takes_orElse_right (refuses_map (refuses_string (hne (by decide)) (hne (by decide))))
    (takes_orElse_right (refuses_number (hne (by decide)) hdigit) h)

theorem not_keywordEnds_stepChars {steps : List Lookup} (hsteps : ∀ s ∈ steps, s.Spelled) (hne : steps ≠ []) :
    ¬ KeywordEnds (stepChars q steps ++ rest) := by
  obtain ⟨step, more, rfl⟩ := List.exists_cons_of_ne_nil hne
  intro hends
  rcases step.render_cases q false (hsteps step (by simp)) with ⟨name, -, hrender, -⟩ | ⟨key, -, hrender, -⟩
  · exact hends.dot (by simp [stepChars, hrender])
  · exact hends.bracket (by simp [stepChars, hrender])

/-- A lookup that goes on like a lookup is not read as a keyword. -/
theorem refuses_keyword_lookup {name : String} {steps : List Lookup} (hname : Text.IsAskingName name.toList)
    (hsteps : ∀ s ∈ steps, s.Spelled) (hoperand : (Expression.lookup (some name) steps).IsOperand) (hrest : Ends rest) :
    keyword.Refuses recur (name.toList ++ (stepChars q steps ++ rest)) := by
  intro offset stack
  have hnext : NameEnds (stepChars q steps ++ rest) := nameEnds_stepChars (.inl hrest) hsteps
  cases hread : keyword.read recur ⟨name.toList ++ (stepChars q steps ++ rest), offset, stack⟩ with
  | none => rfl
  | some r =>
    obtain ⟨k, d⟩ := r
    obtain ⟨hsplit, hends⟩ := reads_keyword (H := fun _ => True) recur trivial _ _ _ hread
    obtain ⟨hbare, hquestion⟩ := hoperand k
    exfalso
    rcases List.append_eq_append_iff.1 hsplit with ⟨v, hv, hr⟩ | ⟨v, hv, hr⟩
    · cases v with
      | nil =>
        rw [List.nil_append] at hr
        exact not_keywordEnds_stepChars hsteps (hbare (String.ext (by simpa using hv.symm))) (hr ▸ hends)
      | cons a v =>
        -- the keyword goes on after the name, but what follows a name does not
        have ha := List.all_eq_true.1 k.isPlainName.all a (by simp [hv])
        have hjoins := hnext.joins
        rw [hr, List.cons_append, List.head?_cons, Option.any_some] at hjoins
        simp [Text.joinsName_of_isNameTail ha] at hjoins
    · cases v with
      | nil =>
        rw [List.nil_append] at hr
        exact not_keywordEnds_stepChars hsteps (hbare (String.ext (by simpa using hv))) (hr ▸ hends)
      | cons a v =>
        -- the name goes on after the keyword
        rw [hv] at hname
        have hopens := hends.name
        rw [hr, List.cons_append] at hopens
        rcases hname.of_mem (a := a) (by simp) with ha | rfl
        · have hnotMem {b : Char} (hb : Text.isNameTail b = false) (hask : b ≠ '?') : b ∉ v := by
            intro hmem
            rcases hname.of_mem (a := b) (by simp [hmem]) with htail | rfl
            · simp [hb] at htail
            · exact hask rfl
          have hclosed := Text.opensWith_closing
            (Text.head?_append_ne (hnotMem (by decide) (by decide))
              (Text.head?_ne_of_joinsName hnext.joins (by decide)))
            (Text.head?_append_ne (hnotMem (by decide) (by decide))
              (Text.head?_ne_of_joinsName hnext.joins (by decide)))
          rw [Text.opensNameChar_cons ha hclosed.1 hclosed.2] at hopens
          cases hopens
        · obtain rfl := hname.eq_nil_of_question
          exact hquestion (String.ext (by simpa using hv))

theorem takes_numberText {digits : String} (h : Text.IsNumber digits.toList) (hrest : LookupEnds rest) :
    number.Takes recur digits.toList rest (.number digits) := by
  have htakes : number.Takes recur digits.toList rest (.number (String.ofList digits.toList)) :=
    takes_number h hrest.numberEnds
  rwa [String.ofList_toList] at htakes

theorem takes_rangeEnd (hkeys : TakesKeys recur q n) (hrest : LookupEnds rest) {e : Expression} (hend : e.IsRangeEnd)
    (h : e.Spelled) (hlength : (e.render q).toList.length ≤ n) :
    rangeEnd.Takes recur (e.render q).toList rest (e.norm q) := by
  cases e with
  | number digits => exact takes_orElse_left (takes_numberText h hrest)
  | lookup name steps =>
    refine takes_orElse_right ?_ (takes_lookup hkeys hrest h hlength)
    rcases render_lookup_cases (q := q) h with ⟨m, -, hm, hrender, -⟩ | ⟨key, more, -, -, hrender, -⟩
    · obtain ⟨a, v, hv, ha⟩ := hm.exists_cons
      rw [hrender, hv]
      refine refuses_number ?_ (isDigit_of_isNameStart ha)
      rintro rfl
      exact absurd ha (by decide)
    · rw [hrender]
      exact refuses_number (by decide) (by decide)
  | string _ => exact hend.elim
  | keyword _ => exact hend.elim
  | range _ _ => exact hend.elim

theorem takes_blanks_render {e : Expression} (h : e.Spelled) :
    blanks.Takes recur [] ((e.render q).toList ++ rest) () := by
  obtain ⟨a, w, hw, ha⟩ := exists_cons_render h q
  exact takes_blanks rfl (by simpa [hw] using Text.isBlank_of_opensExpression ha)

theorem takes_range (hkeys : TakesKeys recur q n) {first last : Expression} (h : (Expression.range first last).Spelled)
    (hlength : ((Expression.range first last).render q).toList.length ≤ n) :
    range.Takes recur ((Expression.range first last).render q).toList rest ((Expression.range first last).norm q) := by
  obtain ⟨⟨hfirst, hfirst'⟩, hlast, hlast'⟩ := h
  simp only [Expression.render, String.toList_append, List.length_append] at hlength
  have htext : ((Expression.range first last).render q).toList =
      ((("(".toList ++ []) ++ (first.render q).toList) ++ []) ++
        (((("..".toList ++ []) ++ (last.render q).toList) ++ []) ++ ")".toList) := by
    simp [Expression.render]
  rw [htext, Expression.norm]
  refine takes_named (takes_seq (takes_map (takes_seqLeft (takes_seqRight (takes_seqRight takes_text
      (takes_blanks_render hfirst')) (takes_rangeEnd hkeys (.inr ⟨_, rfl⟩) hfirst hfirst' (by omega)))
      (takes_blanks rfl rfl)))
    (takes_seqLeft (takes_seqLeft (takes_seqRight (takes_seqRight takes_text (takes_blanks_render hlast'))
      (takes_rangeEnd hkeys (.inl (ends_cons (by decide))) hlast hlast' (by omega)))
      (takes_blanks rfl rfl)) takes_text))

theorem takes_expression_of_keys (hkeys : TakesKeys recur q n) (hrest : Ends rest) {e : Expression} (h : e.Readable)
    (hlength : (e.render q).toList.length ≤ n) :
    expression.Takes recur (e.render q).toList rest (e.norm q) := by
  obtain ⟨hoperand, hspelled⟩ := h
  cases e with
  | string s => exact takes_orElse_left (takes_map (takes_string hspelled q))
  | number digits =>
    obtain ⟨a, v, hv, ha⟩ := Text.IsNumber.exists_cons hspelled
    have hstring : string.Refuses recur (digits.toList ++ rest) := by
      rw [hv]
      refine refuses_string ?_ ?_ <;> (rintro rfl; revert ha; decide)
    exact takes_orElse_right (refuses_map hstring)
      (takes_orElse_left (takes_numberText hspelled (.inl hrest)))
  | keyword k =>
    obtain ⟨a, v, hv, ha, -⟩ := k.isPlainName
    have htakes : keyword.Takes recur k.word.toList rest k := takes_keyword k hrest.keywordEnds
    rw [hv] at htakes
    rw [Expression.render, hv]
    exact takes_after_literals (.inl ha) (takes_orElse_left (takes_map htakes))
  | range first last =>
    have htext : ((Expression.range first last).render q).toList =
        '(' :: (first.render q ++ ".." ++ last.render q ++ ")").toList := by simp [Expression.render]
    have htakes : range.Takes recur _ rest _ := takes_range hkeys hspelled hlength
    rw [htext] at htakes ⊢
    exact takes_after_literals (.inr (.inl rfl))
      (takes_orElse_right (refuses_map (refuses_keyword rfl)) (takes_orElse_left htakes))
  | lookup name steps =>
    have htakes := takes_lookup hkeys (.inl hrest) hspelled hlength
    rcases render_lookup_cases (q := q) hspelled with ⟨m, rfl, hm, hrender, -⟩ | ⟨key, more, rfl, rfl, hrender, -⟩
    · have hkeyword : keyword.Refuses recur (m.toList ++ (stepChars q steps ++ rest)) :=
        refuses_keyword_lookup hm (spelledSteps_iff.1 hspelled.2) hoperand hrest
      obtain ⟨a, v, hv, ha⟩ := hm.exists_cons
      have hparenthesis : a ≠ '(' := by
        rintro rfl
        exact absurd ha (by decide)
      rw [← List.append_assoc, hv] at hkeyword
      rw [hrender, hv] at htakes ⊢
      exact takes_after_literals (.inl ha)
        (takes_orElse_right (refuses_map hkeyword) (takes_orElse_right (refuses_range hparenthesis) htakes))
    · rw [hrender] at htakes ⊢
      exact takes_after_literals (.inr (.inr rfl))
        (takes_orElse_right (refuses_map (refuses_keyword rfl)) (takes_orElse_right (refuses_range (by decide)) htakes))

/-- Keys consume their bracket before they are read. -/
theorem guarded_expression : expression.guarded = true :=
  rfl

/-- The keys of lookups, nested to any depth. -/
abbrev keys : Cursor → Option (Expression × Cursor) :=
  nested expression

theorem takesKeys_keys (q : Quote) (n : Nat) : TakesKeys keys q n := by
  -- the keys of a lookup are shorter than the lookup
  induction n with
  | zero => exact fun _ _ hkey => absurd hkey (Nat.not_lt_zero _)
  | succ n ih =>
    intro key hkey hlength rest hrest offset stack
    change keys _ = _
    rw [keys, nested_eq guarded_expression]
    exact takes_expression_of_keys ih hrest hkey (Nat.le_of_lt_succ hlength) offset stack

/-- **The text of an expression is read as that expression**, however deeply lookups are nested in it. -/
theorem takes_expression (hrest : Ends rest) {e : Expression} (h : e.Readable) :
    expression.Takes keys (e.render q).toList rest (e.norm q) :=
  takes_expression_of_keys (takesKeys_keys q _) hrest h (Nat.le_refl _)

end Grammar

end LiquidTemplate
