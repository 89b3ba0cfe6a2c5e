import LiquidTemplate.Proofs.Expression.Spelling
import LiquidTemplate.Proofs.Grammar.Tiling
import LiquidTemplate.Proofs.Grammar.Words
import LiquidTemplate.Proofs.Peg.Yields

/-!
# Names, numbers, strings and keywords

The rules for the smallest parts of an expression, in both directions: which texts they take (`takes_`), and what is
known of a text that they have taken (`reads_`).
-/

namespace LiquidTemplate

namespace Text

/-- A name goes on with the next character. A dash counts unless it is a trim marker. -/
def opensNameChar (cs : List Char) : Bool :=
  cs.head?.any isWordChar ||
    (stripStart? "-".toList cs).any fun rest => !(opensWith "%\x7d" rest || opensWith "\x7d\x7d" rest)

/-- A character that might be read as part of a name before it, or that makes a dash before it a trim marker. -/
def joinsName (c : Char) : Bool :=
  isWordChar c || c == '-' || c == '%' || c == '\x7d'

theorem opensNameChar_of_joinsName {cs : List Char} (h : cs.head?.any joinsName = false) :
    opensNameChar cs = false := by
  cases cs with
  | nil => rfl
  | cons a cs =>
    simp only [List.head?_cons, Option.any_some, joinsName, Bool.or_eq_false_iff, beq_eq_false_iff_ne] at h
    obtain ⟨⟨⟨hword, hdash⟩, -⟩, -⟩ := h
    simp [opensNameChar, hword, stripStart?, Ne.symm hdash]

theorem opensWith_closing {cs : List Char} (hpercent : cs.head? ≠ some '%') (hbrace : cs.head? ≠ some '\x7d') :
    opensWith "%\x7d" cs = false ∧ opensWith "\x7d\x7d" cs = false := by
  cases cs with
  | nil => exact ⟨rfl, rfl⟩
  | cons b cs =>
    have hb : b ≠ '%' ∧ b ≠ '\x7d' := by simpa using And.intro hpercent hbrace
    simp [opensWith, stripStart?, Ne.symm hb.1, Ne.symm hb.2]

theorem head?_append_ne {a : Char} {v cs : List Char} (hv : a ∉ v) (hcs : cs.head? ≠ some a) :
    (v ++ cs).head? ≠ some a := by
  cases v with
  | nil => exact hcs
  | cons b v =>
    rintro ⟨⟩
    exact hv List.mem_cons_self

theorem head?_ne_of_joinsName {a : Char} {cs : List Char} (h : cs.head?.any joinsName = false)
    (ha : joinsName a = true) :
    cs.head? ≠ some a := by
  intro hhead
  simp [hhead, ha] at h

end Text

namespace Grammar

open Peg

variable {recur : Cursor → Option (Expression × Cursor)} {w rest : List Char}

/-! ## Characters of names -/

theorem takes_nameChar {a : Char} (ha : Text.isNameTail a = true) (hrest : Text.opensWith "%\x7d" rest = false)
    (hrest' : Text.opensWith "\x7d\x7d" rest = false) : nameChar.Takes recur [a] rest a := by
  by_cases hword : Text.isWordChar a = true
  · exact takes_orElse_left (takes_char hword)
  · have hdash : (a == '-') = true := by simpa [Text.isNameTail, hword] using ha
    have hrefuses : (Peg.char Text.isWordChar : Grammar Char).Refuses recur ([a] ++ rest) :=
      refuses_char (by simpa using hword)
    have hend : (Peg.notAhead (.text "%\x7d" <|> .text "\x7d\x7d") : Grammar Unit).Takes recur [] rest () :=
      takes_notAhead (refuses_orElse (refuses_text (by simpa [Text.opensWith] using hrest))
        (refuses_text (by simpa [Text.opensWith] using hrest')))
    have htakes := takes_seqLeft (u := [a]) (takes_char (R := Rule) (q := (· == '-')) (r := recur) hdash) hend
    exact takes_orElse_right hrefuses htakes

theorem exists_of_opensWith {s : String} (h : Text.opensWith s rest = true) : ∃ r, rest = s.toList ++ r := by
  obtain ⟨r, hr⟩ := Option.isSome_iff_exists.1 h
  exact ⟨r, Text.stripStart?_eq_some_iff.1 hr⟩

theorem refuses_nameChar (h : Text.opensNameChar rest = false) : nameChar.Refuses recur rest := by
  rw [Text.opensNameChar, Bool.or_eq_false_iff] at h
  obtain ⟨hword, hdash⟩ := h
  refine refuses_orElse (refuses_char hword) ?_
  cases rest with
  | nil => exact refuses_seqLeft_left (refuses_char rfl)
  | cons a rest =>
    by_cases ha : a = '-'
    · subst ha
      have hclose : Text.opensWith "%\x7d" rest = true ∨ Text.opensWith "\x7d\x7d" rest = true := by
        simpa [Text.stripStart?, ← Bool.not_eq_true, Classical.or_iff_not_imp_left] using hdash
      have hahead : (Peg.notAhead (.text "%\x7d" <|> .text "\x7d\x7d") : Grammar Unit).Refuses recur rest := by
        by_cases hpercent : Text.opensWith "%\x7d" rest = true
        · obtain ⟨r, rfl⟩ := exists_of_opensWith hpercent
          exact refuses_notAhead (takes_orElse_left takes_text)
        · have hrefuses : (Peg.text "%\x7d" : Grammar Unit).Refuses recur rest :=
            refuses_text (by simpa [Text.opensWith] using hpercent)
          obtain ⟨r, rfl⟩ := exists_of_opensWith (hclose.resolve_left hpercent)
          exact refuses_notAhead (takes_orElse_right hrefuses takes_text)
      exact refuses_seqLeft_right (u := ['-']) (takes_char rfl) hahead
    · exact refuses_seqLeft_left (refuses_char (by simpa using ha))

theorem opensNameChar_of_read {c : Cursor} (h : nameChar.read recur c = none) :
    Text.opensNameChar c.rest = false := by
  cases hc : c.rest with
  | nil => rfl
  | cons a cs =>
    have hword : Text.isWordChar a = false := by
      rw [← Bool.not_eq_true]
      intro hword
      have htakes : nameChar.Takes recur [a] cs a := takes_orElse_left (takes_char hword)
      rw [htakes.read hc] at h
      cases h
    by_cases hdash : a = '-'
    · subst hdash
      cases hopens : Text.opensWith "%\x7d" cs || Text.opensWith "\x7d\x7d" cs with
      | true =>
        rw [Bool.or_eq_true] at hopens
        rcases hopens with h | h <;>
          simp [Text.opensNameChar, Text.stripStart?, Text.isWordChar, h]
      | false =>
        rw [Bool.or_eq_false_iff] at hopens
        have htakes : nameChar.Takes recur ['-'] cs '-' := takes_nameChar (by decide) hopens.1 hopens.2
        rw [htakes.read hc] at h
        cases h
    · simp [Text.opensNameChar, hword, Text.stripStart?, Ne.symm hdash]

theorem takesMany_nameChar (hw : w.all Text.isNameTail = true) (hrest : rest.head?.any Text.joinsName = false) :
    nameChar.TakesMany recur w rest w := by
  induction w with
  | nil => exact takesMany_nil (refuses_nameChar (Text.opensNameChar_of_joinsName hrest))
  | cons a w ih =>
    rw [List.all_cons, Bool.and_eq_true] at hw
    -- the next character is one of the name or one of what follows, never the start of a closing mark
    have hnext {b : Char} (hb : Text.isNameTail b = false) (hjoins : Text.joinsName b = true) :
        (w ++ rest).head? ≠ some b := by
      refine Text.head?_append_ne (fun hmem => ?_) (Text.head?_ne_of_joinsName hrest hjoins)
      rw [List.all_eq_true.1 hw.2 b hmem] at hb
      cases hb
    have hclosed := Text.opensWith_closing (hnext (by decide) (by decide)) (hnext (by decide) (by decide))
    exact takesMany_cons (u := [a]) (by simp) (takes_nameChar hw.1 hclosed.1 hclosed.2) (ih hw.2)

/-! ## Names -/

theorem takes_plainName (hw : Text.IsPlainName w) (hrest : rest.head?.any Text.joinsName = false) :
    plainName.Takes recur w rest () := by
  obtain ⟨a, w, rfl, ha, hw⟩ := hw
  exact takes_seqLeft (u := [a]) (takes_giving (takes_char ha)) (takesMany_nameChar hw hrest).takes

theorem takes_askingName (hw : Text.IsAskingName w) (hrest : rest.head?.any Text.joinsName = false)
    (hask : rest.head? ≠ some '?') : askingName.Takes recur w rest () := by
  rcases hw with hw | ⟨w, rfl, hw⟩
  · have hnone : (opt (.text "?") : Grammar (Option Unit)).Takes recur [] rest none := by
      refine takes_opt_none (refuses_text ?_)
      cases rest with
      | nil => rfl
      | cons a rest =>
        have ha : a ≠ '?' := by simpa using hask
        simp [Text.stripStart?, Ne.symm ha]
    have h : (plainName <* opt (.text "?")).Takes recur (w ++ []) rest () :=
      takes_seqLeft (takes_plainName hw hrest) hnone
    rwa [List.append_nil] at h
  · exact takes_seqLeft (takes_plainName hw (by simp [Text.joinsName, Text.isWordChar]))
      (takes_opt_some (takes_text (s := "?")))

theorem reads_covered {H : (Cursor → Option (Expression × Cursor)) → Prop} {α : Type} {p : Grammar α}
    {A : List Char → Cursor → Prop} (hp : p.ReadsGiven H fun c _ d => ∃ w, c.rest = w ++ d.rest ∧ A w d) :
    (covered p).ReadsGiven H fun c s d => c.rest = s.toList ++ d.rest ∧ A s.toList d := by
  refine reads_map (reads_slice (hp.imp ?_))
  rintro c x d ⟨w, hw, hA⟩
  have hchars : c.charsTo d = w := by simp [Cursor.charsTo, hw]
  simp only [Cursor.sliceTo, hchars, String.toList_ofList]
  exact ⟨hw, hA⟩

theorem reads_nameChar : nameChar.Reads fun c x d => c.rest = x :: d.rest ∧ Text.isNameTail x = true := by
  refine reads_orElse (reads_char fun c d x hrest _ hx => ⟨hrest, by simp [Text.isNameTail, hx]⟩) ?_
  have hstays : (Peg.notAhead (.text "%\x7d" <|> .text "\x7d\x7d") : Grammar Unit).Reads fun c _ d => d = c :=
    reads_notAhead fun _ _ _ => rfl
  refine reads_seqLeft (reads_char fun c d x hrest _ hx y e he => ?_) hstays
  subst he
  exact ⟨hrest, by simp [Text.isNameTail, hx]⟩

theorem consumes_nameChar : nameChar.Consumes :=
  reads_orElse consumes_char (consumes_seqLeft consumes_char)

theorem reads_nameChars : (Peg.many nameChar).Reads fun c w d =>
    (c.rest = w ++ d.rest ∧ w.all Text.isNameTail = true) ∧ Text.opensNameChar d.rest = false := by
  refine ReadsGiven.and (reads_many reads_nameChar (fun c => ⟨rfl, rfl⟩) ?_)
    (reads_many_stops consumes_nameChar fun recur _ d hnone => opensNameChar_of_read hnone)
  rintro c x d w e ⟨hrest, hx⟩ ⟨hrest', hw⟩
  exact ⟨by rw [hrest, hrest', List.cons_append], by simp [hx, hw]⟩

theorem reads_plainName : plainName.Reads fun c _ d =>
    ∃ w, c.rest = w ++ d.rest ∧ Text.IsPlainName w ∧ Text.opensNameChar d.rest = false := by
  refine reads_seqLeft (reads_map (reads_char ?_)) reads_nameChars
  rintro c d a hrest - ha w e ⟨⟨hw, hall⟩, hstop⟩
  exact ⟨a :: w, by rw [hrest, hw, List.cons_append], ⟨a, w, rfl, ha, hall⟩, hstop⟩

/-- What is known of a name and of what follows it. -/
def NameBefore (w : List Char) (d : Cursor) : Prop :=
  (Text.IsPlainName w ∧ Text.opensNameChar d.rest = false ∧ d.rest.head? ≠ some '?') ∨
    ∃ v, w = v ++ ['?'] ∧ Text.IsPlainName v

theorem NameBefore.isAskingName {d : Cursor} (h : NameBefore w d) : Text.IsAskingName w := by
  rcases h with ⟨hw, -⟩ | ⟨v, hw, hv⟩
  · exact .inl hw
  · exact .inr ⟨v, hw, hv⟩

theorem reads_askingName : askingName.Reads fun c _ d => ∃ w, c.rest = w ++ d.rest ∧ NameBefore w d := by
  have hmark : (opt (.text "?") : Grammar (Option Unit)).Reads fun c _ d =>
      c.rest = '?' :: d.rest ∨ (d = c ∧ c.rest.head? ≠ some '?') := by
    intro recur _ c x d hread
    rw [read_opt] at hread
    rcases Option.or_eq_some_iff.1 hread with h | ⟨hnone, h⟩
    · obtain ⟨s, hs, heq⟩ := Option.map_eq_some_iff.1 h
      cases heq
      obtain ⟨e, he, heq⟩ := Option.map_eq_some_iff.1 hs
      cases heq
      exact .inl (Cursor.skip?_eq_some he).1
    · cases h
      refine .inr ⟨rfl, fun hhead => ?_⟩
      obtain ⟨cs, hcs⟩ : ∃ cs, c.rest = '?' :: cs := by
        cases hc : c.rest with
        | nil => simp [hc] at hhead
        | cons a cs => exact ⟨cs, by simpa [hc] using hhead⟩
      have htakes : (Peg.text "?" : Grammar Unit).Takes recur "?".toList cs () := takes_text
      rw [htakes.read hcs] at hnone
      cases hnone
  refine reads_seqLeft (reads_plainName.imp ?_) hmark
  rintro c x d ⟨w, hrest, hw, hstop⟩ y e (hmark | ⟨rfl, hhead⟩)
  · exact ⟨w ++ ['?'], by rw [hrest, hmark]; simp, .inr ⟨w, rfl, hw⟩⟩
  · exact ⟨w, hrest, .inl ⟨hw, hstop, hhead⟩⟩

theorem reads_variableName : variableName.Reads fun c s d => c.rest = s.toList ++ d.rest ∧ NameBefore s.toList d :=
  reads_atom (reads_covered reads_askingName)

/-! ## Strings -/

theorem takes_quoted {q : Quote} {value : String} (hvalue : q.char ∉ value.toList) :
    (quoted q).Takes recur (q.char :: value.toList ++ [q.char]) rest ⟨value, q⟩ := by
  have hall : value.toList.all (· != q.char) = true := by
    rw [List.all_eq_true]
    intro a ha
    simp only [bne_iff_ne]
    rintro rfl
    exact hvalue ha
  have hinner : (Peg.char (· != q.char) : Grammar Char).TakesMany recur value.toList ([q.char] ++ rest) value.toList :=
    takesMany_char hall (by simp)
  have hcovered := takes_covered hinner.takes
  rw [String.ofList_toList] at hcovered
  exact takes_map (takes_seqLeft (takes_seqRight (u := [q.char]) (takes_char (by simp)) hcovered)
    (takes_char (by simp)))

theorem takes_string {s : StringLiteral} (hs : s.Spelled) (q : Quote) :
    string.Takes recur (s.render q).toList rest (s.norm q) := by
  have hmark : ∀ m : Quote, m.char ∉ s.value.toList →
      string.Takes recur (m.char :: s.value.toList ++ [m.char]) rest ⟨s.value, m⟩ := by
    intro m hm
    cases m with
    | single => exact takes_atom (takes_orElse_left (takes_quoted hm))
    | double =>
      refine takes_atom (takes_orElse_right (refuses_map ?_) (takes_quoted hm))
      exact refuses_seqLeft_left (refuses_seqRight_left (refuses_char (by simp [Quote.char])))
  rw [s.toList_render]
  exact hmark (s.norm q).quote (hs.notMem_norm q)

theorem reads_string : string.Reads fun _ s _ => s.Spelled := by
  have hquoted (q : Quote) : (quoted q).Yields Forward (fun _ => True) fun s => s.Spelled := by
    have hmany : (Peg.many (.char (· != q.char)) : Grammar (List Char)).Reads fun c w d =>
        c.rest = w ++ d.rest ∧ q.char ∉ w := by
      refine reads_many (reads_char (P := fun c x d => c.rest = x :: d.rest ∧ (x != q.char) = true)
        fun c d x hrest _ hx => ⟨hrest, hx⟩) (fun c => ⟨rfl, by simp⟩) ?_
      rintro c x d w e ⟨hrest, hx⟩ ⟨hrest', hw⟩
      refine ⟨by rw [hrest, hrest', List.cons_append], ?_⟩
      simp only [bne_iff_ne] at hx
      simp [hw, Ne.symm hx]
    have hcovered := reads_covered (A := fun w _ => q.char ∉ w) (hmany.imp fun c w d h => ⟨w, h⟩)
    have hyields := tracks_forward.yields (hcovered.imp fun _ _ _ h _ => h.2)
    exact yields_map (yields_seqLeft (yields_seqRight tracks_forward _ hyields) tracks_forward _) fun _ h => h
  exact (yields_atom (yields_orElse (hquoted .single) (hquoted .double))).reads

/-! ## Numbers -/

theorem takes_digits (hw : Text.IsDigits w) (hrest : rest.head?.any Char.isDigit = false) :
    (many1 (.char Char.isDigit) : Grammar (List Char)).Takes recur w rest w := by
  obtain ⟨hne, hall⟩ := hw
  obtain ⟨a, w, rfl⟩ := List.exists_cons_of_ne_nil hne
  rw [List.all_cons, Bool.and_eq_true] at hall
  exact takes_many1 (u := [a]) (takes_char hall.1) (takesMany_char hall.2 hrest)

theorem reads_digits : (many1 (.char Char.isDigit) : Grammar (List Char)).Reads fun c _ d =>
    ∃ w, c.rest = w ++ d.rest ∧ Text.IsDigits w := by
  have hmany : (Peg.many (.char Char.isDigit) : Grammar (List Char)).Reads fun c w d =>
      c.rest = w ++ d.rest ∧ w.all Char.isDigit = true := by
    refine reads_many (reads_char (P := fun c x d => c.rest = x :: d.rest ∧ x.isDigit = true)
      fun c d x hrest _ hx => ⟨hrest, hx⟩) (fun c => ⟨rfl, rfl⟩) ?_
    rintro c x d w e ⟨hrest, hx⟩ ⟨hrest', hw⟩
    exact ⟨by rw [hrest, hrest', List.cons_append], by simp [hx, hw]⟩
  refine reads_seq (reads_map (reads_char ?_)) hmany
  rintro c d x hrest - hx w e ⟨hw, hall⟩
  exact ⟨x :: w, by rw [hrest, hw, List.cons_append], by simp, by simp [hx, hall]⟩

def NumberEnds (rest : List Char) : Prop :=
  rest.head?.any Text.isWordChar = false ∧ ∀ r, rest = '.' :: r → r.head?.any Char.isDigit = false

theorem isDigit_of_isWordChar (hrest : rest.head?.any Text.isWordChar = false) :
    rest.head?.any Char.isDigit = false := by
  cases rest with
  | nil => rfl
  | cons a rest =>
    have ha : Text.isWordChar a = false := hrest
    simp only [Text.isWordChar, Char.isAlphanum, Bool.or_eq_false_iff] at ha
    exact ha.1.2

theorem takes_number (hw : Text.IsNumber w) (hrest : NumberEnds rest) :
    number.Takes recur w rest (.number (String.ofList w)) := by
  obtain ⟨sign, whole, fraction, rfl, hsign, hwhole, hfraction⟩ := hw
  obtain ⟨hword, hpoint⟩ := hrest
  have hdigit := isDigit_of_isWordChar hword
  have htakesSign : (opt (.text "-") : Grammar (Option Unit)).Takes recur sign (whole ++ (fraction ++ ([] ++ rest)))
      (if sign = [] then none else some ()) := by
    rcases hsign with rfl | rfl
    · obtain ⟨a, whole, rfl⟩ := List.exists_cons_of_ne_nil hwhole.1
      have ha : a.isDigit = true := (List.all_eq_true.1 hwhole.2) a List.mem_cons_self
      have hne : a ≠ '-' := by
        rintro rfl
        exact absurd ha (by decide)
      exact takes_opt_none (refuses_text (by simp [Text.stripStart?, Ne.symm hne]))
    · exact takes_opt_some (takes_text (s := "-"))
  have htakesWhole : (many1 (.char Char.isDigit) : Grammar (List Char)).Takes recur whole
      (fraction ++ ([] ++ rest)) whole := by
    refine takes_digits hwhole ?_
    rcases hfraction with rfl | ⟨digits, rfl, -⟩
    · exact hdigit
    · rfl
  have htakesFraction : ∃ x, (opt (.text "." *> many1 (.char Char.isDigit)) : Grammar (Option (List Char))).Takes recur
      fraction ([] ++ rest) x := by
    rcases hfraction with rfl | ⟨digits, rfl, hdigits⟩
    · refine ⟨none, takes_opt_none ?_⟩
      cases hstrip : Text.stripStart? ".".toList rest with
      | none => exact refuses_seqRight_left (refuses_text hstrip)
      | some r =>
        obtain rfl := Text.stripStart?_eq_some_iff.1 hstrip
        exact refuses_seqRight_right (u := ".".toList) takes_text (refuses_many1 (refuses_char (hpoint r rfl)))
    · exact ⟨some digits, takes_opt_some
        (takes_seqRight (u := ['.']) (takes_text (s := ".")) (takes_digits hdigits hdigit))⟩
  obtain ⟨x, htakesFraction⟩ := htakesFraction
  have hend : (Peg.notAhead (.char Text.isWordChar) : Grammar Unit).Takes recur [] rest () :=
    takes_notAhead (refuses_char hword)
  have h := takes_seqRight (takes_seqRight (takes_seqRight htakesSign htakesWhole) htakesFraction) hend
  rw [List.append_nil] at h
  exact takes_map (takes_atom (takes_covered h))

theorem reads_number : number.Reads fun _ e _ => ∃ digits, e = .number digits ∧ Text.IsNumber digits.toList := by
  have hsign : (opt (.text "-") : Grammar (Option Unit)).Reads fun c _ d =>
      ∃ s, c.rest = s ++ d.rest ∧ (s = [] ∨ s = ['-']) :=
    reads_opt (reads_text fun c d hrest _ => ⟨['-'], hrest, .inr rfl⟩) fun c => ⟨[], rfl, .inl rfl⟩
  have hfraction : (opt (.text "." *> many1 (.char Char.isDigit)) : Grammar (Option (List Char))).Reads fun c _ d =>
      ∃ f, c.rest = f ++ d.rest ∧ (f = [] ∨ ∃ digits, f = '.' :: digits ∧ Text.IsDigits digits) := by
    refine reads_opt (reads_seqRight (reads_text ?_) reads_digits) fun c => ⟨[], rfl, .inl rfl⟩
    rintro c d hrest - - e ⟨w, hw, hdigits⟩
    exact ⟨'.' :: w, by rw [hrest, hw]; rfl, .inr ⟨w, rfl, hdigits⟩⟩
  have hend : (Peg.notAhead (.char Text.isWordChar) : Grammar Unit).Reads fun c _ d => d = c :=
    reads_notAhead fun _ _ _ => rfl
  have hcovered := reads_covered (A := fun w _ => Text.IsNumber w)
    (reads_seqRight (reads_seqRight (reads_seqRight (hsign.imp ?_) reads_digits) hfraction) hend)
  · exact reads_map (reads_atom (hcovered.imp fun c s d h => ⟨s, rfl, h.2⟩))
  · rintro c - d ⟨s, hs, hsign⟩ - e ⟨w, hw, hdigits⟩ - f ⟨v, hv, hfraction⟩ - g rfl
    exact ⟨s ++ w ++ v, by rw [hs, hw, hv]; simp, s, w, v, rfl, hsign, hdigits, hfraction⟩

/-! ## Keywords -/

/-- What may follow a keyword: nothing that makes it the start of a lookup or of a longer name. -/
structure KeywordEnds (rest : List Char) : Prop where
  name : Text.opensNameChar rest = false
  dot : rest.head? ≠ some '.'
  bracket : rest.head? ≠ some '['

theorem stripStart?_eq_none {a : Char} {as : List Char} {s : String} (hs : s.toList = a :: as)
    (h : rest.head? ≠ some a) : Text.stripStart? s.toList rest = none := by
  rw [hs]
  cases rest with
  | nil => rfl
  | cons b rest =>
    have hb : b ≠ a := by simpa using h
    simp [Text.stripStart?, Ne.symm hb]

theorem takes_keywordOf (k : Keyword) (hrest : KeywordEnds rest) : (keywordOf k).Takes recur k.word.toList rest k := by
  have hend : (Peg.notAhead (giving () nameChar <|> .text "." <|> .text "[") : Grammar Unit).Takes recur [] rest () :=
    takes_notAhead (refuses_orElse (refuses_giving (refuses_nameChar hrest.name))
      (refuses_orElse (refuses_text (stripStart?_eq_none (a := '.') rfl hrest.dot))
        (refuses_text (stripStart?_eq_none (a := '[') rfl hrest.bracket))))
  have h := takes_seqLeft (takes_giving (y := k) (takes_text (R := Rule) (r := recur) (s := k.word))) hend
  rwa [List.append_nil] at h

theorem takes_keyword (k : Keyword) (hrest : KeywordEnds rest) : keyword.Takes recur k.word.toList rest k := by
  have hskip {k' : Keyword} (h : Text.stripStart? k'.word.toList (k.word.toList ++ rest) = none) :
      (keywordOf k').Refuses recur (k.word.toList ++ rest) := refuses_seqLeft_left (refuses_giving (refuses_text h))
  have htakes : (keywordOf k).Takes recur k.word.toList rest k := takes_keywordOf k hrest
  refine takes_atom ?_
  cases k with
  | true => exact takes_orElse_left htakes
  | false => exact takes_orElse_right (hskip rfl) (takes_orElse_left htakes)
  | nil => exact takes_orElse_right (hskip rfl) (takes_orElse_right (hskip rfl) (takes_orElse_left htakes))
  | null =>
    exact takes_orElse_right (hskip rfl) (takes_orElse_right (hskip rfl) (takes_orElse_right (hskip rfl)
      (takes_orElse_left htakes)))
  | blank =>
    exact takes_orElse_right (hskip rfl) (takes_orElse_right (hskip rfl) (takes_orElse_right (hskip rfl)
      (takes_orElse_right (hskip rfl) (takes_orElse_left htakes))))
  | empty =>
    exact takes_orElse_right (hskip rfl) (takes_orElse_right (hskip rfl) (takes_orElse_right (hskip rfl)
      (takes_orElse_right (hskip rfl) (takes_orElse_right (hskip rfl) htakes))))

end Grammar

end LiquidTemplate
