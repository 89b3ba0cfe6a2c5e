import LiquidTemplate.Print.Inline
import LiquidTemplate.Proofs.Grammar.Fragments

/-!
# Escaped quotation marks

Three names stand for quotation marks in the value of an attribute (`Text.escapes`), and `Text.decodeQuotes` reads them.
A value between marks of one kind is printed with the other kind unescaped (`Text.unescape`). The names start with a
sign that is found nowhere else in them, and they hold no mark, so what is put in place of one neither makes nor breaks
another one (`prefix_unescape_iff`). A text goes name by name and character by character (`escape_induction`).
-/

namespace LiquidTemplate.Text

def escapes : List (List Char × Char) :=
  [("&quot;".toList, '"'), ("&#x22;".toList, '"'), ("&#x27;".toList, '\'')]

/-- What a text says once the names of quotation marks are read. -/
def decodeQuotes : List Char → List Char
  | '&' :: 'q' :: 'u' :: 'o' :: 't' :: ';' :: cs => '"' :: decodeQuotes cs
  | '&' :: '#' :: 'x' :: '2' :: '2' :: ';' :: cs => '"' :: decodeQuotes cs
  | '&' :: '#' :: 'x' :: '2' :: '7' :: ';' :: cs => '\'' :: decodeQuotes cs
  | c :: cs => c :: decodeQuotes cs
  | [] => []

/-- No name starts here. -/
def NotEscaped (cs : List Char) : Prop :=
  ∀ e ∈ escapes, ¬ e.1 <+: cs

/-- Write the marks of the other kind as they are. -/
def unescape (q : Quote) (cs : List Char) : List Char :=
  replaceAllChars (unescapes q) 0 cs

variable {q : Quote} {c : Char} {cs u : List Char}

/-! ## Names -/

theorem exists_of_mem_escapes {e : List Char × Char} (he : e ∈ escapes) :
    ∃ w, e.1 = '&' :: w ∧ (∀ x ∈ w, x ≠ '&' ∧ x ≠ '"' ∧ x ≠ '\'' ∧ x ≠ '\x7b') ∧ (e.2 = '"' ∨ e.2 = '\'') := by
  refine ⟨e.1.tail, ?_⟩
  simp only [escapes, List.mem_cons, List.not_mem_nil, or_false] at he
  rcases he with rfl | rfl | rfl <;> simp

theorem notEscaped_cons (h : c ≠ '&') : NotEscaped (c :: cs) := by
  rintro e he ⟨rest, hrest⟩
  obtain ⟨w, hw, -⟩ := exists_of_mem_escapes he
  rw [hw] at hrest
  exact h (List.cons.inj hrest).1.symm

/-- **A text goes name by name and character by character.** -/
theorem escape_induction {P : List Char → Prop} (nil : P [])
    (escape : ∀ e ∈ escapes, ∀ cs, P cs → P (e.1 ++ cs))
    (char : ∀ c cs, NotEscaped (c :: cs) → P cs → P (c :: cs)) (cs : List Char) : P cs := by
  induction hn : cs.length using Nat.strongRecOn generalizing cs with
  | ind n ih =>
    subst hn
    cases cs with
    | nil => exact nil
    | cons c cs =>
      by_cases hescaped : ∃ e ∈ escapes, e.1 <+: c :: cs
      · obtain ⟨e, he, rest, hrest⟩ := hescaped
        obtain ⟨w, hw, -⟩ := exists_of_mem_escapes he
        have hlength : rest.length < (c :: cs).length := by
          rw [← hrest, hw, List.length_append, List.length_cons]
          omega
        rw [← hrest]
        exact escape e he rest (ih _ hlength rest rfl)
      · exact char c cs (fun e he hstarts => hescaped ⟨e, he, hstarts⟩) (ih _ (by simp) cs rfl)

/-! ## Decoding -/

theorem decodeQuotes_escape {e : List Char × Char} (he : e ∈ escapes) (cs : List Char) :
    decodeQuotes (e.1 ++ cs) = e.2 :: decodeQuotes cs := by
  simp only [escapes, List.mem_cons, List.not_mem_nil, or_false] at he
  rcases he with rfl | rfl | rfl <;> rfl

theorem decodeQuotes_cons (h : NotEscaped (c :: cs)) : decodeQuotes (c :: cs) = c :: decodeQuotes cs := by
  rw [decodeQuotes.eq_def]
  split
  next rest heq => exact absurd ⟨rest, heq.symm⟩ (h ("&quot;".toList, '"') (by simp [escapes]))
  next rest heq => exact absurd ⟨rest, heq.symm⟩ (h ("&#x22;".toList, '"') (by simp [escapes]))
  next rest heq => exact absurd ⟨rest, heq.symm⟩ (h ("&#x27;".toList, '\'') (by simp [escapes]))
  next heq =>
    obtain ⟨rfl, rfl⟩ := List.cons.inj heq
    rfl
  next heq => cases heq

/-! ## Replacing -/

theorem replaceAllChars_cons {table : List (String × String)} (h : ∀ entry ∈ table, ¬ entry.1.toList <+: c :: cs) :
    replaceAllChars table 0 (c :: cs) = c :: replaceAllChars table 0 cs := by
  have hnone : table.find? (fun entry => (stripStart? entry.1.toList (c :: cs)).isSome) = none := by
    refine List.find?_eq_none.2 fun entry hentry hopens => h entry hentry ?_
    exact opensWith_iff.1 hopens
  rw [replaceAllChars, hnone]

theorem mem_escapes_of_mem_unescapes {entry : String × String} (h : entry ∈ unescapes q) :
    ∃ x, entry.2.toList = [x] ∧ (entry.1.toList, x) ∈ escapes ∧ x ≠ q.char := by
  cases q with
  | single =>
    simp only [unescapes, List.mem_cons, List.not_mem_nil, or_false] at h
    rcases h with rfl | rfl <;> exact ⟨'"', rfl, by simp [escapes], by decide⟩
  | double =>
    simp only [unescapes, List.mem_cons, List.not_mem_nil, or_false] at h
    obtain rfl := h
    exact ⟨'\'', rfl, by simp [escapes], by decide⟩

theorem unescape_cons (h : NotEscaped (c :: cs)) : unescape q (c :: cs) = c :: unescape q cs := by
  refine replaceAllChars_cons fun entry hentry => ?_
  obtain ⟨x, -, hescape, -⟩ := mem_escapes_of_mem_unescapes hentry
  exact h _ hescape

/-- The name of a mark of the other kind becomes that mark, and the other names stay. -/
theorem unescape_escape {e : List Char × Char} (he : e ∈ escapes) (cs : List Char) :
    unescape q (e.1 ++ cs) = (if e.2 = q.char then e.1 else [e.2]) ++ unescape q cs := by
  simp only [escapes, List.mem_cons, List.not_mem_nil, or_false] at he
  cases q <;> rcases he with rfl | rfl | rfl <;> rfl

/-- **Names are neither made nor broken**: a text without signs and marks starts what is written exactly if it starts
what was there before. -/
theorem prefix_unescape_iff (hu : ∀ x ∈ u, x ≠ '&' ∧ x ≠ '"' ∧ x ≠ '\'') : u <+: unescape q cs ↔ u <+: cs := by
  induction u generalizing cs with
  | nil => simp
  | cons x u ih =>
    obtain ⟨⟨hsign, hdouble, hsingle⟩, hu⟩ := List.forall_mem_cons.1 hu
    induction cs using escape_induction with
    | nil => rfl
    | escape e he cs _ =>
      obtain ⟨w, hw, -, hmark⟩ := exists_of_mem_escapes he
      rw [unescape_escape he, hw]
      split
      · simp [List.cons_prefix_cons, hsign]
      · rcases hmark with hmark | hmark <;> simp [List.cons_prefix_cons, hsign, hmark, hdouble, hsingle]
    | char c cs hescaped _ => rw [unescape_cons hescaped, List.cons_prefix_cons, List.cons_prefix_cons, ih hu]

theorem notEscaped_unescape (h : NotEscaped (c :: cs)) : NotEscaped (c :: unescape q cs) := by
  intro e he hstarts
  obtain ⟨w, hw, hchars, -⟩ := exists_of_mem_escapes he
  refine h e he ?_
  rw [hw, List.cons_prefix_cons] at hstarts ⊢
  refine ⟨hstarts.1, (prefix_unescape_iff fun x hx => ?_).1 hstarts.2⟩
  exact ⟨(hchars x hx).1, (hchars x hx).2.1, (hchars x hx).2.2.1⟩

theorem ne_sign_of_mem_escapes {e : List Char × Char} (he : e ∈ escapes) : e.2 ≠ '&' := by
  obtain ⟨-, -, -, hmark | hmark⟩ := exists_of_mem_escapes he <;> rw [hmark] <;> decide

/-- **Writing marks as they are does not change what a text says.** -/
theorem decodeQuotes_unescape (q : Quote) (cs : List Char) : decodeQuotes (unescape q cs) = decodeQuotes cs := by
  induction cs using escape_induction with
  | nil => rfl
  | escape e he cs ih =>
    rw [unescape_escape he, decodeQuotes_escape he, ← ih]
    split
    · exact decodeQuotes_escape he _
    · exact decodeQuotes_cons (notEscaped_cons (ne_sign_of_mem_escapes he))
  | char c cs hescaped ih =>
    rw [unescape_cons hescaped, decodeQuotes_cons (notEscaped_unescape hescaped), decodeQuotes_cons hescaped, ih]

theorem unescape_unescape (q : Quote) (cs : List Char) : unescape q (unescape q cs) = unescape q cs := by
  induction cs using escape_induction with
  | nil => rfl
  | escape e he cs ih =>
    rw [unescape_escape he]
    split
    next hmark => rw [unescape_escape he, if_pos hmark, ih]
    next => rw [List.singleton_append, unescape_cons (notEscaped_cons (ne_sign_of_mem_escapes he)), ih]
  | char c cs hescaped ih => rw [unescape_cons hescaped, unescape_cons (notEscaped_unescape hescaped), ih]

/-! ## Marks -/

theorem notMem_unescape (h : q.char ∉ cs) : q.char ∉ unescape q cs := by
  induction cs using escape_induction with
  | nil => exact h
  | escape e he cs ih =>
    rw [List.mem_append, not_or] at h
    rw [unescape_escape he, List.mem_append, not_or]
    refine ⟨?_, ih h.2⟩
    split
    · exact h.1
    next hmark => exact fun hmem => hmark (List.mem_singleton.1 hmem).symm
  | char c cs hescaped ih =>
    rw [List.mem_cons, not_or] at h
    rw [unescape_cons hescaped, List.mem_cons, not_or]
    exact ⟨h.1, ih h.2⟩

theorem mem_unescape {x : Char} (hx : x = '"' ∨ x = '\'') (h : x ∈ cs) : x ∈ unescape q cs := by
  induction cs using escape_induction with
  | nil => exact h
  | escape e he cs ih =>
    obtain ⟨w, hw, hchars, -⟩ := exists_of_mem_escapes he
    have hname : x ∉ e.1 := by
      rw [hw, List.mem_cons, not_or]
      refine ⟨?_, fun hmem => ?_⟩
      · rcases hx with rfl | rfl <;> decide
      · rcases hx with rfl | rfl
        · exact (hchars _ hmem).2.1 rfl
        · exact (hchars _ hmem).2.2.1 rfl
    rw [unescape_escape he]
    exact List.mem_append_right _ (ih ((List.mem_append.1 h).resolve_left hname))
  | char c cs hescaped ih =>
    rw [unescape_cons hescaped]
    rcases List.mem_cons.1 h with rfl | h
    · exact List.mem_cons_self
    · exact List.mem_cons_of_mem _ (ih h)

/-! ## Liquid -/

theorem opensLiquid_eq_false_of_ne (h : c ≠ '\x7b') : opensLiquid (c :: cs) = false := by
  rw [opensLiquid, Bool.or_eq_false_iff, ← Bool.not_eq_true, ← Bool.not_eq_true, opensWith_iff, opensWith_iff]
  constructor
  · exact fun hstarts => h (List.cons_prefix_cons.1 hstarts).1.symm
  · exact fun hstarts => h (List.cons_prefix_cons.1 hstarts).1.symm

theorem isPlain_of_ne {excluded : Char → Bool} {rest w : List Char}
    (h : ∀ x ∈ w, excluded x = false ∧ x ≠ '\x7b') : IsPlain excluded rest w := by
  induction w with
  | nil => trivial
  | cons x w ih =>
    obtain ⟨⟨hallowed, hx⟩, hw⟩ := List.forall_mem_cons.1 h
    exact ⟨hallowed, opensLiquid_eq_false_of_ne hx, ih hw⟩

/-- What starts Liquid after writing marks as they are did so before. -/
theorem opensLiquid_unescape (h : opensLiquid (c :: cs) = false) : opensLiquid (c :: unescape q cs) = false := by
  rw [opensLiquid, Bool.or_eq_false_iff, ← Bool.not_eq_true, ← Bool.not_eq_true, opensWith_iff, opensWith_iff] at h ⊢
  have hbegins {x y : Char} (hy : y ≠ '&' ∧ y ≠ '"' ∧ y ≠ '\'') (hnot : ¬ [x, y] <+: c :: cs) :
      ¬ [x, y] <+: c :: unescape q cs := by
    intro hstarts
    rw [List.cons_prefix_cons] at hnot hstarts
    refine hnot ⟨hstarts.1, (prefix_unescape_iff fun z hz => ?_).1 hstarts.2⟩
    rw [List.mem_singleton.1 hz]
    exact hy
  exact ⟨hbegins (x := '\x7b') (y := '\x7b') (by decide) h.1, hbegins (x := '\x7b') (y := '%') (by decide) h.2⟩

/-- **A text without Liquid still has none**, and a mark that it does not have is not put into it. -/
theorem IsPlain.unescape {excluded : Char → Bool} (h : IsPlain excluded [] cs) (hmark : q.char ∉ cs) :
    IsPlain (· == q.char) [] (unescape q cs) := by
  induction cs using escape_induction with
  | nil => trivial
  | escape e he cs ih =>
    rw [List.mem_append, not_or] at hmark
    have hrest := ih (isPlain_append_iff.1 h).2 hmark.2
    obtain ⟨w, hw, hchars, hquote⟩ := exists_of_mem_escapes he
    rw [unescape_escape he]
    refine isPlain_append_iff.2 ⟨isPlain_of_ne fun x hx => ?_, hrest⟩
    split at hx
    · refine ⟨beq_eq_false_iff_ne.2 fun hsame => hmark.1 (hsame ▸ hx), ?_⟩
      rw [hw] at hx
      rcases List.mem_cons.1 hx with rfl | hx
      · decide
      · exact (hchars x hx).2.2.2
    next hother =>
      obtain rfl := List.mem_singleton.1 hx
      refine ⟨beq_eq_false_iff_ne.2 hother, ?_⟩
      rcases hquote with hquote | hquote <;> rw [hquote] <;> decide
  | char c cs hescaped ih =>
    rw [unescape_cons hescaped]
    rw [List.mem_cons, not_or] at hmark
    refine ⟨beq_eq_false_iff_ne.2 (Ne.symm hmark.1), ?_, ih h.2.2 hmark.2⟩
    have hclosed := h.2.1
    rw [List.append_nil] at hclosed ⊢
    exact opensLiquid_unescape hclosed

end LiquidTemplate.Text
