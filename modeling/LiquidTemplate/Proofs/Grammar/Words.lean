import LiquidTemplate.Grammar.Template
import LiquidTemplate.Proofs.Peg.Takes

/-!
# Blanks and words

Which texts the smallest rules of the grammar take and refuse. A word is matched whole or not at all: after a run of
word characters that is as long as it can be, only the rule for exactly that word matches (`takes_word`,
`refuses_word`).
-/

namespace LiquidTemplate.Grammar

open Peg

variable {recur : Cursor → Option (Expression × Cursor)} {w rest : List Char}

/-! ## Blanks -/

theorem takes_blanks (hw : w.all Text.isBlank = true) (hrest : rest.head?.any Text.isBlank = false) :
    blanks.Takes recur w rest () :=
  takes_giving (takesMany_char hw hrest).takes

theorem takes_blanks1 (hne : w ≠ []) (hw : w.all Text.isBlank = true) (hrest : rest.head?.any Text.isBlank = false) :
    blanks1.Takes recur w rest () := by
  obtain ⟨a, v, rfl⟩ := List.exists_cons_of_ne_nil hne
  rw [List.all_cons, Bool.and_eq_true] at hw
  exact takes_giving (takes_many1 (u := [a]) (takes_char hw.1) (takesMany_char hw.2 hrest))

theorem refuses_blanks1 (hrest : rest.head?.any Text.isBlank = false) : blanks1.Refuses recur rest :=
  refuses_giving (refuses_many1 (refuses_char hrest))

/-! ## Words -/

theorem takes_word {s : String} (hrest : rest.head?.any Text.isWordChar = false) :
    (word s).Takes recur s.toList rest s := by
  have h := takes_seqLeft (v := []) (takes_giving (y := s) (takes_text (R := Rule) (r := recur) (s := s)))
    (takes_notAhead (refuses_char hrest))
  rwa [List.append_nil] at h

/-- A run of word characters is not a word that it differs from. -/
theorem refuses_word {s : String} (hs : s.toList.all Text.isWordChar = true) (hw : w.all Text.isWordChar = true)
    (hrest : rest.head?.any Text.isWordChar = false) (hne : s.toList ≠ w) : (word s).Refuses recur (w ++ rest) := by
  cases hstrip : Text.stripStart? s.toList (w ++ rest) with
  | none => exact refuses_seqLeft_left (refuses_giving (refuses_text hstrip))
  | some r =>
    have hsplit : w ++ rest = s.toList ++ r := Text.stripStart?_eq_some_iff.1 hstrip
    rcases List.append_eq_append_iff.1 hsplit with ⟨v, hv, hr⟩ | ⟨v, hv, hr⟩
    · cases v with
      | nil => exact absurd (by simpa using hv) hne
      | cons a v =>
        -- the word goes on after the run, so what follows the run starts with one of its characters
        have ha : Text.isWordChar a = true := by
          rw [List.all_eq_true] at hs
          exact hs a (by simp [hv])
        simp [hr, ha] at hrest
    · cases v with
      | nil => exact absurd (by simpa using hv.symm) hne
      | cons a v =>
        -- the run goes on after the word
        have ha : Text.isWordChar a = true := by
          rw [List.all_eq_true] at hw
          exact hw a (by simp [hv])
        have hnext : (Peg.char Text.isWordChar : Grammar Char).Takes recur [a] (v ++ rest) a := takes_char ha
        rw [hv, List.append_assoc]
        exact refuses_seqLeft_right (takes_giving takes_text) (s := [a] ++ (v ++ rest)) (refuses_notAhead hnext)

/-! ## Rules that start with a word -/

/-- A text starts with the word `w`, which does not go on after it. -/
structure OpensWord (w s : List Char) : Prop where
  all : w.all Text.isWordChar = true
  ends : ∃ t, s = w ++ t ∧ t.head?.any Text.isWordChar = false

theorem opensWord_space (hw : w.all Text.isWordChar = true) (text : List Char) :
    OpensWord w (w ++ " ".toList ++ text ++ rest) :=
  ⟨hw, _, by rw [List.append_assoc, List.append_assoc], rfl⟩

/-- A rule that refuses every word but the given ones. -/
def StartsWith {α : Type} (p : Grammar α) (words : List String) : Prop :=
  ∀ recur w s, OpensWord w s → (∀ t ∈ words, t.toList ≠ w) → p.Refuses recur s

section

variable {α β : Type}

theorem startsWith_word {s : String} (hs : s.toList.all Text.isWordChar = true) : StartsWith (word s) [s] := by
  intro recur w _ hopens hne
  obtain ⟨t, rfl, ht⟩ := hopens.ends
  exact refuses_word hs hopens.all ht (hne s (by simp))

theorem StartsWith.orElse {p q : Grammar α} {ss ts : List String} (hp : StartsWith p ss) (hq : StartsWith q ts) :
    StartsWith (p <|> q) (ss ++ ts) :=
  fun _ _ _ hopens hne => refuses_orElse (hp _ _ _ hopens fun s hs => hne s (List.mem_append_left _ hs))
    (hq _ _ _ hopens fun s hs => hne s (List.mem_append_right _ hs))

theorem StartsWith.map {p : Grammar α} {f : α → β} {ss : List String} (hp : StartsWith p ss) :
    StartsWith (f <$> p) ss :=
  fun _ _ _ hopens hne => refuses_map (hp _ _ _ hopens hne)

theorem StartsWith.seq {f : Grammar (α → β)} {p : Grammar α} {ss : List String} (hf : StartsWith f ss) :
    StartsWith (f <*> p) ss :=
  fun _ _ _ hopens hne => refuses_seq_left (hf _ _ _ hopens hne)

theorem StartsWith.seqLeft {p : Grammar α} {q : Grammar β} {ss : List String} (hp : StartsWith p ss) :
    StartsWith (p <* q) ss :=
  fun _ _ _ hopens hne => refuses_seqLeft_left (hp _ _ _ hopens hne)

theorem StartsWith.rule {name : Rule} {p : Grammar α} {ss : List String} (hp : StartsWith p ss) :
    StartsWith (named name p) ss :=
  fun _ _ _ hopens hne => refuses_named (hp _ _ _ hopens hne)

theorem StartsWith.atom {name : Rule} {p : Grammar α} {ss : List String} (hp : StartsWith p ss) :
    StartsWith (Peg.atom name p) ss :=
  fun _ _ _ hopens hne => refuses_atom (hp _ _ _ hopens hne)

/-- What `q` takes from a text that starts with a word other than the given ones, `p` takes too. -/
def Skips (p q : Grammar α) (words : List String) : Prop :=
  ∀ recur w (u v : List Char) x, OpensWord w (u ++ v) → (∀ s ∈ words, s.toList ≠ w) → q.Takes recur u v x →
    p.Takes recur u v x

theorem Skips.refl (p : Grammar α) : Skips p p [] :=
  fun _ _ _ _ _ _ _ h => h

theorem Skips.next {p q q' : Grammar α} {ss ts : List String} (h : Skips p (q <|> q') ss) (hq : StartsWith q ts) :
    Skips p q' (ss ++ ts) := by
  intro recur w u v x hopens hne htakes
  refine h recur w u v x hopens (fun s hs => hne s (List.mem_append_left _ hs)) (takes_orElse_right ?_ htakes)
  exact hq _ _ _ hopens fun s hs => hne s (List.mem_append_right _ hs)

theorem Skips.takes {p q q' : Grammar α} {ss : List String} (h : Skips p (q <|> q') ss) {u v : List Char} {x : α}
    (hopens : OpensWord w (u ++ v)) (hne : ∀ s ∈ ss, s.toList ≠ w) (hq : q.Takes recur u v x) : p.Takes recur u v x :=
  h recur w u v x hopens hne (takes_orElse_left hq)

end

end LiquidTemplate.Grammar
