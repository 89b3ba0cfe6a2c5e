import LiquidTemplate.Proofs.Peg.Read

/-!
# What a match notes

A rule is noted at the offset where it is tried, and the notes of one offset give way only to those of a later one. So a
statement about notes that `Attempts.note` keeps at every cursor of a text is kept by every expression
(`Peg.parse_keepsNotes`), and the notes of a run satisfy it if empty notes do (`Peg.run_keepsNotes`). Outside of atomic
rules a noted rule leaves the notes at its own offset or further on, and never without a name (`Attempts.note_cases`).
-/

namespace LiquidTemplate

namespace Attempts

variable {R : Type} {before after : Attempts R} {mode : Mode} {rule : R} {offset : Nat}

/-- Some rule failed where it was expected, or matched where it was not. -/
def NotesSome (a : Attempts R) : Prop :=
  ∃ rule, rule ∈ a.expected ∨ rule ∈ a.unexpected

theorem notesSome_of_count (h : 0 < after.count offset) : after.offset = offset ∧ after.NotesSome := by
  rw [count] at h
  split at h
  next hoffset =>
    refine ⟨hoffset, ?_⟩
    cases hexpected : after.expected with
    | cons r rs => exact ⟨r, .inl (by simp [hexpected])⟩
    | nil =>
      cases hunexpected : after.unexpected with
      | cons r rs => exact ⟨r, .inr (by simp [hunexpected])⟩
      | nil => simp [hexpected, hunexpected] at h
  · exact absurd h (Nat.lt_irrefl 0)

theorem notesSome_add (a : Attempts R) (sign : Lookahead) (rule : R) : (a.add sign rule).NotesSome := by
  cases sign with
  | negative => exact ⟨rule, .inr (by simp [add])⟩
  | off | positive => exact ⟨rule, .inl (by simp [add])⟩

theorem offset_add (a : Attempts R) (sign : Lookahead) (rule : R) : (a.add sign rule).offset = a.offset := by
  cases sign <;> rfl

theorem offset_rewind (before after : Attempts R) (offset : Nat) : (rewind before after offset).offset = offset := by
  unfold rewind
  split
  · split <;> rfl
  · rfl

/-- The notes after a rule: those of its body, which are further on or say more than the rule would unless the rule is
inside an atomic one, or new ones at the offset of the rule. -/
theorem note_cases (before after : Attempts R) (mode : Mode) (rule : R) (offset : Nat) :
    (before.note after mode rule offset = after ∧
      (mode.atomic = false → offset < after.offset ∨ after.offset = offset ∧ after.NotesSome)) ∨
    (after.offset ≤ offset ∧ (before.note after mode rule offset).offset = offset ∧
      (before.note after mode rule offset).NotesSome) := by
  unfold note
  split
  next hatomic => exact .inl ⟨rfl, fun h => absurd (hatomic.symm.trans h) nofun⟩
  split
  next hcount => exact .inl ⟨rfl, fun _ => .inr (notesSome_of_count (by omega))⟩
  split
  next hlt => exact .inl ⟨rfl, fun _ => .inl hlt⟩
  next hle => exact .inr ⟨Nat.le_of_not_lt hle, (offset_add ..).trans (offset_rewind ..), notesSome_add ..⟩

theorem offset_le_note (before after : Attempts R) (mode : Mode) (rule : R) (offset : Nat) :
    after.offset ≤ (before.note after mode rule offset).offset := by
  rcases note_cases before after mode rule offset with ⟨heq, -⟩ | ⟨hle, hoffset, -⟩
  · exact Nat.le_of_eq (congrArg Attempts.offset heq.symm)
  · rwa [hoffset]

theorem le_offset_note (before after : Attempts R) (rule : R) (offset : Nat) (hatomic : mode.atomic = false) :
    offset ≤ (before.note after mode rule offset).offset := by
  rcases note_cases before after mode rule offset with ⟨heq, hafter⟩ | ⟨-, hoffset, -⟩
  · rw [heq]
    rcases hafter hatomic with hlt | ⟨hoffset, -⟩ <;> omega
  · exact Nat.le_of_eq hoffset.symm

/-- Notes at a place where `P` holds. Only at the start of a text may they be empty. -/
structure At (P : Nat → Prop) (a : Attempts R) : Prop where
  place : P a.offset
  notesSome : 0 < a.offset → a.NotesSome

theorem At.empty {P : Nat → Prop} (h : P 0) : At P ({} : Attempts R) :=
  ⟨h, fun hlt => absurd hlt (Nat.lt_irrefl 0)⟩

theorem At.note {P : Nat → Prop} (hafter : after.At P) (hoffset : P offset) :
    (before.note after mode rule offset).At P := by
  rcases note_cases before after mode rule offset with ⟨heq, -⟩ | ⟨-, heq, hsome⟩
  · rwa [heq]
  · exact ⟨by rwa [heq], fun _ => hsome⟩

/-- A rule that is noted outside of atomic ones leaves notes that are not empty. -/
theorem At.notesSome_note {P : Nat → Prop} (hafter : after.At P) (hatomic : mode.atomic = false) :
    (before.note after mode rule offset).NotesSome := by
  rcases note_cases before after mode rule offset with ⟨heq, h⟩ | ⟨-, -, hsome⟩
  · rw [heq]
    rcases h hatomic with hlt | ⟨-, hsome⟩
    · exact hafter.notesSome (by omega)
    · exact hsome
  · exact hsome

end Attempts

namespace Peg

variable {R ρ α β : Type}

/-! ## Statements about notes -/

/-- A step from a cursor where `K` holds keeps the statement `I` about notes. -/
def KeepsNotes (K : Cursor → Prop) (I : Attempts R → Prop) (step : Cursor → Attempts R → Reply R α) : Prop :=
  ∀ c a, K c → I a → I (step c a).2

section

variable {K : Cursor → Prop} {I : Attempts R → Prop} {recur : Mode → Cursor → Attempts R → Reply R ρ}
  {reader : Cursor → Option (ρ × Cursor)}

theorem parseMany_keepsNotes {step : Cursor → Attempts R → Reply R α} (hstep : KeepsNotes K I step)
    (hnext : ∀ c a x d b, K c → step c a = (some (x, d), b) → K d) (fuel : Nat) (c : Cursor) (a : Attempts R) (hc : K c)
    (ha : I a) : I (parseMany step fuel c a).2 := by
  induction fuel generalizing c a with
  | zero => exact ha
  | succ fuel ih =>
    have hb := hstep c a hc ha
    rw [parseMany]
    split
    next b hnone => rwa [hnone] at hb
    next x d b hsome =>
      rw [hsome] at hb
      exact ih d b (hnext c a x d b hc hsome) hb

theorem stepsTo_of_parse (hrecur : ∀ m c a, (recur m c a).1 = reader c) (hforward : Forward reader) {p : Peg R ρ α}
    {m : Mode} {c d : Cursor} {a b : Attempts R} {x : α} (h : p.parse recur m c a = (some (x, d), b)) :
    c.StepsTo d := by
  have hread := fst_parse hrecur p m c a
  rw [h] at hread
  exact reads_stepsTo p reader hforward c x d hread.symm

/-- **What noting a rule keeps, every expression keeps.** -/
theorem parse_keepsNotes (hK : ∀ c d, K c → c.StepsTo d → K d)
    (hnote : ∀ before after mode rule c, K c → I before → I after → I (before.note after mode rule c.offset))
    (hrecur : ∀ m c a, (recur m c a).1 = reader c) (hforward : Forward reader)
    (hkeeps : ∀ m, KeepsNotes K I (recur m)) (p : Peg R ρ α) (m : Mode) : KeepsNotes K I (p.parse recur m) := by
  -- the notes of a part are kept by the rest, from the cursor where the part ends
  have hnext {γ : Type} {p : Peg R ρ γ} {m : Mode} {c d : Cursor} {a b : Attempts R} {x : γ} (hc : K c)
      (h : p.parse recur m c a = (some (x, d), b)) : K d := hK c d hc (stepsTo_of_parse hrecur hforward h)
  induction p generalizing m with
  | pure | text | textNoCase | done => exact fun c a _ ha => ha
  | char q =>
    intro c a _ ha
    simp only [parse]
    split
    · exact ha
    · split <;> exact ha
  | ap f p ihf ihp =>
    intro c a hc ha
    have hf := ihf m c a hc ha
    simp only [parse]
    split
    next b hnone => rwa [hnone] at hf
    next g d b hsome =>
      rw [hsome] at hf
      have hp := ihp m d b (hnext hc hsome) hf
      split
      next hnone' => rwa [hnone'] at hp
      next hsome' => rwa [hsome'] at hp
  | orElse p q ihp ihq =>
    intro c a hc ha
    have hp := ihp m c a hc ha
    simp only [parse]
    split
    next b hnone =>
      rw [hnone] at hp
      exact ihq m c b hc hp
    next hsome => rwa [hsome] at hp
  | many p ih => exact fun c a => parseMany_keepsNotes (ih m) (fun c a x d b hc h => hnext hc h) _ c a
  | ahead p ih | notAhead p ih | slice p ih | push p ih => exact fun c a hc ha => ih _ c a hc ha
  | peek | pop =>
    intro c a _ ha
    simp only [parse]
    split <;> exact ha
  | rule name atomic p ih =>
    intro c a hc ha
    have hp := ih { m with atomic := m.atomic || atomic } c a hc ha
    simp only [parse]
    split
    · exact hnote a _ m name c hc ha hp
    · exact hp
  | recur => exact hkeeps m

theorem parseNested_keepsNotes (hK : ∀ c d, K c → c.StepsTo d → K d)
    (hnote : ∀ before after mode rule c, K c → I before → I after → I (before.note after mode rule c.offset))
    (body : Peg R ρ ρ) (depth : Nat) (m : Mode) : KeepsNotes K I (parseNested body depth m) := by
  induction depth generalizing m with
  | zero => exact fun c a _ ha => ha
  | succ depth ih =>
    exact parse_keepsNotes hK hnote (fst_parseNested body depth) (forward_readNested body depth) ih body m

end

/-! ## Rules that fail -/

section

variable {recur : Mode → Cursor → Attempts R → Reply R ρ} {m : Mode} {c : Cursor} {a b : Attempts R}

theorem parse_seq_eq_none {f : Peg R ρ (α → β)} {p : Peg R ρ α} (h : (f <*> p).parse recur m c a = (none, b)) :
    f.parse recur m c a = (none, b) ∨
      ∃ g d a', f.parse recur m c a = (some (g, d), a') ∧ p.parse recur m d a' = (none, b) := by
  change (f.ap p).parse recur m c a = (none, b) at h
  simp only [parse] at h
  split at h
  next hnone =>
    cases h
    exact .inl hnone
  next g d a' hsome =>
    split at h
    next hnone =>
      cases h
      exact .inr ⟨g, d, a', hsome, hnone⟩
    · cases h

theorem parse_map {f : α → β} {p : Peg R ρ α} :
    (f <$> p).parse recur m c a =
      ((p.parse recur m c a).1.map fun r => (f r.1, r.2), (p.parse recur m c a).2) := by
  change ((Peg.pure f).ap p).parse recur m c a = _
  simp only [parse]
  split <;> simp_all

theorem parse_map_eq_none {f : α → β} {p : Peg R ρ α} (h : (f <$> p).parse recur m c a = (none, b)) :
    p.parse recur m c a = (none, b) := by
  rw [parse_map] at h
  obtain ⟨hnone, hb⟩ := Prod.mk.inj h
  exact Prod.ext (Option.map_eq_none_iff.1 hnone) hb

theorem parse_map_eq_some {f : α → β} {p : Peg R ρ α} {y : β} {d : Cursor}
    (h : (f <$> p).parse recur m c a = (some (y, d), b)) : ∃ x, p.parse recur m c a = (some (x, d), b) := by
  rw [parse_map] at h
  obtain ⟨hsome, hb⟩ := Prod.mk.inj h
  obtain ⟨⟨x, e⟩, hx, heq⟩ := Option.map_eq_some_iff.1 hsome
  cases heq
  exact ⟨x, Prod.ext hx hb⟩

theorem parse_seqLeft_eq_none {p : Peg R ρ α} {q : Peg R ρ β} (h : (p <* q).parse recur m c a = (none, b)) :
    p.parse recur m c a = (none, b) ∨
      ∃ x d a', p.parse recur m c a = (some (x, d), a') ∧ q.parse recur m d a' = (none, b) := by
  change (Function.const β <$> p <*> q).parse recur m c a = (none, b) at h
  rcases parse_seq_eq_none h with hp | ⟨g, d, a', hp, hq⟩
  · exact .inl (parse_map_eq_none hp)
  · obtain ⟨x, hx⟩ := parse_map_eq_some hp
    exact .inr ⟨x, d, a', hx, hq⟩

theorem parse_named_eq_none {name : R} {p : Peg R ρ α} (hlookahead : m.lookahead = .off)
    (h : (named name p).parse recur m c a = (none, b)) : ∃ b',
      p.parse recur m c a = (none, b') ∧ b = a.note b' m name c.offset := by
  obtain ⟨lookahead, atomic⟩ := m
  cases hlookahead
  simp only [named, parse, Bool.or_false] at h
  split at h
  next hnoted =>
    obtain ⟨hnone, hb⟩ := Prod.mk.inj h
    exact ⟨_, Prod.ext hnone rfl, hb.symm⟩
  next hnoted =>
    rw [h] at hnoted
    exact absurd rfl hnoted

end

end Peg

end LiquidTemplate
