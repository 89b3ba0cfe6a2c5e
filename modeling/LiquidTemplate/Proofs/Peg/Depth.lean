import LiquidTemplate.Proofs.Peg.Read

/-!
# Nesting without a bound

A grammar that consumes a character before it recurs never reaches the bound on the depth of nesting. Whether it does
so can be read off its expression (`Peg.advances`, `Peg.guarded`). For such a grammar there is a reading of the
recursive nonterminal without a bound, `Peg.nested`, that solves its own equation (`nested_eq`), and matching with it
is what `Peg.run` does (`fst_run_eq_nested`).
-/

namespace LiquidTemplate.Peg

variable {R ρ α β : Type}

/-! ## Checks on expressions -/

/-- Every match covers at least one character. -/
def advances : {α : Type} → Peg R ρ α → Bool
  | _, .char _ => true
  | _, .text s => !s.toList.isEmpty
  | _, .ap f p => f.advances || p.advances
  | _, .orElse p q => p.advances && q.advances
  | _, .slice p | _, .push p | _, .rule _ _ p => p.advances
  | _, .pure _ | _, .textNoCase _ | _, .done | _, .many _ | _, .ahead _ | _, .notAhead _ | _, .peek | _, .pop
  | _, .recur => false

/-- The recursive nonterminal is tried only after a character. -/
def guarded : {α : Type} → Peg R ρ α → Bool
  | _, .ap f p => f.guarded && (f.advances || p.guarded)
  | _, .orElse p q => p.guarded && q.guarded
  | _, .many p | _, .ahead p | _, .notAhead p | _, .slice p | _, .push p | _, .rule _ _ p => p.guarded
  | _, .recur => false
  | _, .pure _ | _, .char _ | _, .text _ | _, .textNoCase _ | _, .done | _, .peek | _, .pop => true

theorem consumes_of_advances {p : Peg R ρ α} (h : p.advances = true) : p.Consumes := by
  induction p with
  | char => exact consumes_char
  | text s => exact consumes_text (by simpa [advances] using h)
  | ap f p ihf ihp =>
    rw [advances, Bool.or_eq_true] at h
    rcases h with h | h
    · exact consumes_ap_left (ihf h)
    · exact consumes_ap_right (ihp h)
  | orElse p q ihp ihq =>
    rw [advances, Bool.and_eq_true] at h
    exact reads_orElse (ihp h.1) (ihq h.2)
  | slice p ih => exact reads_slice (ih h)
  | push p ih => exact reads_push ((ih h).imp fun _ _ _ h _ => h)
  | rule name atomic p ih => exact ih h
  | pure | textNoCase | done | many | ahead | notAhead | peek | pop | recur => cases h

theorem read_nil {p : Peg R ρ α} (h : p.advances = true) {recur : Cursor → Option (ρ × Cursor)} (hrecur : Forward recur)
    {c : Cursor} (hc : c.rest = []) : p.read recur c = none := by
  cases hread : p.read recur c with
  | none => rfl
  | some x =>
    have hlt := consumes_of_advances h recur hrecur c x.1 x.2 hread
    have hlength := (reads_stepsTo p recur hrecur c x.1 x.2 hread).length_lt hlt
    simp [hc] at hlength

/-! ## Nonterminals that agree -/

/-- Two nonterminals agree where fewer than `n` characters are left. -/
def AgreeBelow (n : Nat) (r s : Cursor → Option (ρ × Cursor)) : Prop :=
  ∀ c, c.rest.length < n → r c = s c

theorem length_le_of_stepsTo {c d : Cursor} (h : c.StepsTo d) : d.rest.length ≤ c.rest.length := by
  obtain ⟨w, hw, -⟩ := h
  rw [hw, List.length_append]
  omega

theorem readMany_congr {step step' : Cursor → Option (α × Cursor)} {S : Cursor → Prop}
    (hstep : ∀ c, S c → step c = step' c) (hnext : ∀ c x d, S c → step c = some (x, d) → S d) (fuel : Nat) {c : Cursor}
    (hc : S c) : readMany step fuel c = readMany step' fuel c := by
  induction fuel generalizing c with
  | zero => rfl
  | succ fuel ih =>
    rw [readMany, readMany, ← hstep c hc]
    cases h : step c with
    | none => rfl
    | some x => simp only [ih (hnext c x.1 x.2 hc h)]

/-- A match depends on the nonterminal only where it may be tried. -/
theorem read_congr {r s : Cursor → Option (ρ × Cursor)} (hr : Forward r) {n : Nat}
    (h : AgreeBelow n r s) (p : Peg R ρ α)
    (c : Cursor) (hc : c.rest.length < n ∨ p.guarded = true ∧ c.rest.length ≤ n) : p.read r c = p.read s c := by
  induction p generalizing c with
  | pure | char | text | textNoCase | done | peek | pop => rfl
  | ap f p ihf ihp =>
    have hf : f.read r c = f.read s c := by
      refine ihf c (hc.imp_right fun ⟨hguarded, hle⟩ => ⟨?_, hle⟩)
      rw [guarded, Bool.and_eq_true] at hguarded
      exact hguarded.1
    change (f.read r c).bind _ = (f.read s c).bind _
    rw [← hf]
    cases hread : f.read r c with
    | none => rfl
    | some g =>
      have hsteps := reads_stepsTo f r hr c g.1 g.2 hread
      have hle := length_le_of_stepsTo hsteps
      have hp : p.read r g.2 = p.read s g.2 := by
        refine ihp g.2 ?_
        rcases hc with hc | ⟨hguarded, hc⟩
        · exact .inl (Nat.lt_of_le_of_lt hle hc)
        rw [guarded, Bool.and_eq_true, Bool.or_eq_true] at hguarded
        rcases hguarded.2 with hadvances | hguarded
        · have hlt := hsteps.length_lt (consumes_of_advances hadvances r hr c g.1 g.2 hread)
          exact .inl (Nat.lt_of_lt_of_le hlt hc)
        · exact .inr ⟨hguarded, Nat.le_trans hle hc⟩
      rw [Option.bind_some, Option.bind_some, hp]
  | orElse p q ihp ihq =>
    have hguarded (hguarded : (orElse p q).guarded = true) : p.guarded = true ∧ q.guarded = true := by
      rwa [guarded, Bool.and_eq_true] at hguarded
    change (p.read r c).or _ = (p.read s c).or _
    rw [ihp c (hc.imp_right fun h => ⟨(hguarded h.1).1, h.2⟩), ihq c (hc.imp_right fun h => ⟨(hguarded h.1).2, h.2⟩)]
  | many p ih =>
    have hstep : ∀ d, d.rest.length ≤ c.rest.length → p.read r d = p.read s d := by
      intro d hd
      refine ih d (hc.imp (Nat.lt_of_le_of_lt hd) fun h => ⟨h.1, Nat.le_trans hd h.2⟩)
    have hnext : ∀ d x e, d.rest.length ≤ c.rest.length → p.read r d = some (x, e) → e.rest.length ≤ c.rest.length :=
      fun d x e hd hread => Nat.le_trans (length_le_of_stepsTo (reads_stepsTo p r hr d x e hread)) hd
    rw [read_many, read_many, readMany_congr hstep hnext _ (Nat.le_refl _)]
  | ahead p ih | slice p ih | push p ih =>
    change (p.read r c).map _ = (p.read s c).map _
    rw [ih c hc]
  | notAhead p ih => rw [read_notAhead, read_notAhead, ih c hc]
  | rule name atomic p ih => exact ih c hc
  | recur => exact h c (hc.resolve_right fun h => nomatch h.1)

/-! ## Reading without a bound -/

/-- The recursive nonterminal `body`, nested as deep as the text allows. -/
def nested (body : Peg R ρ ρ) (c : Cursor) : Option (ρ × Cursor) :=
  readNested body (c.rest.length + 1) c

theorem forward_nested (body : Peg R ρ ρ) : Forward (nested body) :=
  fun c x d h => forward_readNested body _ c x d h

variable {body : Peg R ρ ρ} (hbody : body.guarded = true)

include hbody

/-- A bound above the number of characters is never reached. -/
theorem readNested_eq_nested (depth : Nat) : AgreeBelow depth (readNested body depth) (nested body) := by
  induction depth using Nat.strongRecOn with
  | ind depth ih =>
    intro c hc
    obtain ⟨n, rfl⟩ : ∃ n, depth = n + 1 := ⟨depth - 1, by omega⟩
    -- both sides read the body, with nonterminals that agree on what is shorter
    have hagree : AgreeBelow c.rest.length (readNested body n) (readNested body c.rest.length) := by
      intro d hd
      rw [ih n (by omega) d (by omega), ih c.rest.length (by omega) d hd]
    exact read_congr (forward_readNested body n) hagree body c (.inr ⟨hbody, Nat.le_refl _⟩)

theorem nested_eq (c : Cursor) : nested body c = body.read (nested body) c :=
  read_congr (forward_readNested body _) (readNested_eq_nested hbody _) body c (.inr ⟨hbody, Nat.le_refl _⟩)

/-- **A run reads without a bound on the depth of nesting.** -/
theorem fst_run_eq_nested (p : Peg R ρ α) (s : List Char) : (run body p s).1 = p.read (nested body) (.ofText s) := by
  rw [fst_run]
  exact read_congr (forward_readNested body _) (readNested_eq_nested hbody _) p _ (.inl (Nat.lt_succ_self _))

end LiquidTemplate.Peg
