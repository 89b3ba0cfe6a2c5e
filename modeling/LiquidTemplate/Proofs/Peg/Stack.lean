import LiquidTemplate.Proofs.Peg.Depth

/-!
# Reading without getting stuck

`Peg.read` lets an expression fail where it cannot go on: `peek` and `pop` at an empty stack, a repetition that was
cut short, and a nonterminal nested too deep. `Peg.read?` tells these places from failures to match: there it is
stuck, and its answer is `none`. Whether an expression finds what it needs on the stack can be read off it
(`Peg.stackAfter`), and an expression that does is never stuck (`run?_eq_run`).
-/

namespace LiquidTemplate.Peg

variable {R ρ α β : Type}

/-! ## Reading that can get stuck -/

/-- Match a step again and again until it fails. It is stuck where the step is, and where the step still matches
after `fuel` times. -/
def readMany? (step : Cursor → Option (Option (α × Cursor))) : Nat → Cursor → Option (List α × Cursor)
  | 0, _ => none
  | fuel + 1, c =>
    (step c).bind fun
      | none => some ([], c)
      | some (x, d) => (readMany? step fuel d).map fun r => (x :: r.1, r.2)

/-- Match an expression at a cursor, or get stuck at an empty stack. -/
def read? (recur : Cursor → Option (Option (ρ × Cursor))) :
    {α : Type} → Peg R ρ α → Cursor → Option (Option (α × Cursor))
  | _, .pure x, c => some (some (x, c))
  | _, .char p, c =>
    match c.rest with
    | [] => some none
    | x :: rest =>
      some (if p x then some (x, { c with rest := rest, offset := c.offset + x.utf8Size }) else none)
  | _, .text s, c => some ((c.skip? s.toList).map (((), ·)))
  | _, .textNoCase s, c => some ((c.skipNoCase? s.toList).map (((), ·)))
  | _, .done, c => some (if c.rest.isEmpty then some ((), c) else none)
  | _, .ap f p, c =>
    (f.read? recur c).bind fun
      | none => some none
      | some (g, d) => (p.read? recur d).map fun r => r.map fun s => (g s.1, s.2)
  | _, .orElse p q, c =>
    (p.read? recur c).bind fun
      | none => q.read? recur c
      | some r => some (some r)
  | _, .many p, c => (readMany? (p.read? recur) (c.rest.length + 1) c).map some
  | _, .ahead p, c => (p.read? recur c).map fun r => r.map fun _ => ((), c)
  | _, .notAhead p, c => (p.read? recur c).map fun r => if r.isSome then none else some ((), c)
  | _, .slice p, c => (p.read? recur c).map fun r => r.map fun s => ((c.sliceTo s.2, s.1), s.2)
  | _, .push p, c =>
    (p.read? recur c).map fun r => r.map fun s => (s.1, { s.2 with stack := c.charsTo s.2 :: s.2.stack })
  | _, .peek, c =>
    match c.stack with
    | [] => none
    | s :: _ => some ((c.skip? s).map (((), ·)))
  | _, .pop, c =>
    match c.stack with
    | [] => none
    | s :: stack => some ((c.skip? s).map fun d => ((), { d with stack := stack }))
  | _, .rule _ _ p, c => p.read? recur c
  | _, .recur, c => recur c

/-- Read the recursive nonterminal `body`, or get stuck below a depth of nesting. -/
def readNested? (body : Peg R ρ ρ) : Nat → Cursor → Option (Option (ρ × Cursor))
  | 0, _ => none
  | depth + 1, c => body.read? (readNested? body depth) c

def run? (body : Peg R ρ ρ) (p : Peg R ρ α) (s : List Char) : Option (Option (α × Cursor)) :=
  p.read? (readNested? body (s.length + 1)) (.ofText s)

/-! ## Stacks that suffice -/

/-- A stack of at least the given height suffices for an expression, and what is left after a match is at least as
high as the answer. A repetition has to advance and to leave as much as it finds. -/
def stackAfter : {α : Type} → Peg R ρ α → Nat → Option Nat
  | _, .ap f p, k => (f.stackAfter k).bind p.stackAfter
  | _, .orElse p q, k => (p.stackAfter k).bind fun i => (q.stackAfter k).map fun j => min i j
  | _, .many p, k => (p.stackAfter k).bind fun i => if p.advances ∧ k ≤ i then some k else none
  | _, .ahead p, k | _, .notAhead p, k => (p.stackAfter k).map fun _ => k
  | _, .slice p, k | _, .rule _ _ p, k => p.stackAfter k
  | _, .push p, k => (p.stackAfter k).map (· + 1)
  | _, .peek, k => if 0 < k then some k else none
  | _, .pop, k => if 0 < k then some (k - 1) else none
  | _, .pure _, k | _, .char _, k | _, .text _, k | _, .textNoCase _, k | _, .done, k | _, .recur, k => some k

/-- The nonterminal leaves at least as much on the stack as it finds there. -/
def KeepsStack (recur : Cursor → Option (ρ × Cursor)) : Prop :=
  ∀ c x d, recur c = some (x, d) → c.stack.length ≤ d.stack.length

theorem stack_of_skip? {c d : Cursor} {s : List Char} {x : Unit} (h : (c.skip? s).map (((), ·)) = some (x, d)) :
    d.stack = c.stack := by
  obtain ⟨e, he, heq⟩ := Option.map_eq_some_iff.1 h
  cases heq
  exact (Cursor.skip?_eq_some he).2.2

/-- A match changes the height of the stack by no less than its expression says. -/
theorem reads_stackAfter {p : Peg R ρ α} {k i : Nat} (h : p.stackAfter k = some i) :
    p.ReadsGiven KeepsStack fun c _ d => c.stack.length + i ≤ d.stack.length + k := by
  induction p generalizing k i with
  | pure =>
    cases h
    exact reads_pure fun _ => Nat.le_refl _
  | char q =>
    cases h
    intro recur _ c x d hread
    rw [read_char] at hread
    split at hread
    · cases hread
    · split at hread
      · cases hread
        exact Nat.le_refl _
      · cases hread
  | text s =>
    cases h
    intro recur _ c x d hread
    exact Nat.le_of_eq (by rw [stack_of_skip? hread])
  | textNoCase s =>
    cases h
    intro recur _ c x d hread
    simp only [read, Cursor.skipNoCase?] at hread
    split at hread
    · exact Nat.le_of_eq (by rw [stack_of_skip? hread])
    · cases hread
  | done =>
    cases h
    exact reads_done fun _ _ => Nat.le_refl _
  | ap f p ihf ihp =>
    obtain ⟨j, hf, hp⟩ := Option.bind_eq_some_iff.1 h
    refine reads_ap ((ihf hf).imp fun c g d hle x e hle' => ?_) (ihp hp)
    omega
  | orElse p q ihp ihq =>
    obtain ⟨j, hp, hj⟩ := Option.bind_eq_some_iff.1 h
    obtain ⟨j', hq, rfl⟩ := Option.map_eq_some_iff.1 hj
    refine reads_orElse ((ihp hp).imp fun c x d hle => ?_) ((ihq hq).imp fun c x d hle => ?_)
    · omega
    · omega
  | many p ih =>
    obtain ⟨j, hp, hk⟩ := Option.bind_eq_some_iff.1 h
    split at hk
    next hle =>
      cases hk
      refine reads_many (ih hp) (fun _ => Nat.le_refl _) fun c x d xs e hstep hrest => ?_
      omega
    · cases hk
  | ahead p =>
    obtain ⟨j, -, rfl⟩ := Option.map_eq_some_iff.1 h
    exact reads_ahead fun _ => Nat.le_refl _
  | notAhead p =>
    obtain ⟨j, -, rfl⟩ := Option.map_eq_some_iff.1 h
    exact reads_notAhead fun _ _ _ => Nat.le_refl _
  | slice p ih => exact reads_slice (ih h)
  | push p ih =>
    obtain ⟨j, hp, rfl⟩ := Option.map_eq_some_iff.1 h
    intro recur hrecur c x d hread
    obtain ⟨⟨y, e⟩, hy, heq⟩ := Option.map_eq_some_iff.1 hread
    cases heq
    have hle := ih hp recur hrecur c y e hy
    simp only [List.length_cons]
    omega
  | peek =>
    simp only [stackAfter, Option.ite_none_right_eq_some, Option.some.injEq] at h
    obtain ⟨-, rfl⟩ := h
    intro recur _ c x d hread
    rw [read_peek] at hread
    split at hread
    · cases hread
    · exact Nat.le_of_eq (by rw [stack_of_skip? hread])
  | pop =>
    simp only [stackAfter, Option.ite_none_right_eq_some, Option.some.injEq] at h
    obtain ⟨hk, rfl⟩ := h
    intro recur _ c x d hread
    rw [read_pop] at hread
    split at hread
    · cases hread
    next s stack hstack =>
      obtain ⟨e, he, heq⟩ := Option.map_eq_some_iff.1 hread
      cases heq
      simp only [hstack, List.length_cons]
      omega
  | rule name atomic p ih => exact ih h
  | recur =>
    cases h
    intro recur hrecur c x d hread
    exact Nat.add_le_add_right (hrecur c x d hread) k

theorem keepsStack_readNested {body : Peg R ρ ρ} (hbody : body.stackAfter 0 = some 0) (depth : Nat) :
    KeepsStack (readNested body depth) := by
  induction depth with
  | zero => exact fun _ _ _ h => nomatch h
  | succ depth ih => exact fun c x d h => reads_stackAfter hbody _ ih c x d h

/-! ## Expressions that spare the stack -/

/-- The expression has nothing to do with the stack, and its repetitions advance. -/
def stackFree : {α : Type} → Peg R ρ α → Bool
  | _, .ap f p => f.stackFree && p.stackFree
  | _, .orElse p q => p.stackFree && q.stackFree
  | _, .many p => p.advances && p.stackFree
  | _, .ahead p | _, .notAhead p | _, .slice p | _, .rule _ _ p => p.stackFree
  | _, .push _ | _, .peek | _, .pop => false
  | _, .pure _ | _, .char _ | _, .text _ | _, .textNoCase _ | _, .done | _, .recur => true

/-- Any stack suffices for the expression, and a match leaves it at least as high. -/
def SparesStack (p : Peg R ρ α) : Prop :=
  ∀ k, p.stackAfter k = some k

theorem sparesStack_of_stackFree {p : Peg R ρ α} (h : p.stackFree = true) : p.SparesStack := by
  intro k
  induction p with
  | pure | char | text | textNoCase | done | recur => rfl
  | ap f p ihf ihp =>
    rw [stackFree, Bool.and_eq_true] at h
    rw [stackAfter, ihf h.1, Option.bind_some, ihp h.2]
  | orElse p q ihp ihq =>
    rw [stackFree, Bool.and_eq_true] at h
    rw [stackAfter, ihp h.1, Option.bind_some, ihq h.2, Option.map_some, Nat.min_self]
  | many p ih =>
    rw [stackFree, Bool.and_eq_true] at h
    rw [stackAfter, ih h.2, Option.bind_some, if_pos ⟨h.1, Nat.le_refl k⟩]
  | ahead p ih | notAhead p ih => rw [stackAfter, ih h, Option.map_some]
  | slice p ih | rule name atomic p ih => exact ih h
  | push | peek | pop => cases h

theorem stackAfter_add {p : Peg R ρ α} {k i : Nat} (h : p.stackAfter k = some i) (j : Nat) :
    p.stackAfter (k + j) = some (i + j) := by
  induction p generalizing k i with
  | pure | char | text | textNoCase | done | recur =>
    cases h
    rfl
  | ap f p ihf ihp =>
    obtain ⟨m, hf, hp⟩ := Option.bind_eq_some_iff.1 h
    rw [stackAfter, ihf hf, Option.bind_some, ihp hp]
  | orElse p q ihp ihq =>
    obtain ⟨m, hp, hm⟩ := Option.bind_eq_some_iff.1 h
    obtain ⟨m', hq, rfl⟩ := Option.map_eq_some_iff.1 hm
    rw [stackAfter, ihp hp, Option.bind_some, ihq hq, Option.map_some, Nat.add_min_add_right]
  | many p ih =>
    obtain ⟨m, hp, hm⟩ := Option.bind_eq_some_iff.1 h
    simp only [Option.ite_none_right_eq_some, Option.some.injEq] at hm
    obtain ⟨⟨hadvances, hle⟩, rfl⟩ := hm
    rw [stackAfter, ih hp, Option.bind_some, if_pos ⟨hadvances, Nat.add_le_add_right hle j⟩]
  | ahead p ih | notAhead p ih =>
    obtain ⟨m, hp, rfl⟩ := Option.map_eq_some_iff.1 h
    rw [stackAfter, ih hp, Option.map_some]
  | slice p ih | rule name atomic p ih => exact ih h
  | push p ih =>
    obtain ⟨m, hp, rfl⟩ := Option.map_eq_some_iff.1 h
    rw [stackAfter, ih hp, Option.map_some, Nat.add_right_comm]
  | peek =>
    simp only [stackAfter, Option.ite_none_right_eq_some, Option.some.injEq] at h
    obtain ⟨hk, rfl⟩ := h
    rw [stackAfter, if_pos (Nat.add_pos_left hk j)]
  | pop =>
    simp only [stackAfter, Option.ite_none_right_eq_some, Option.some.injEq] at h
    obtain ⟨hk, rfl⟩ := h
    rw [stackAfter, if_pos (Nat.add_pos_left hk j), Nat.sub_add_comm hk]

/-- The empty stack is the hardest case. -/
theorem sparesStack_of_empty {p : Peg R ρ α} (h : p.stackAfter 0 = some 0) : p.SparesStack := by
  intro k
  have hk := stackAfter_add h k
  rwa [Nat.zero_add] at hk

section

variable {p q : Peg R ρ α}

theorem stackAfter_map {f : α → β} {k i : Nat} (h : p.stackAfter k = some i) : (f <$> p).stackAfter k = some i :=
  h

theorem stackAfter_seq {f : Peg R ρ (α → β)} {k i j : Nat} (hf : f.stackAfter k = some i)
    (hp : p.stackAfter i = some j) : (f <*> p).stackAfter k = some j := by
  change (f.stackAfter k).bind p.stackAfter = some j
  rw [hf, Option.bind_some, hp]

theorem SparesStack.map {f : α → β} (h : p.SparesStack) : (f <$> p).SparesStack :=
  fun k => stackAfter_map (h k)

theorem SparesStack.seq {f : Peg R ρ (α → β)} (hf : f.SparesStack) (hp : p.SparesStack) : (f <*> p).SparesStack :=
  fun k => stackAfter_seq (hf k) (hp k)

theorem SparesStack.seqLeft {q : Peg R ρ β} (hp : p.SparesStack) (hq : q.SparesStack) : (p <* q).SparesStack :=
  seq (f := Function.const β <$> p) hp hq

theorem SparesStack.orElse (hp : p.SparesStack) (hq : q.SparesStack) : (p <|> q).SparesStack := by
  intro k
  change (p.stackAfter k).bind _ = some k
  rw [hp k, Option.bind_some, hq k, Option.map_some, Nat.min_self]

theorem SparesStack.many (hp : p.SparesStack) (h : p.advances = true) : (many p).SparesStack := by
  intro k
  rw [stackAfter, hp k, Option.bind_some, if_pos ⟨h, Nat.le_refl k⟩]

end

/-! ## Reading that does not get stuck -/

theorem readMany?_eq {step? : Cursor → Option (Option (α × Cursor))} {step : Cursor → Option (α × Cursor)}
    {S : Cursor → Prop} (hstep : ∀ c, S c → step? c = some (step c))
    (hnext : ∀ c x d, S c → step c = some (x, d) → S d ∧ d.rest.length < c.rest.length) (fuel : Nat) {c : Cursor}
    (hc : S c) (hfuel : c.rest.length < fuel) : readMany? step? fuel c = some (readMany step fuel c) := by
  induction fuel generalizing c with
  | zero => omega
  | succ fuel ih =>
    rw [readMany?, readMany, hstep c hc]
    cases h : step c with
    | none => rfl
    | some r =>
      obtain ⟨hd, hlt⟩ := hnext c r.1 r.2 hc h
      simp only [Option.bind_some, ih hd (by omega), Option.map_some]

/-- An expression is not stuck where the stack suffices and its nonterminal is not stuck. -/
theorem read?_eq {r? : Cursor → Option (Option (ρ × Cursor))} {r : Cursor → Option (ρ × Cursor)} (hforward : Forward r)
    (hkeeps : KeepsStack r) {n : Nat} (hrecur : ∀ c, c.rest.length < n → r? c = some (r c)) {p : Peg R ρ α} {k i : Nat}
    (h : p.stackAfter k = some i) {c : Cursor} (hk : k ≤ c.stack.length)
    (hc : c.rest.length < n ∨ p.guarded = true ∧ c.rest.length ≤ n) : p.read? r? c = some (p.read r c) := by
  induction p generalizing k i c with
  | pure | text | textNoCase | done => rfl
  | char q =>
    rw [read?, read_char]
    cases c.rest <;> rfl
  | ap f p ihf ihp =>
    obtain ⟨j, hf, hp⟩ := Option.bind_eq_some_iff.1 h
    have hfirst : f.read? r? c = some (f.read r c) := by
      refine ihf hf hk (hc.imp_right fun hc => ⟨?_, hc.2⟩)
      have hguarded := hc.1
      rw [guarded, Bool.and_eq_true] at hguarded
      exact hguarded.1
    rw [read?, hfirst, Option.bind_some]
    change _ = some ((f.read r c).bind _)
    cases hread : f.read r c with
    | none => rfl
    | some g =>
      have hsteps := reads_stepsTo f r hforward c g.1 g.2 hread
      have hle := length_le_of_stepsTo hsteps
      have hstack := reads_stackAfter hf r hkeeps c g.1 g.2 hread
      have hsecond : p.read? r? g.2 = some (p.read r g.2) := by
        refine ihp hp (by omega) ?_
        rcases hc with hc | ⟨hguarded, hc⟩
        · exact .inl (Nat.lt_of_le_of_lt hle hc)
        rw [guarded, Bool.and_eq_true, Bool.or_eq_true] at hguarded
        rcases hguarded.2 with hadvances | hguarded
        · have hlt := hsteps.length_lt (consumes_of_advances hadvances r hforward c g.1 g.2 hread)
          exact .inl (Nat.lt_of_lt_of_le hlt hc)
        · exact .inr ⟨hguarded, Nat.le_trans hle hc⟩
      simp only [hsecond, Option.map_some, Option.bind_some]
  | orElse p q ihp ihq =>
    obtain ⟨j, hp, hq⟩ := Option.bind_eq_some_iff.1 h
    obtain ⟨j', hq, -⟩ := Option.map_eq_some_iff.1 hq
    have hguarded (hguarded : (orElse p q).guarded = true) : p.guarded = true ∧ q.guarded = true := by
      rwa [guarded, Bool.and_eq_true] at hguarded
    have hfirst := ihp hp hk (hc.imp_right fun h => ⟨(hguarded h.1).1, h.2⟩)
    have hsecond := ihq hq hk (hc.imp_right fun h => ⟨(hguarded h.1).2, h.2⟩)
    rw [read?, hfirst, Option.bind_some]
    change _ = some ((p.read r c).or _)
    cases p.read r c with
    | none => exact hsecond
    | some x => rfl
  | many p ih =>
    obtain ⟨j, hp, hj⟩ := Option.bind_eq_some_iff.1 h
    simp only [Option.ite_none_right_eq_some] at hj
    obtain ⟨⟨hadvances, hj⟩, -⟩ := hj
    -- along the repetition less and less is left to read, and the stack stays high enough
    have hstep : ∀ d : Cursor, d.rest.length ≤ c.rest.length ∧ k ≤ d.stack.length → p.read? r? d = some (p.read r d) :=
      fun d hd => ih hp hd.2 (hc.imp (Nat.lt_of_le_of_lt hd.1) fun h => ⟨h.1, Nat.le_trans hd.1 h.2⟩)
    have hnext : ∀ (d : Cursor) (x) (e : Cursor), d.rest.length ≤ c.rest.length ∧ k ≤ d.stack.length →
        p.read r d = some (x, e) →
        (e.rest.length ≤ c.rest.length ∧ k ≤ e.stack.length) ∧ e.rest.length < d.rest.length := by
      intro d x e hd hread
      have hlt := (reads_stepsTo p r hforward d x e hread).length_lt
        (consumes_of_advances hadvances r hforward d x e hread)
      have hstack := reads_stackAfter hp r hkeeps d x e hread
      omega
    rw [read?, read_many, readMany?_eq hstep hnext _ ⟨Nat.le_refl _, hk⟩ (Nat.lt_succ_self _), Option.map_some]
  | ahead p ih | notAhead p ih =>
    obtain ⟨j, hp, -⟩ := Option.map_eq_some_iff.1 h
    rw [read?, ih hp hk hc]
    rfl
  | slice p ih =>
    rw [read?, ih h hk hc]
    rfl
  | push p ih =>
    obtain ⟨j, hp, -⟩ := Option.map_eq_some_iff.1 h
    rw [read?, ih hp hk hc]
    rfl
  | peek | pop =>
    simp only [stackAfter, Option.ite_none_right_eq_some] at h
    obtain ⟨s, stack, hstack⟩ := List.exists_cons_of_length_pos (Nat.lt_of_lt_of_le h.1 hk)
    simp [read?, read, hstack]
  | rule name atomic p ih => exact ih h hk hc
  | recur => exact hrecur c (hc.resolve_right fun h => Bool.false_ne_true h.1)

section

variable {body : Peg R ρ ρ} (hguarded : body.guarded = true) (hbody : body.stackAfter 0 = some 0)

include hguarded hbody

theorem readNested?_eq (depth : Nat) {c : Cursor} (hc : c.rest.length < depth) :
    readNested? body depth c = some (readNested body depth c) := by
  induction depth generalizing c with
  | zero => omega
  | succ depth ih =>
    exact read?_eq (forward_readNested body depth) (keepsStack_readNested hbody depth) (fun d hd => ih hd) hbody
      (Nat.zero_le _) (.inr ⟨hguarded, Nat.le_of_lt_succ hc⟩)

/-- **A run is never stuck** if the empty stack suffices for its expressions. -/
theorem run?_eq_run {p : Peg R ρ α} {i : Nat} (hp : p.stackAfter 0 = some i) (s : List Char) :
    run? body p s = some (run body p s).1 := by
  rw [fst_run]
  exact read?_eq (forward_readNested body _) (keepsStack_readNested hbody _)
    (fun _ hc => readNested?_eq hguarded hbody _ hc) hp (Nat.zero_le _) (.inl (Nat.lt_succ_self _))

end

end LiquidTemplate.Peg
