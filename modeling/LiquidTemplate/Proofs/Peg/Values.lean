import LiquidTemplate.Peg.Parse

/-!
# Values of parsing expressions

What can be said about the value of a match without looking at the text: `p.Gives P` says that every value
that `p` can give satisfies `P`. One lemma for each way to build an expression carries such a property from
the parts of a grammar to the whole.
-/

namespace LiquidTemplate.Peg

variable {R ρ α β : Type}

section

variable {recur : Mode → Cursor → Attempts R → Reply R ρ} {m : Mode} {c : Cursor} {a : Attempts R}

theorem parse_orElse {p q : Peg R ρ α} : (p <|> q).parse recur m c a =
    match p.parse recur m c a with
    | (none, a) => q.parse recur m c a
    | (some r, a) => (some r, a) := rfl

theorem parse_rule {name : R} {atomic : Bool} {p : Peg R ρ α} : (rule name atomic p).parse recur m c a =
    let r := p.parse recur { m with atomic := m.atomic || atomic } c a
    if Attempts.isNoted m.lookahead r.1.isSome then (r.1, a.note r.2 m name c.offset) else r := rfl

end

/-- Every value that a match can give satisfies a property. -/
def Gives (p : Peg R ρ α) (P : α → Prop) : Prop :=
  ∀ (recur : Mode → Cursor → Attempts R → Reply R ρ) (m : Mode) (c : Cursor) (a : Attempts R) (x : α)
    (d : Cursor) (b : Attempts R), p.parse recur m c a = (some (x, d), b) → P x

theorem Gives.imp {p : Peg R ρ α} {P Q : α → Prop} (h : p.Gives P) (hPQ : ∀ x, P x → Q x) : p.Gives Q :=
  fun recur m c a x d b hp => hPQ x (h recur m c a x d b hp)

theorem gives_true (p : Peg R ρ α) : p.Gives fun _ => True :=
  fun _ _ _ _ _ _ _ _ => trivial

theorem gives_pure {P : α → Prop} {x : α} (h : P x) : (Peg.pure x : Peg R ρ α).Gives P := by
  intro recur m c a y d b hp
  obtain ⟨hsome, -⟩ := Prod.mk.inj hp
  obtain ⟨rfl, -⟩ := Prod.mk.inj (Option.some.inj hsome)
  exact h

theorem gives_ap {f : Peg R ρ (α → β)} {p : Peg R ρ α} {P : α → Prop} {Q : β → Prop}
    (hf : f.Gives fun g => ∀ x, P x → Q (g x)) (hp : p.Gives P) : (f.ap p).Gives Q := by
  intro recur m c a y d b h
  simp only [parse] at h
  split at h
  · simp at h
  next g c₁ a₁ hg =>
    split at h
    · simp at h
    next x c₂ a₂ hx =>
      simp only [Prod.mk.injEq, Option.some.injEq] at h
      obtain ⟨⟨rfl, -⟩, -⟩ := h
      exact hf _ _ _ _ _ _ _ hg x (hp _ _ _ _ _ _ _ hx)

theorem gives_map {p : Peg R ρ α} {P : α → Prop} {Q : β → Prop} {f : α → β} (hp : p.Gives P)
    (hf : ∀ x, P x → Q (f x)) : (f <$> p).Gives Q :=
  gives_ap (gives_pure hf) hp

theorem gives_seq {f : Peg R ρ (α → β)} {p : Peg R ρ α} {P : α → Prop} {Q : β → Prop}
    (hf : f.Gives fun g => ∀ x, P x → Q (g x)) (hp : p.Gives P) : (f <*> p).Gives Q :=
  gives_ap hf hp

theorem gives_seqLeft {p : Peg R ρ α} {q : Peg R ρ β} {P : α → Prop} (hp : p.Gives P) : (p <* q).Gives P :=
  gives_ap (gives_map hp fun _ hx _ _ => hx) (gives_true q)

theorem gives_seqRight {p : Peg R ρ α} {q : Peg R ρ β} {P : β → Prop} (hq : q.Gives P) : (p *> q).Gives P :=
  gives_ap (gives_map (gives_true p) fun _ _ _ hy => hy) hq

theorem gives_orElse {p q : Peg R ρ α} {P : α → Prop} (hp : p.Gives P) (hq : q.Gives P) :
    (p <|> q).Gives P := by
  intro recur m c a x d b h
  rw [parse_orElse] at h
  split at h
  · exact hq _ _ _ _ _ _ _ h
  next r a₁ hr =>
    simp only [Prod.mk.injEq, Option.some.injEq] at h
    obtain ⟨rfl, -⟩ := h
    exact hp _ _ _ _ _ _ _ hr

theorem gives_opt {p : Peg R ρ α} {P : α → Prop} (hp : p.Gives P) : (opt p).Gives fun r => ∀ x ∈ r, P x := by
  refine gives_orElse (gives_map hp ?_) (gives_pure ?_)
  · rintro x hx y ⟨⟩
    exact hx
  · simp

theorem parseMany_gives {P : α → Prop} {step : Cursor → Attempts R → Reply R α}
    (hstep : ∀ c a x d b, step c a = (some (x, d), b) → P x) (fuel : Nat) (c : Cursor) (a : Attempts R) :
    ∀ x ∈ (parseMany step fuel c a).1.1, P x := by
  induction fuel generalizing c a with
  | zero => simp [parseMany]
  | succ fuel ih =>
    rw [parseMany]
    split
    · simp
    next x c₁ a₁ hx =>
      intro y hy
      rcases List.mem_cons.1 hy with rfl | hy
      · exact hstep _ _ _ _ _ hx
      · exact ih c₁ a₁ y hy

theorem gives_many {p : Peg R ρ α} {P : α → Prop} (hp : p.Gives P) : (many p).Gives fun xs => ∀ x ∈ xs, P x := by
  intro recur m c a xs d b h
  obtain ⟨hsome, -⟩ := Prod.mk.inj h
  have hall := parseMany_gives (fun c a => hp recur m c a) (c.rest.length + 1) c a
  rwa [Option.some.inj hsome] at hall

theorem gives_many1 {p : Peg R ρ α} {P : α → Prop} (hp : p.Gives P) :
    (many1 p).Gives fun xs => ∀ x ∈ xs, P x := by
  refine gives_seq (gives_map hp ?_) (gives_many hp)
  intro x hx xs hxs
  simpa using ⟨hx, hxs⟩

theorem gives_slice {p : Peg R ρ α} {P : α → Prop} (hp : p.Gives P) : (slice p).Gives fun r => P r.2 := by
  intro recur m c a x d b h
  obtain ⟨hsome, -⟩ := Prod.mk.inj h
  obtain ⟨r, hr, heq⟩ := Option.map_eq_some_iff.1 hsome
  cases heq
  exact hp recur m c a r.1 r.2 _ (Prod.ext hr rfl)

theorem gives_rule {name : R} {atomic : Bool} {p : Peg R ρ α} {P : α → Prop} (hp : p.Gives P) :
    (rule name atomic p).Gives P := by
  intro recur m c a x d b h
  simp only [parse_rule] at h
  split at h
  · simp only [Prod.mk.injEq] at h
    exact hp _ _ _ _ _ _ _ (Prod.ext h.1 rfl)
  · exact hp _ _ _ _ _ _ _ h

theorem gives_named {name : R} {p : Peg R ρ α} {P : α → Prop} (hp : p.Gives P) : (named name p).Gives P :=
  gives_rule hp

theorem gives_atom {name : R} {p : Peg R ρ α} {P : α → Prop} (hp : p.Gives P) : (atom name p).Gives P :=
  gives_rule hp

theorem Gives.of_run {p : Peg R ρ α} {P : α → Prop} (hp : p.Gives P) {body : Peg R ρ ρ} {s : List Char} {x : α}
    {c : Cursor} {a : Attempts R} (h : run body p s = (some (x, c), a)) : P x :=
  hp _ _ _ _ _ _ _ h

end LiquidTemplate.Peg
