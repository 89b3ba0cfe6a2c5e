import LiquidTemplate.Proofs.Peg.Read

/-!
# Values read from known places

`Yields H I p A` says that from every place where `I` holds, `p` gives values with the property `A` and ends at a
place where `I` holds again. What is assumed of the recursive nonterminal is `H`. An invariant of places that moves
along with every step (`Tracks H I`) is kept by every expression, so a statement about a sequence has to say
something only about the parts that matter.
-/

namespace LiquidTemplate.Peg

variable {R ρ α β : Type} {H : (Cursor → Option (ρ × Cursor)) → Prop} {I : Cursor → Prop}

/-- The recursive nonterminal moves forward, and `I` is never lost on the way. -/
structure Tracks (H : (Cursor → Option (ρ × Cursor)) → Prop) (I : Cursor → Prop) : Prop where
  forward : ∀ recur, H recur → Forward recur
  steps : ∀ c d, I c → c.StepsTo d → I d

/-- Values with the property `A`, from and to places where `I` holds. -/
def Yields (H : (Cursor → Option (ρ × Cursor)) → Prop) (I : Cursor → Prop) (p : Peg R ρ α) (A : α → Prop) : Prop :=
  p.ReadsGiven H fun c x d => I c → A x ∧ I d

theorem tracks_forward : Tracks (Forward (ρ := ρ)) fun _ => True :=
  ⟨fun _ h => h, fun _ _ _ _ => trivial⟩

theorem Yields.imp {p : Peg R ρ α} {A B : α → Prop} (h : p.Yields H I A) (himp : ∀ x, A x → B x) : p.Yields H I B :=
  ReadsGiven.imp h fun _ x _ hx hc => ⟨himp x (hx hc).1, (hx hc).2⟩

theorem Tracks.yields (h : Tracks H I) {p : Peg R ρ α} {A : α → Prop} (hp : p.ReadsGiven H fun c x _ => I c → A x) :
    p.Yields H I A := by
  intro recur hrecur c x d hread hc
  have hsteps : c.StepsTo d := reads_stepsTo p recur (h.forward recur hrecur) c x d hread
  exact ⟨hp recur hrecur c x d hread hc, h.steps c d hc hsteps⟩

theorem Yields.reads {p : Peg R ρ α} {A : α → Prop} (h : p.Yields H (fun _ => True) A) :
    p.ReadsGiven H fun _ x _ => A x :=
  ReadsGiven.imp h fun _ _ _ hx => (hx trivial).1

theorem Tracks.yields_true (h : Tracks H I) (p : Peg R ρ α) : p.Yields H I fun _ => True :=
  h.yields fun _ _ _ _ _ _ _ => trivial

theorem yields_pure {x : α} {A : α → Prop} (h : A x) : (Peg.pure x : Peg R ρ α).Yields H I A :=
  reads_pure fun _ hc => ⟨h, hc⟩

theorem yields_ap {f : Peg R ρ (α → β)} {p : Peg R ρ α} {A : α → Prop} {B : β → Prop}
    (hf : f.Yields H I fun g => ∀ x, A x → B (g x)) (hp : p.Yields H I A) : (f.ap p).Yields H I B := by
  refine reads_ap (ReadsGiven.imp hf ?_) hp
  intro c g d hg x e hx hc
  obtain ⟨hB, hd⟩ := hg hc
  obtain ⟨hA, he⟩ := hx hd
  exact ⟨hB x hA, he⟩

theorem yields_map {p : Peg R ρ α} {A : α → Prop} {B : β → Prop} {f : α → β} (hp : p.Yields H I A)
    (hf : ∀ x, A x → B (f x)) : (f <$> p).Yields H I B :=
  yields_ap (yields_pure hf) hp

theorem yields_giving {p : Peg R ρ α} {B : β → Prop} {y : β} (h : Tracks H I) (hy : B y) :
    (giving y p).Yields H I B :=
  yields_map (h.yields_true p) fun _ _ => hy

theorem yields_seq {f : Peg R ρ (α → β)} {p : Peg R ρ α} {A : α → Prop} {B : β → Prop}
    (hf : f.Yields H I fun g => ∀ x, A x → B (g x)) (hp : p.Yields H I A) : (f <*> p).Yields H I B :=
  yields_ap hf hp

theorem yields_seqLeft {p : Peg R ρ α} {A : α → Prop} (hp : p.Yields H I A) (h : Tracks H I) (q : Peg R ρ β) :
    (p <* q).Yields H I A :=
  yields_ap (yields_map hp fun _ hx _ _ => hx) (h.yields_true q)

theorem yields_seqRight {q : Peg R ρ β} {A : β → Prop} (h : Tracks H I) (p : Peg R ρ α) (hq : q.Yields H I A) :
    (p *> q).Yields H I A :=
  yields_ap (yields_map (h.yields_true p) fun _ _ _ hy => hy) hq

theorem yields_orElse {p q : Peg R ρ α} {A : α → Prop} (hp : p.Yields H I A) (hq : q.Yields H I A) :
    (p <|> q).Yields H I A :=
  reads_orElse hp hq

theorem yields_opt {p : Peg R ρ α} {A : α → Prop} (hp : p.Yields H I A) :
    (opt p).Yields H I fun r => ∀ x ∈ r, A x := by
  refine yields_orElse (yields_map hp ?_) (yields_pure (by simp))
  rintro x hx y ⟨⟩
  exact hx

theorem yields_many {p : Peg R ρ α} {A : α → Prop} (hp : p.Yields H I A) :
    (many p).Yields H I fun xs => ∀ x ∈ xs, A x := by
  refine reads_many hp (fun c hc => ⟨by simp, hc⟩) ?_
  intro c x d xs e hx hxs hc
  obtain ⟨hA, hd⟩ := hx hc
  obtain ⟨hall, he⟩ := hxs hd
  exact ⟨List.forall_mem_cons.2 ⟨hA, hall⟩, he⟩

theorem yields_many1 {p : Peg R ρ α} {A : α → Prop} (hp : p.Yields H I A) :
    (many1 p).Yields H I fun xs => ∀ x ∈ xs, A x :=
  yields_seq (yields_map hp fun _ hx _ hxs => List.forall_mem_cons.2 ⟨hx, hxs⟩) (yields_many hp)

theorem yields_slice {p : Peg R ρ α} {A : Slice × α → Prop}
    (hp : p.Yields H I fun x => ∀ c d : Cursor, I c → I d → A (c.sliceTo d, x)) : (slice p).Yields H I A := by
  refine reads_slice (ReadsGiven.imp hp ?_)
  intro c x d hx hc
  obtain ⟨hA, hd⟩ := hx hc
  exact ⟨hA c d hc hd, hd⟩

theorem yields_named {name : R} {p : Peg R ρ α} {A : α → Prop} (hp : p.Yields H I A) : (named name p).Yields H I A :=
  hp

theorem yields_atom {name : R} {p : Peg R ρ α} {A : α → Prop} (hp : p.Yields H I A) : (atom name p).Yields H I A :=
  hp

end LiquidTemplate.Peg
