import LiquidTemplate.Proofs.Peg.Yields

/-!
# Values that depend on what follows

Some values can be trusted only if the text goes on in the right way. `YieldsUnless H S p A` says that `p` gives values
with the property `A` unless it ends at a place where `S` holds. Whatever comes next decides: an expression that never
matches at such a place (`Avoids`) settles the property, and one that stays there if it starts there (`Keeps`) hands
the question on.
-/

namespace LiquidTemplate.Peg

variable {R ρ α β : Type} {H : (Cursor → Option (ρ × Cursor)) → Prop} {S : Cursor → Prop}

/-- Values with the property `A`, unless the match ends where `S` holds. -/
def YieldsUnless (H : (Cursor → Option (ρ × Cursor)) → Prop) (S : Cursor → Prop) (p : Peg R ρ α) (A : α → Prop) :
    Prop :=
  p.ReadsGiven H fun _ x d => ¬ S d → A x

/-- A match that starts where `S` holds ends where `S` holds. -/
def Keeps (H : (Cursor → Option (ρ × Cursor)) → Prop) (S : Cursor → Prop) (p : Peg R ρ α) : Prop :=
  p.ReadsGiven H fun c _ d => S c → S d

/-- No match starts where `S` holds. -/
def Avoids (H : (Cursor → Option (ρ × Cursor)) → Prop) (S : Cursor → Prop) (p : Peg R ρ α) : Prop :=
  p.ReadsGiven H fun c _ _ => ¬ S c

abbrev YieldsAlways (H : (Cursor → Option (ρ × Cursor)) → Prop) (p : Peg R ρ α) (A : α → Prop) : Prop :=
  p.ReadsGiven H fun _ x _ => A x

/-! ## Places -/

theorem Avoids.keeps {p : Peg R ρ α} (h : p.Avoids H S) : p.Keeps H S :=
  h.imp fun _ _ _ hnot hS => absurd hS hnot

theorem avoids_ap_left {f : Peg R ρ (α → β)} {p : Peg R ρ α} (hf : f.Avoids H S) : (f.ap p).Avoids H S :=
  reads_ap (P := fun _ _ _ => True) (ReadsGiven.imp hf fun _ _ _ h _ _ _ => h) fun _ _ _ _ _ _ => trivial

theorem avoids_ap_right {f : Peg R ρ (α → β)} {p : Peg R ρ α} (hf : f.Keeps H S) (hp : p.Avoids H S) :
    (f.ap p).Avoids H S :=
  reads_ap (ReadsGiven.imp hf fun _ _ _ hkeeps _ _ hnot hS => hnot (hkeeps hS)) hp

theorem keeps_pure {x : α} : (Peg.pure x : Peg R ρ α).Keeps H S :=
  reads_pure fun _ h => h

theorem keeps_ap {f : Peg R ρ (α → β)} {p : Peg R ρ α} (hf : f.Keeps H S) (hp : p.Keeps H S) : (f.ap p).Keeps H S :=
  reads_ap (ReadsGiven.imp hf fun _ _ _ hkeeps _ _ hkeeps' hS => hkeeps' (hkeeps hS)) hp

theorem keeps_orElse {p q : Peg R ρ α} (hp : p.Keeps H S) (hq : q.Keeps H S) : (p <|> q).Keeps H S :=
  reads_orElse hp hq

theorem keeps_many {p : Peg R ρ α} (hp : p.Keeps H S) : (many p).Keeps H S :=
  reads_many hp (fun _ h => h) fun _ _ _ _ _ hkeeps hkeeps' hS => hkeeps' (hkeeps hS)

theorem keeps_map {p : Peg R ρ α} {f : α → β} (hp : p.Keeps H S) : (f <$> p).Keeps H S :=
  keeps_ap keeps_pure hp

theorem keeps_opt {p : Peg R ρ α} (hp : p.Keeps H S) : (opt p).Keeps H S :=
  keeps_orElse (keeps_map hp) keeps_pure

theorem keeps_flag {p : Peg R ρ α} (hp : p.Keeps H S) : (flag p).Keeps H S :=
  keeps_orElse (keeps_map hp) keeps_pure

theorem keeps_seqRight {p : Peg R ρ α} {q : Peg R ρ β} (hp : p.Keeps H S) (hq : q.Keeps H S) : (p *> q).Keeps H S :=
  keeps_ap (keeps_map hp) hq

theorem avoids_map {p : Peg R ρ α} {f : α → β} (hp : p.Avoids H S) : (f <$> p).Avoids H S :=
  avoids_ap_right keeps_pure hp

theorem avoids_seq {f : Peg R ρ (α → β)} {p : Peg R ρ α} (hf : f.Avoids H S) : (f <*> p).Avoids H S :=
  avoids_ap_left hf

theorem avoids_seqLeft {p : Peg R ρ α} {q : Peg R ρ β} (hp : p.Avoids H S) : (p <* q).Avoids H S :=
  avoids_ap_left (avoids_map hp)

theorem avoids_seqRight {p : Peg R ρ α} {q : Peg R ρ β} (hp : p.Avoids H S) : (p *> q).Avoids H S :=
  avoids_ap_left (avoids_map hp)

theorem avoids_seqRight_keeps {p : Peg R ρ α} {q : Peg R ρ β} (hp : p.Keeps H S) (hq : q.Avoids H S) :
    (p *> q).Avoids H S :=
  avoids_ap_right (keeps_map hp) hq

theorem avoids_orElse {p q : Peg R ρ α} (hp : p.Avoids H S) (hq : q.Avoids H S) : (p <|> q).Avoids H S :=
  reads_orElse hp hq

theorem avoids_ahead {p : Peg R ρ α} (hp : p.Avoids H S) : (ahead p).Avoids H S := by
  intro recur hrecur c x d hread
  obtain ⟨s, hs, -⟩ := Option.map_eq_some_iff.1 hread
  exact hp recur hrecur c s.1 s.2 hs

theorem avoids_char {q : Char → Bool} (h : ∀ c, S c → c.rest.head?.any q = false) :
    (Peg.char q : Peg R ρ Char).Avoids H S :=
  reads_char fun c d x hrest _ hx hS => by simpa [hrest, hx] using h c hS

theorem avoids_text {a : Char} {as : List Char} {s : String} (hs : s.toList = a :: as)
    (h : ∀ c, S c → c.rest.head? ≠ some a) : (Peg.text s : Peg R ρ Unit).Avoids H S :=
  reads_text fun c d hrest _ hS => h c hS (by simp [hrest, hs])

/-! ## Values -/

variable {A : α → Prop} {B : β → Prop}

theorem ReadsGiven.unless {p : Peg R ρ α} (h : p.YieldsAlways H A) : p.YieldsUnless H S A :=
  h.imp fun _ _ _ hx _ => hx

theorem always_true (p : Peg R ρ α) : p.YieldsAlways H fun _ => True :=
  fun _ _ _ _ _ _ => trivial

theorem unless_map {p : Peg R ρ α} {f : α → β} (hp : p.YieldsUnless H S A) (hf : ∀ x, A x → B (f x)) :
    (f <$> p).YieldsUnless H S B :=
  reads_map (ReadsGiven.imp hp fun _ x _ hx hS => hf x (hx hS))

theorem unless_orElse {p q : Peg R ρ α} (hp : p.YieldsUnless H S A) (hq : q.YieldsUnless H S A) :
    (p <|> q).YieldsUnless H S A :=
  reads_orElse hp hq

theorem unless_opt {p : Peg R ρ α} (hp : p.YieldsUnless H S A) :
    (opt p).YieldsUnless H S fun r => ∀ x ∈ r, A x := by
  refine unless_orElse (unless_map hp ?_) (reads_pure fun _ _ => by simp)
  rintro x hx y ⟨⟩
  exact hx

theorem unless_seq {f : Peg R ρ (α → β)} {p : Peg R ρ α} (hf : f.YieldsAlways H fun g => ∀ x, A x → B (g x))
    (hp : p.YieldsUnless H S A) : (f <*> p).YieldsUnless H S B :=
  reads_ap (ReadsGiven.imp hf fun _ _ _ hg x _ hx hS => hg x (hx hS)) hp

theorem unless_seq_keeps {f : Peg R ρ (α → β)} {p : Peg R ρ α}
    (hf : f.YieldsUnless H S fun g => ∀ x, A x → B (g x)) (hp : p.YieldsUnless H S A) (hkeeps : p.Keeps H S) :
    (f <*> p).YieldsUnless H S B := by
  refine reads_ap (ReadsGiven.imp hf ?_) (ReadsGiven.and hp hkeeps)
  rintro c g d hg x e ⟨hx, hd⟩ hS
  exact hg (fun hSd => hS (hd hSd)) x (hx hS)

theorem always_seq_avoids {f : Peg R ρ (α → β)} {p : Peg R ρ α}
    (hf : f.YieldsUnless H S fun g => ∀ x, A x → B (g x)) (hp : p.YieldsAlways H A) (havoids : p.Avoids H S) :
    (f <*> p).YieldsAlways H B := by
  refine reads_ap (ReadsGiven.imp hf ?_) (ReadsGiven.and hp havoids)
  rintro c g d hg x e ⟨hx, hd⟩
  exact hg hd x hx

theorem unless_seqRight {p : Peg R ρ α} {q : Peg R ρ β} (hq : q.YieldsUnless H S B) : (p *> q).YieldsUnless H S B :=
  unless_seq (f := Function.const α id <$> p) (reads_map fun _ _ _ _ _ _ _ h => h) hq

theorem always_seqRight {p : Peg R ρ α} {q : Peg R ρ β} (hq : q.YieldsAlways H B) : (p *> q).YieldsAlways H B :=
  reads_seqRight (Q := fun _ y _ => B y) (fun _ _ _ _ _ _ _ _ h => h) hq

theorem always_seqLeft {p : Peg R ρ α} {q : Peg R ρ β} (hp : p.YieldsAlways H A) : (p <* q).YieldsAlways H A :=
  reads_seqLeft (Q := fun _ _ _ => True) (ReadsGiven.imp hp fun _ _ _ h _ _ _ => h) (always_true q)

theorem unless_seqLeft_keeps {p : Peg R ρ α} {q : Peg R ρ β} (hp : p.YieldsUnless H S A) (hkeeps : q.Keeps H S) :
    (p <* q).YieldsUnless H S A :=
  unless_seq_keeps (unless_map hp fun _ h _ _ => h) ((always_true q).unless) hkeeps

theorem always_seqLeft_avoids {p : Peg R ρ α} {q : Peg R ρ β} (hp : p.YieldsUnless H S A) (havoids : q.Avoids H S) :
    (p <* q).YieldsAlways H A :=
  always_seq_avoids (unless_map hp fun _ h _ _ => h) (always_true q) havoids

theorem unless_many {p : Peg R ρ α} (hp : p.YieldsUnless H S A) (hkeeps : p.Keeps H S) :
    (many p).YieldsUnless H S fun xs => ∀ x ∈ xs, A x := by
  have hboth : (many p).ReadsGiven H fun c xs d => (S c → S d) ∧ (¬ S d → ∀ x ∈ xs, A x) := by
    refine reads_many (ReadsGiven.and hp hkeeps) (fun c => ⟨fun h => h, by simp⟩) ?_
    rintro c x d xs e ⟨hx, hd⟩ ⟨he, hxs⟩
    exact ⟨fun hS => he (hd hS), fun hS => List.forall_mem_cons.2 ⟨hx fun hSd => hS (he hSd), hxs hS⟩⟩
  exact hboth.imp fun _ _ _ h => h.2

end LiquidTemplate.Peg
