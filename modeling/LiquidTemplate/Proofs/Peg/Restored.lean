import LiquidTemplate.Proofs.Peg.Stack
import LiquidTemplate.Proofs.Peg.Takes

/-!
# Stacks that are restored

An expression restores the stack if each of its matches ends with the pushed texts that it started with
(`Peg.RestoresStack`). What has nothing to do with the stack restores it (`restoresStack_of_stackFree`), and so does
what is built from expressions that do. Between `push` and `pop` the text pushed last decides what `peek` matches:
`p.TakesOn r top w rest x` says that `p` matches `w` before `rest` where that text is `top`.
-/

namespace LiquidTemplate.Peg

variable {R ρ α β : Type}

/-! ## The whole stack -/

/-- The nonterminal moves forward and leaves the stack as it finds it. -/
structure Neutral (recur : Cursor → Option (ρ × Cursor)) : Prop where
  forward : Forward recur
  stack : ∀ c x d, recur c = some (x, d) → d.stack = c.stack

theorem ReadsGiven.neutral {p : Peg R ρ α} {P : Cursor → α → Cursor → Prop} (h : p.ReadsGiven Forward P) :
    p.ReadsGiven Neutral P :=
  fun recur hrecur => h recur hrecur.forward

def RestoresStack (p : Peg R ρ α) : Prop :=
  p.ReadsGiven Neutral fun c _ d => d.stack = c.stack

theorem restoresStack_char {q : Char → Bool} : (Peg.char q : Peg R ρ Char).RestoresStack := by
  intro recur _ c x d hread
  rw [read_char] at hread
  split at hread
  · cases hread
  · split at hread
    · cases hread
      rfl
    · cases hread

theorem restoresStack_textNoCase {s : String} : (Peg.textNoCase s : Peg R ρ Unit).RestoresStack := by
  intro recur _ c x d hread
  simp only [read, Cursor.skipNoCase?] at hread
  split at hread
  · exact stack_of_skip? hread
  · cases hread

section

variable {p q : Peg R ρ α}

theorem RestoresStack.ap {f : Peg R ρ (α → β)} (hf : f.RestoresStack) (hp : p.RestoresStack) :
    (f.ap p).RestoresStack :=
  reads_ap (hf.imp fun _ _ _ h _ _ h' => h'.trans h) hp

theorem RestoresStack.map {f : α → β} (hp : p.RestoresStack) : (f <$> p).RestoresStack :=
  reads_map hp

theorem RestoresStack.seq {f : Peg R ρ (α → β)} (hf : f.RestoresStack) (hp : p.RestoresStack) :
    (f <*> p).RestoresStack :=
  hf.ap hp

theorem RestoresStack.orElse (hp : p.RestoresStack) (hq : q.RestoresStack) : (p <|> q).RestoresStack :=
  reads_orElse hp hq

theorem RestoresStack.many (hp : p.RestoresStack) : (many p).RestoresStack :=
  reads_many hp (fun _ => rfl) fun _ _ _ _ _ h h' => h'.trans h

end

theorem restoresStack_of_stackFree {p : Peg R ρ α} (h : p.stackFree = true) : p.RestoresStack := by
  induction p with
  | pure => exact reads_pure fun _ => rfl
  | char => exact restoresStack_char
  | text => exact fun _ _ _ _ _ hread => stack_of_skip? hread
  | textNoCase => exact restoresStack_textNoCase
  | done => exact reads_done fun _ _ => rfl
  | ap f p ihf ihp =>
    rw [stackFree, Bool.and_eq_true] at h
    exact (ihf h.1).ap (ihp h.2)
  | orElse p q ihp ihq =>
    rw [stackFree, Bool.and_eq_true] at h
    exact (ihp h.1).orElse (ihq h.2)
  | many p ih =>
    rw [stackFree, Bool.and_eq_true] at h
    exact (ih h.2).many
  | ahead => exact reads_ahead fun _ => rfl
  | notAhead => exact reads_notAhead fun _ _ _ => rfl
  | slice p ih => exact reads_slice (ih h)
  | rule name atomic p ih => exact ih h
  | recur => exact fun recur hrecur => hrecur.stack
  | push | peek | pop => cases h

theorem neutral_readNested {body : Peg R ρ ρ} (hbody : body.stackFree = true) (depth : Nat) :
    Neutral (readNested body depth) := by
  induction depth with
  | zero => exact ⟨forward_readNested body 0, fun _ _ _ h => nomatch h⟩
  | succ depth ih => exact ⟨forward_readNested body _, restoresStack_of_stackFree hbody _ ih⟩

theorem neutral_nested {body : Peg R ρ ρ} (hbody : body.stackFree = true) : Neutral (nested body) :=
  ⟨forward_nested body, fun c x d h => (neutral_readNested hbody _).stack c x d h⟩

/-! ## Between push and pop -/

theorem reads_push_charsTo {p : Peg R ρ α} (hp : p.RestoresStack) :
    (push p).ReadsGiven Neutral fun c _ d => d.stack = c.charsTo d :: c.stack := by
  intro recur hrecur c y d hread
  obtain ⟨⟨x, e⟩, hx, heq⟩ := Option.map_eq_some_iff.1 hread
  cases heq
  change c.charsTo e :: e.stack = _
  rw [hp recur hrecur c x e hx]
  rfl

theorem reads_peek : (peek : Peg R ρ Unit).ReadsGiven Neutral fun c _ d =>
    ∃ top stack, c.stack = top :: stack ∧ c.rest = top ++ d.rest ∧ d.stack = c.stack := by
  intro recur _ c y d hread
  rw [read_peek] at hread
  split at hread
  · cases hread
  next top stack hstack =>
    obtain ⟨e, he, heq⟩ := Option.map_eq_some_iff.1 hread
    cases heq
    exact ⟨top, stack, hstack, (Cursor.skip?_eq_some he).1, (Cursor.skip?_eq_some he).2.2⟩

theorem reads_pop : (pop : Peg R ρ Unit).ReadsGiven Neutral fun c _ d =>
    ∃ top, c.stack = top :: d.stack ∧ c.rest = top ++ d.rest := by
  intro recur _ c y d hread
  rw [read_pop] at hread
  split at hread
  · cases hread
  next top stack hstack =>
    obtain ⟨e, he, heq⟩ := Option.map_eq_some_iff.1 hread
    cases heq
    exact ⟨top, hstack, (Cursor.skip?_eq_some he).1⟩

/-- What is read up to a mark: at none of its characters the mark could be read. -/
theorem reads_upTo {stop : Peg R ρ α} {Q : Cursor → Prop} (hstop : ∀ recur c, stop.read recur c = none → Q c) :
    (upTo stop).ReadsGiven Neutral fun c w d => c.rest = w ++ d.rest ∧ d.offset = c.offset + Text.byteSize w ∧
      d.stack = c.stack ∧ ∀ u v, w = u ++ v → v ≠ [] → Q ⟨v ++ d.rest, c.offset + Text.byteSize u, c.stack⟩ := by
  have hany : (any : Peg R ρ Char).ReadsGiven Neutral fun c x d =>
      (c.rest = x :: d.rest ∧ d.offset = c.offset + x.utf8Size) ∧ d.stack = c.stack :=
    ReadsGiven.and (reads_char fun _ _ _ hrest hoffset _ => ⟨hrest, hoffset⟩) restoresStack_char
  have hstep : (.notAhead stop *> any : Peg R ρ Char).ReadsGiven Neutral fun c x d =>
      Q c ∧ (c.rest = x :: d.rest ∧ d.offset = c.offset + x.utf8Size) ∧ d.stack = c.stack :=
    reads_seqRight (reads_notAhead fun recur c hnone _ _ h => ⟨hstop recur c hnone, h⟩) hany
  refine reads_many hstep (fun c => ⟨rfl, rfl, rfl, ?_⟩) ?_
  · rintro u v hnil hne
    exact absurd (List.append_eq_nil_iff.1 hnil.symm).2 hne
  rintro c x d w e ⟨hQ, ⟨hrest, hoffset⟩, hstack⟩ ⟨hrest', hoffset', hstack', hw⟩
  refine ⟨by rw [hrest, hrest', List.cons_append], by rw [hoffset', hoffset, Text.byteSize, Nat.add_assoc],
    hstack'.trans hstack, ?_⟩
  intro u v huv hne
  cases u with
  | nil =>
    obtain rfl : x :: w = v := huv
    have hc : c = ⟨x :: w ++ e.rest, c.offset + Text.byteSize [], c.stack⟩ := by
      rw [List.cons_append, ← hrest', ← hrest]
      rfl
    rwa [hc] at hQ
  | cons y u =>
    obtain ⟨rfl, hsplit⟩ := List.cons.inj huv
    have hlater := hw u v hsplit hne
    rwa [hoffset, hstack, Nat.add_assoc] at hlater

theorem read_upTo {r : Cursor → Option (ρ × Cursor)} {stop : Peg R ρ α} {w rest : List Char} {stack : List (List Char)}
    (hinside : ∀ u v, w = u ++ v → v ≠ [] → ∀ offset, stop.read r ⟨v ++ rest, offset, stack⟩ = none)
    (hstop : ∀ offset, (stop.read r ⟨rest, offset, stack⟩).isSome = true) (offset : Nat) :
    (upTo stop).read r ⟨w ++ rest, offset, stack⟩ = some (w, ⟨rest, offset + Text.byteSize w, stack⟩) := by
  have hmany : ∀ fuel, w.length < fuel → readMany ((Peg.notAhead stop *> any).read r) fuel ⟨w ++ rest, offset, stack⟩ =
      (w, ⟨rest, offset + Text.byteSize w, stack⟩) := by
    induction w generalizing offset with
    | nil =>
      intro fuel hfuel
      obtain ⟨n, rfl⟩ : ∃ n, fuel = n + 1 := ⟨fuel - 1, by omega⟩
      rw [List.nil_append, readMany, read_seqRight, read_notAhead, if_pos (hstop offset)]
      rfl
    | cons a w ih =>
      intro fuel hfuel
      rw [List.length_cons] at hfuel
      obtain ⟨n, rfl⟩ : ∃ n, fuel = n + 1 := ⟨fuel - 1, by omega⟩
      have hnone := hinside [] (a :: w) rfl (by simp) offset
      have hchar : (any : Peg R ρ Char).read r ⟨a :: w ++ rest, offset, stack⟩ =
          some (a, ⟨w ++ rest, offset + a.utf8Size, stack⟩) := rfl
      have hlater := ih (fun u v huv => hinside (a :: u) v (by rw [huv, List.cons_append])) (offset + a.utf8Size) n
        (by omega)
      rw [readMany, read_seqRight, read_notAhead, hnone, if_neg (by simp), Option.bind_some, hchar]
      simp only [hlater, Text.byteSize, Nat.add_assoc]
  rw [upTo, read_many, hmany _ (by simp only [List.length_append]; omega)]

/-- An expression matches the text `w` before `rest` where `top` was pushed last. -/
def TakesOn (r : Cursor → Option (ρ × Cursor)) (top : List Char) (p : Peg R ρ α) (w rest : List Char) (x : α) : Prop :=
  ∀ offset stack, p.read r ⟨w ++ rest, offset, top :: stack⟩ =
    some (x, ⟨rest, offset + Text.byteSize w, top :: stack⟩)

section

variable {r : Cursor → Option (ρ × Cursor)} {top w rest : List Char}

theorem Takes.on {p : Peg R ρ α} {x : α} (h : p.Takes r w rest x) : p.TakesOn r top w rest x :=
  fun offset stack => h offset (top :: stack)

theorem takesOn_peek : (peek : Peg R ρ Unit).TakesOn r top top rest () := by
  intro offset stack
  have hstrip : Text.stripStart? top (top ++ rest) = some rest := Text.stripStart?_eq_some_iff.2 rfl
  simp [read_peek, Cursor.skip?, hstrip]

theorem takesOn_seqRight {p : Peg R ρ α} {q : Peg R ρ β} {u v : List Char} {x : α} {y : β}
    (hp : p.TakesOn r top u (v ++ rest) x) (hq : q.TakesOn r top v rest y) :
    (p *> q).TakesOn r top (u ++ v) rest y := by
  intro offset stack
  rw [read_seqRight, List.append_assoc, hp, Option.bind_some, hq, Text.byteSize_append, Nat.add_assoc]

end

end LiquidTemplate.Peg
