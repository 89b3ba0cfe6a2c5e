import LiquidTemplate.Peg.Parse

/-!
# Matching without notes

What an expression matches depends neither on the notes about attempts nor on the lookahead around it:
`Peg.read` matches without them and gives the same answer (`Peg.fst_parse`). A match steps forward over the
characters that it covers (`Cursor.StepsTo`). `p.Reads P` says that every match of `p` from a cursor with a
value to another cursor is as `P` says; one lemma for each way to build an expression carries such a
statement from the parts of a grammar to the whole. `p.ReadsGiven H P` assumes more of the recursive nonterminal.
-/

namespace LiquidTemplate

/-- A cursor some characters further on. -/
def Cursor.StepsTo (c d : Cursor) : Prop :=
  ∃ w, c.rest = w ++ d.rest ∧ d.offset = c.offset + Text.byteSize w

namespace Cursor.StepsTo

variable {c d e : Cursor}

theorem refl (c : Cursor) : c.StepsTo c :=
  ⟨[], rfl, rfl⟩

theorem trans (h : c.StepsTo d) (h' : d.StepsTo e) : c.StepsTo e := by
  obtain ⟨v, hv, hoffset⟩ := h
  obtain ⟨w, hw, hoffset'⟩ := h'
  refine ⟨v ++ w, by rw [hv, hw, List.append_assoc], ?_⟩
  rw [hoffset', hoffset, Text.byteSize_append, Nat.add_assoc]

theorem offset_le (h : c.StepsTo d) : c.offset ≤ d.offset := by
  obtain ⟨w, -, hoffset⟩ := h
  omega

theorem length_lt (h : c.StepsTo d) (hlt : c.offset < d.offset) : d.rest.length < c.rest.length := by
  obtain ⟨w, hw, hoffset⟩ := h
  cases w with
  | nil =>
    rw [Text.byteSize, Nat.add_zero] at hoffset
    omega
  | cons x w =>
    rw [hw, List.length_append, List.length_cons]
    omega

end Cursor.StepsTo

theorem Cursor.skip?_eq_some {c d : Cursor} {s : List Char} (h : c.skip? s = some d) :
    c.rest = s ++ d.rest ∧ d.offset = c.offset + Text.byteSize s ∧ d.stack = c.stack := by
  obtain ⟨rest, hrest, rfl⟩ := Option.map_eq_some_iff.1 h
  exact ⟨Text.stripStart?_eq_some_iff.1 hrest, rfl, rfl⟩

theorem Cursor.stepsTo_of_skip? {c d : Cursor} {s : List Char} (h : c.skip? s = some d) : c.StepsTo d :=
  ⟨s, (skip?_eq_some h).1, (skip?_eq_some h).2.1⟩

namespace Peg

variable {R ρ α β : Type}

/-! ## Reading -/

/-- Match a step again and again until it fails, at most `fuel` times. -/
def readMany (step : Cursor → Option (α × Cursor)) : Nat → Cursor → List α × Cursor
  | 0, c => ([], c)
  | fuel + 1, c =>
    match step c with
    | none => ([], c)
    | some (x, c) => (x :: (readMany step fuel c).1, (readMany step fuel c).2)

/-- Match an expression at a cursor, with `recur` for the recursive nonterminal. -/
def read (recur : Cursor → Option (ρ × Cursor)) : {α : Type} → Peg R ρ α → Cursor → Option (α × Cursor)
  | _, .pure x, c => some (x, c)
  | _, .char p, c =>
    match c.rest with
    | [] => none
    | x :: rest => if p x then some (x, { c with rest := rest, offset := c.offset + x.utf8Size }) else none
  | _, .text s, c => (c.skip? s.toList).map (((), ·))
  | _, .textNoCase s, c => (c.skipNoCase? s.toList).map (((), ·))
  | _, .done, c => if c.rest.isEmpty then some ((), c) else none
  | _, .ap f p, c => (f.read recur c).bind fun r => (p.read recur r.2).map fun s => (r.1 s.1, s.2)
  | _, .orElse p q, c => (p.read recur c).or (q.read recur c)
  | _, .many p, c => some (readMany (p.read recur) (c.rest.length + 1) c)
  | _, .ahead p, c => (p.read recur c).map fun _ => ((), c)
  | _, .notAhead p, c => if (p.read recur c).isSome then none else some ((), c)
  | _, .slice p, c => (p.read recur c).map fun s => ((c.sliceTo s.2, s.1), s.2)
  | _, .push p, c => (p.read recur c).map fun s => (s.1, { s.2 with stack := c.charsTo s.2 :: s.2.stack })
  | _, .peek, c =>
    match c.stack with
    | [] => none
    | s :: _ => (c.skip? s).map (((), ·))
  | _, .pop, c =>
    match c.stack with
    | [] => none
    | s :: stack => (c.skip? s).map fun d => ((), { d with stack := stack })
  | _, .rule _ _ p, c => p.read recur c
  | _, .recur, c => recur c

/-- Read the recursive nonterminal `body`, nested at most `depth` times in itself. -/
def readNested (body : Peg R ρ ρ) : Nat → Cursor → Option (ρ × Cursor)
  | 0, _ => none
  | depth + 1, c => body.read (readNested body depth) c

section

variable {recur : Cursor → Option (ρ × Cursor)} {p q : Peg R ρ α} {c : Cursor}

theorem read_char {f : Char → Bool} : (char f : Peg R ρ Char).read recur c =
    match c.rest with
    | [] => none
    | x :: rest => if f x then some (x, { c with rest := rest, offset := c.offset + x.utf8Size }) else none := rfl

theorem read_text {s : String} : (text s : Peg R ρ Unit).read recur c = (c.skip? s.toList).map (((), ·)) := rfl

theorem read_done : (done : Peg R ρ Unit).read recur c = if c.rest.isEmpty then some ((), c) else none := rfl

theorem read_orElse : (p <|> q).read recur c = (p.read recur c).or (q.read recur c) := rfl

theorem read_many : (many p).read recur c = some (readMany (p.read recur) (c.rest.length + 1) c) := rfl

theorem read_notAhead : (notAhead p).read recur c = if (p.read recur c).isSome then none else some ((), c) := rfl

theorem read_peek : (peek : Peg R ρ Unit).read recur c =
    match c.stack with
    | [] => none
    | s :: _ => (c.skip? s).map (((), ·)) := rfl

theorem read_pop : (pop : Peg R ρ Unit).read recur c =
    match c.stack with
    | [] => none
    | s :: stack => (c.skip? s).map fun d => ((), { d with stack := stack }) := rfl

theorem read_slice : (slice p).read recur c = (p.read recur c).map fun s => ((c.sliceTo s.2, s.1), s.2) := rfl

theorem read_map {f : α → β} : (f <$> p).read recur c = (p.read recur c).map fun s => (f s.1, s.2) := rfl

theorem read_seq {f : Peg R ρ (α → β)} : (f <*> p).read recur c =
    (f.read recur c).bind fun r => (p.read recur r.2).map fun s => (r.1 s.1, s.2) := rfl

theorem read_named {name : R} : (named name p).read recur c = p.read recur c := rfl

theorem read_opt : (opt p).read recur c = ((p.read recur c).map fun s => (some s.1, s.2)).or (some (none, c)) := rfl

theorem read_flag : (flag p).read recur c = ((p.read recur c).map fun s => (true, s.2)).or (some (false, c)) := rfl

theorem read_giving {x : β} : (giving x p).read recur c = (p.read recur c).map fun s => (x, s.2) := rfl

theorem read_seqRight {q : Peg R ρ β} : (p *> q).read recur c = (p.read recur c).bind fun r => q.read recur r.2 := by
  change ((p.read recur c).map fun s => (Function.const α id s.1, s.2)).bind _ = _
  cases p.read recur c with
  | none => rfl
  | some r =>
    change (q.read recur r.2).map (fun s => (s.1, s.2)) = q.read recur r.2
    cases q.read recur r.2 <;> rfl

theorem read_seqLeft {q : Peg R ρ β} : (p <* q).read recur c =
    (p.read recur c).bind fun r => (q.read recur r.2).map fun s => (r.1, s.2) := by
  change ((p.read recur c).map fun s => (Function.const β s.1, s.2)).bind _ = _
  cases p.read recur c with
  | none => rfl
  | some r => rfl

theorem read_many1_eq_none : (many1 p).read recur c = none ↔ p.read recur c = none := by
  change ((p.read recur c).map fun s => (List.cons s.1, s.2)).bind _ = none ↔ _
  cases p.read recur c with
  | none => simp
  | some r => simp [read_many]

end

theorem fst_parseMany {step : Cursor → Attempts R → Reply R α} {read : Cursor → Option (α × Cursor)}
    (h : ∀ c a, (step c a).1 = read c) (fuel : Nat) (c : Cursor) (a : Attempts R) :
    (parseMany step fuel c a).1 = readMany read fuel c := by
  induction fuel generalizing c a with
  | zero => rfl
  | succ fuel ih =>
    have hstep := h c a
    rw [parseMany, readMany, ← hstep]
    split
    next hnone => simp [hnone]
    next x d b hsome => simp [hsome, ← ih d b]

/-- **The notes do not change a match**: parsing gives the value and the rest that reading gives. -/
theorem fst_parse {recur : Mode → Cursor → Attempts R → Reply R ρ} {read' : Cursor → Option (ρ × Cursor)}
    (hrecur : ∀ m c a, (recur m c a).1 = read' c) (p : Peg R ρ α) (m : Mode) (c : Cursor) (a : Attempts R) :
    (p.parse recur m c a).1 = p.read read' c := by
  induction p generalizing m c a with
  | pure | text | textNoCase | done => rfl
  | char q =>
    simp only [parse, read]
    cases c.rest with
    | nil => rfl
    | cons x rest => by_cases hq : q x = true <;> simp [hq]
  | ap f p ihf ihp =>
    simp only [parse, read, ← ihf m c a]
    split
    next hf => simp [hf]
    next g d b hf =>
      simp only [hf, Option.bind_some, ← ihp m d b]
      split
      next hp => simp [hp]
      next x e b' hp => simp [hp]
  | orElse p q ihp ihq =>
    simp only [parse, read, ← ihp m c a]
    split
    next b hp => simp [hp, ihq]
    next r b hp => simp [hp]
  | many p ih =>
    simp only [parse, read, Option.some.injEq]
    exact fst_parseMany (fun c a => ih m c a) _ c a
  | ahead p ih => simp [parse, read, ih]
  | notAhead p ih => simp [parse, read, ih]
  | slice p ih => simp [parse, read, ih]
  | push p ih => simp [parse, read, ih]
  | peek =>
    simp only [parse, read]
    cases c.stack <;> rfl
  | pop =>
    simp only [parse, read]
    cases c.stack <;> rfl
  | rule name atomic p ih =>
    simp only [parse, read]
    split <;> exact ih _ c a
  | recur => exact hrecur m c a

theorem fst_parseNested (body : Peg R ρ ρ) (depth : Nat) (m : Mode) (c : Cursor) (a : Attempts R) :
    (parseNested body depth m c a).1 = readNested body depth c := by
  induction depth generalizing m c a with
  | zero => rfl
  | succ depth ih => exact fst_parse ih body m c a

/-! ## Statements about matches -/

/-- What a nonterminal matches lies ahead. -/
def Forward (recur : Cursor → Option (ρ × Cursor)) : Prop :=
  ∀ c x d, recur c = some (x, d) → c.StepsTo d

/-- Where the recursive nonterminal satisfies `H`, every match of an expression, from a cursor with a value to
another cursor, is as `P` says. -/
def ReadsGiven (H : (Cursor → Option (ρ × Cursor)) → Prop) (p : Peg R ρ α) (P : Cursor → α → Cursor → Prop) : Prop :=
  ∀ recur, H recur → ∀ c x d, p.read recur c = some (x, d) → P c x d

abbrev Reads (p : Peg R ρ α) (P : Cursor → α → Cursor → Prop) : Prop :=
  p.ReadsGiven Forward P

section

variable {H : (Cursor → Option (ρ × Cursor)) → Prop} {P : Cursor → α → Cursor → Prop} {Q : Cursor → β → Cursor → Prop}

theorem ReadsGiven.imp {p : Peg R ρ α} {P' : Cursor → α → Cursor → Prop} (h : p.ReadsGiven H P)
    (himp : ∀ c x d, P c x d → P' c x d) : p.ReadsGiven H P' :=
  fun recur hrecur c x d hread => himp c x d (h recur hrecur c x d hread)

theorem ReadsGiven.and {p : Peg R ρ α} {P' : Cursor → α → Cursor → Prop} (h : p.ReadsGiven H P)
    (h' : p.ReadsGiven H P') :
    p.ReadsGiven H fun c x d => P c x d ∧ P' c x d :=
  fun recur hrecur c x d hread => ⟨h recur hrecur c x d hread, h' recur hrecur c x d hread⟩

theorem reads_pure {x : α} (h : ∀ c, P c x c) : (Peg.pure x : Peg R ρ α).ReadsGiven H P := by
  intro recur _ c y d hread
  obtain ⟨rfl, rfl⟩ := Prod.mk.inj (Option.some.inj hread)
  exact h c

theorem reads_char {q : Char → Bool} {P : Cursor → Char → Cursor → Prop}
    (h : ∀ c d x, c.rest = x :: d.rest → d.offset = c.offset + x.utf8Size → q x = true → P c x d) :
    (Peg.char q : Peg R ρ Char).ReadsGiven H P := by
  intro recur _ c y d hread
  rw [read_char] at hread
  split at hread
  · cases hread
  next x rest hrest =>
    split at hread
    next hq =>
      cases hread
      exact h _ _ _ hrest rfl hq
    · cases hread

theorem reads_text {s : String} {P : Cursor → Unit → Cursor → Prop}
    (h : ∀ c d, c.rest = s.toList ++ d.rest → d.offset = c.offset + Text.byteSize s.toList → P c () d) :
    (Peg.text s : Peg R ρ Unit).ReadsGiven H P := by
  intro recur _ c y d hread
  obtain ⟨e, he, heq⟩ := Option.map_eq_some_iff.1 hread
  cases heq
  obtain ⟨hrest, hoffset, -⟩ := Cursor.skip?_eq_some he
  exact h c d hrest hoffset

theorem reads_done {P : Cursor → Unit → Cursor → Prop} (h : ∀ c, c.rest = [] → P c () c) :
    (Peg.done : Peg R ρ Unit).ReadsGiven H P := by
  intro recur _ c y d hread
  rw [read_done] at hread
  split at hread
  next hrest =>
    cases hread
    exact h c (List.isEmpty_iff.1 hrest)
  · cases hread

theorem reads_ap {f : Peg R ρ (α → β)} {p : Peg R ρ α} (hf : f.ReadsGiven H fun c g d => ∀ x e, P d x e → Q c (g x) e)
    (hp : p.ReadsGiven H P) : (f.ap p).ReadsGiven H Q := by
  intro recur hrecur c y e hread
  obtain ⟨⟨g, d⟩, hg, hread⟩ := Option.bind_eq_some_iff.1 hread
  obtain ⟨⟨x, e'⟩, hx, heq⟩ := Option.map_eq_some_iff.1 hread
  cases heq
  exact hf recur hrecur c g d hg x e' (hp recur hrecur d x e' hx)

theorem reads_map {p : Peg R ρ α} {f : α → β} (hp : p.ReadsGiven H fun c x d => Q c (f x) d) :
    (f <$> p).ReadsGiven H Q :=
  reads_ap (reads_pure fun _ _ _ h => h) hp

theorem reads_seq {f : Peg R ρ (α → β)} {p : Peg R ρ α} (hf : f.ReadsGiven H fun c g d => ∀ x e, P d x e → Q c (g x) e)
    (hp : p.ReadsGiven H P) : (f <*> p).ReadsGiven H Q :=
  reads_ap hf hp

theorem reads_seqLeft {p : Peg R ρ α} {q : Peg R ρ β} {P' : Cursor → α → Cursor → Prop}
    (hp : p.ReadsGiven H fun c x d => ∀ y e, Q d y e → P' c x e) (hq : q.ReadsGiven H Q) : (p <* q).ReadsGiven H P' :=
  reads_ap (reads_map (f := Function.const β) hp) hq

theorem reads_seqRight {p : Peg R ρ α} {q : Peg R ρ β} {Q' : Cursor → β → Cursor → Prop}
    (hp : p.ReadsGiven H fun c _ d => ∀ y e, Q d y e → Q' c y e) (hq : q.ReadsGiven H Q) : (p *> q).ReadsGiven H Q' :=
  reads_ap (reads_map (f := Function.const α id) hp) hq

theorem reads_orElse {p q : Peg R ρ α} (hp : p.ReadsGiven H P) (hq : q.ReadsGiven H P) : (p <|> q).ReadsGiven H P := by
  intro recur hrecur c x d hread
  rcases Option.or_eq_some_iff.1 hread with h | ⟨-, h⟩
  · exact hp recur hrecur c x d h
  · exact hq recur hrecur c x d h

theorem reads_opt {p : Peg R ρ α} {P' : Cursor → Option α → Cursor → Prop}
    (hp : p.ReadsGiven H fun c x d => P' c (some x) d) (hnone : ∀ c, P' c none c) : (opt p).ReadsGiven H P' :=
  reads_orElse (reads_map hp) (reads_pure hnone)

theorem readMany_induct {step : Cursor → Option (α × Cursor)} {P' : Cursor → List α → Cursor → Prop}
    (hnil : ∀ c, P' c [] c) (hcons : ∀ c x d xs e, step c = some (x, d) → P' d xs e → P' c (x :: xs) e)
    (fuel : Nat) (c : Cursor) : P' c (readMany step fuel c).1 (readMany step fuel c).2 := by
  induction fuel generalizing c with
  | zero => exact hnil c
  | succ fuel ih =>
    rw [readMany]
    split
    · exact hnil c
    next x d hstep => exact hcons c x d _ _ hstep (ih d)

theorem reads_many {p : Peg R ρ α} {P' : Cursor → List α → Cursor → Prop} (hp : p.ReadsGiven H P)
    (hnil : ∀ c, P' c [] c) (hcons : ∀ c x d xs e, P c x d → P' d xs e → P' c (x :: xs) e) :
    (many p).ReadsGiven H P' := by
  intro recur hrecur c xs d hread
  have hstep : ∀ c x d xs e, p.read recur c = some (x, d) → P' d xs e → P' c (x :: xs) e :=
    fun c x d xs e hx => hcons c x d xs e (hp recur hrecur c x d hx)
  have h := readMany_induct hnil hstep (c.rest.length + 1) c
  rw [read_many, Option.some.injEq] at hread
  rwa [hread] at h

theorem reads_ahead {p : Peg R ρ α} {P' : Cursor → Unit → Cursor → Prop} (h : ∀ c, P' c () c) :
    (ahead p).ReadsGiven H P' := by
  intro recur _ c y d hread
  obtain ⟨s, -, heq⟩ := Option.map_eq_some_iff.1 hread
  cases heq
  exact h c

theorem reads_notAhead {p : Peg R ρ α} {P' : Cursor → Unit → Cursor → Prop}
    (h : ∀ recur c, p.read recur c = none → P' c () c) : (notAhead p).ReadsGiven H P' := by
  intro recur _ c y d hread
  rw [read_notAhead] at hread
  split at hread
  · cases hread
  next hnone =>
    cases hread
    exact h recur c (by simpa using hnone)

theorem reads_slice {p : Peg R ρ α} {P' : Cursor → Slice × α → Cursor → Prop}
    (hp : p.ReadsGiven H fun c x d => P' c (c.sliceTo d, x) d) : (slice p).ReadsGiven H P' := by
  intro recur hrecur c y d hread
  obtain ⟨⟨x, e⟩, hx, heq⟩ := Option.map_eq_some_iff.1 hread
  cases heq
  exact hp recur hrecur c x e hx

theorem reads_push {p : Peg R ρ α} (hp : p.ReadsGiven H fun c x d => ∀ stack, P c x { d with stack := stack }) :
    (push p).ReadsGiven H P := by
  intro recur hrecur c y d hread
  obtain ⟨⟨x, e⟩, hx, heq⟩ := Option.map_eq_some_iff.1 hread
  cases heq
  exact hp recur hrecur c x e hx _

theorem reads_named {name : R} {p : Peg R ρ α} (hp : p.ReadsGiven H P) : (named name p).ReadsGiven H P :=
  hp

theorem reads_atom {name : R} {p : Peg R ρ α} (hp : p.ReadsGiven H P) : (atom name p).ReadsGiven H P :=
  hp

end

/-! ## Progress -/

theorem stepsTo_char {q : Char → Bool} : (Peg.char q : Peg R ρ Char).Reads fun c _ d => c.StepsTo d :=
  reads_char fun _ _ x hrest hoffset _ => ⟨[x], hrest, by simpa [Text.byteSize] using hoffset⟩

/-- **A match steps forward.** -/
theorem reads_stepsTo (p : Peg R ρ α) : p.Reads fun c _ d => c.StepsTo d := by
  induction p with
  | pure => exact reads_pure Cursor.StepsTo.refl
  | char => exact stepsTo_char
  | text s => exact reads_text fun _ _ hrest hoffset => ⟨_, hrest, hoffset⟩
  | textNoCase s =>
    intro recur _ c y d hread
    obtain ⟨e, he, heq⟩ := Option.map_eq_some_iff.1 hread
    cases heq
    simp only [Cursor.skipNoCase?] at he
    split at he
    · exact Cursor.stepsTo_of_skip? he
    · cases he
  | done => exact reads_done fun c _ => .refl c
  | ap f p ihf ihp => exact reads_ap (ihf.imp fun _ _ _ h _ _ h' => h.trans h') ihp
  | orElse p q ihp ihq => exact reads_orElse ihp ihq
  | many p ih => exact reads_many ih Cursor.StepsTo.refl fun _ _ _ _ _ h h' => h.trans h'
  | ahead p => exact reads_ahead Cursor.StepsTo.refl
  | notAhead p => exact reads_notAhead fun _ c _ => .refl c
  | slice p ih => exact reads_slice ih
  | push p ih => exact reads_push (ih.imp fun _ _ _ h _ => h)
  | peek =>
    intro recur _ c y d hread
    rw [read_peek] at hread
    split at hread
    · cases hread
    · obtain ⟨e, he, heq⟩ := Option.map_eq_some_iff.1 hread
      cases heq
      exact Cursor.stepsTo_of_skip? he
  | pop =>
    intro recur _ c y d hread
    rw [read_pop] at hread
    split at hread
    · cases hread
    · obtain ⟨e, he, heq⟩ := Option.map_eq_some_iff.1 hread
      cases heq
      obtain ⟨w, hw, hoffset⟩ := Cursor.stepsTo_of_skip? he
      exact ⟨w, hw, hoffset⟩
  | rule name atomic p ih => exact ih
  | recur => exact fun recur hrecur => hrecur

/-- Every match covers at least one character. -/
def Consumes (p : Peg R ρ α) : Prop :=
  p.Reads fun c _ d => c.offset < d.offset

theorem reads_true (p : Peg R ρ α) : p.Reads fun _ _ _ => True :=
  fun _ _ _ _ _ _ => trivial

theorem reads_offset_le (p : Peg R ρ α) : p.Reads fun c _ d => c.offset ≤ d.offset :=
  (reads_stepsTo p).imp fun _ _ _ h => h.offset_le

theorem consumes_char {q : Char → Bool} : (Peg.char q : Peg R ρ Char).Consumes :=
  reads_char fun c d x _ hoffset _ => by
    have := x.utf8Size_pos
    omega

theorem consumes_text {s : String} (h : s.toList ≠ []) : (Peg.text s : Peg R ρ Unit).Consumes := by
  obtain ⟨x, xs, hs⟩ := List.exists_cons_of_ne_nil h
  obtain ⟨n, hn⟩ := Text.exists_byteSize_cons x xs
  refine reads_text fun c d _ hoffset => ?_
  rw [hs, hn] at hoffset
  omega

theorem consumes_ap_left {f : Peg R ρ (α → β)} {p : Peg R ρ α} (hf : f.Consumes) : (f.ap p).Consumes :=
  reads_ap (hf.imp fun _ _ _ hlt _ _ hle => Nat.lt_of_lt_of_le hlt hle) (reads_offset_le p)

theorem consumes_ap_right {f : Peg R ρ (α → β)} {p : Peg R ρ α} (hp : p.Consumes) : (f.ap p).Consumes :=
  reads_ap ((reads_offset_le f).imp fun _ _ _ hle _ _ hlt => Nat.lt_of_le_of_lt hle hlt) hp

theorem consumes_map {p : Peg R ρ α} {f : α → β} (hp : p.Consumes) : (f <$> p).Consumes :=
  consumes_ap_right hp

theorem consumes_seq {f : Peg R ρ (α → β)} {p : Peg R ρ α} (hf : f.Consumes) : (f <*> p).Consumes :=
  consumes_ap_left hf

theorem consumes_seqLeft {p : Peg R ρ α} {q : Peg R ρ β} (hp : p.Consumes) : (p <* q).Consumes :=
  consumes_ap_left (consumes_map hp)

theorem consumes_seqRight {p : Peg R ρ α} {q : Peg R ρ β} (hp : p.Consumes) : (p *> q).Consumes :=
  consumes_ap_left (consumes_map hp)

theorem consumes_many1 {p : Peg R ρ α} (hp : p.Consumes) : (many1 p).Consumes :=
  consumes_seq (consumes_map hp)

theorem readMany_stops {step : Cursor → Option (α × Cursor)}
    (hstep : ∀ c x d, step c = some (x, d) → d.rest.length < c.rest.length) (fuel : Nat) (c : Cursor)
    (hfuel : c.rest.length < fuel) : step (readMany step fuel c).2 = none := by
  induction fuel generalizing c with
  | zero => omega
  | succ fuel ih =>
    rw [readMany]
    split
    next hnone => exact hnone
    next x d hsome =>
      have := hstep c x d hsome
      exact ih d (by omega)

/-- Repetition goes on as long as it can: where it ends, the expression does not match. -/
theorem reads_many_stops {p : Peg R ρ α} {Q : Cursor → Prop} (hp : p.Consumes)
    (hQ : ∀ recur, Forward recur → ∀ d, p.read recur d = none → Q d) : (many p).Reads fun _ _ d => Q d := by
  intro recur hrecur c xs d hread
  have hstep : ∀ c x d, p.read recur c = some (x, d) → d.rest.length < c.rest.length :=
    fun c x d h => (reads_stepsTo p recur hrecur c x d h).length_lt (hp recur hrecur c x d h)
  have hstops := readMany_stops hstep (c.rest.length + 1) c (Nat.lt_succ_self _)
  rw [read_many, Option.some.injEq] at hread
  rw [hread] at hstops
  exact hQ recur hrecur d hstops

theorem forward_readNested (body : Peg R ρ ρ) (depth : Nat) : Forward (readNested body depth) := by
  induction depth with
  | zero =>
    intro c x d hread
    cases hread
  | succ depth ih => exact reads_stepsTo body _ ih

theorem fst_run (body : Peg R ρ ρ) (p : Peg R ρ α) (s : List Char) :
    (run body p s).1 = p.read (readNested body (s.length + 1)) (.ofText s) :=
  fst_parse (fun m c a => fst_parseNested body (s.length + 1) m c a) p {} (.ofText s) {}

theorem read_of_run {p : Peg R ρ α} {body : Peg R ρ ρ} {s : List Char} {x : α} {d : Cursor} {a : Attempts R}
    (h : run body p s = (some (x, d), a)) : p.read (readNested body (s.length + 1)) (.ofText s) = some (x, d) := by
  rw [← fst_run]
  exact congrArg Prod.fst h

theorem ReadsGiven.of_run {H : (Cursor → Option (ρ × Cursor)) → Prop} {p : Peg R ρ α}
    {P : Cursor → α → Cursor → Prop} (hp : p.ReadsGiven H P) {body : Peg R ρ ρ}
    (hbody : ∀ depth, H (readNested body depth))
    {s : List Char} {x : α} {d : Cursor} {a : Attempts R} (h : run body p s = (some (x, d), a)) : P (.ofText s) x d :=
  hp _ (hbody _) _ _ _ (read_of_run h)

theorem Reads.of_run {p : Peg R ρ α} {P : Cursor → α → Cursor → Prop} (hp : p.Reads P) {body : Peg R ρ ρ}
    {s : List Char} {x : α} {d : Cursor} {a : Attempts R} (h : run body p s = (some (x, d), a)) :
    P (.ofText s) x d :=
  ReadsGiven.of_run hp (forward_readNested body) h

end Peg

end LiquidTemplate
