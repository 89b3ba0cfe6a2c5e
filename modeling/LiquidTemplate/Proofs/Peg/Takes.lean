import LiquidTemplate.Proofs.Peg.Read

/-!
# Expressions on known texts

What an expression does with a text that is given. `p.Takes r w rest x` says that `p` matches exactly `w` where
`rest` follows, with the value `x`, and `p.Refuses r s` that it does not match at the start of `s`; both hold at
every offset and leave the pushed texts alone. What follows a match is part of the statement because repetition and
lookahead depend on it. One lemma for each way to build an expression composes such statements.
-/

namespace LiquidTemplate.Peg

variable {R ρ α β : Type} {r : Cursor → Option (ρ × Cursor)}

/-- An expression matches the text `w` before `rest`. -/
def Takes (r : Cursor → Option (ρ × Cursor)) (p : Peg R ρ α) (w rest : List Char) (x : α) : Prop :=
  ∀ offset stack, p.read r ⟨w ++ rest, offset, stack⟩ = some (x, ⟨rest, offset + Text.byteSize w, stack⟩)

/-- An expression does not match at the start of a text. -/
def Refuses (r : Cursor → Option (ρ × Cursor)) (p : Peg R ρ α) (s : List Char) : Prop :=
  ∀ offset stack, p.read r ⟨s, offset, stack⟩ = none

theorem Takes.read {p : Peg R ρ α} {w rest : List Char} {x : α} {c : Cursor} (h : p.Takes r w rest x)
    (hc : c.rest = w ++ rest) : p.read r c = some (x, ⟨rest, c.offset + Text.byteSize w, c.stack⟩) := by
  have hread := h c.offset c.stack
  rwa [← hc] at hread

theorem Refuses.read {p : Peg R ρ α} {c : Cursor} (h : p.Refuses r c.rest) : p.read r c = none :=
  h c.offset c.stack

/-! ## Characters and texts -/

theorem takes_pure {x : α} {rest : List Char} : (Peg.pure x : Peg R ρ α).Takes r [] rest x :=
  fun _ _ => rfl

theorem takes_char {q : Char → Bool} {a : Char} {rest : List Char} (h : q a = true) :
    (Peg.char q : Peg R ρ Char).Takes r [a] rest a := by
  intro offset stack
  simp [read_char, h, Text.byteSize]

theorem refuses_char {q : Char → Bool} {s : List Char} (h : s.head?.any q = false) :
    (Peg.char q : Peg R ρ Char).Refuses r s := by
  intro offset stack
  cases s with
  | nil => rfl
  | cons a s =>
    have ha : q a = false := h
    simp [read_char, ha]

theorem takes_text {s : String} {rest : List Char} : (Peg.text s : Peg R ρ Unit).Takes r s.toList rest () := by
  intro offset stack
  have hstrip : Text.stripStart? s.toList (s.toList ++ rest) = some rest := Text.stripStart?_eq_some_iff.2 rfl
  simp [read_text, Cursor.skip?, hstrip]

theorem refuses_text {s : String} {cs : List Char} (h : Text.stripStart? s.toList cs = none) :
    (Peg.text s : Peg R ρ Unit).Refuses r cs := by
  intro offset stack
  simp [read_text, Cursor.skip?, h]

/-! ## Sequences -/

theorem takes_ap {f : Peg R ρ (α → β)} {p : Peg R ρ α} {u v rest : List Char} {g : α → β} {x : α}
    (hf : f.Takes r u (v ++ rest) g) (hp : p.Takes r v rest x) : (f.ap p).Takes r (u ++ v) rest (g x) := by
  intro offset stack
  have hf' := hf offset stack
  have hp' := hp (offset + Text.byteSize u) stack
  rw [List.append_assoc, Text.byteSize_append, ← Nat.add_assoc]
  change ((f.read r _).bind fun m => (p.read r m.2).map fun s => (m.1 s.1, s.2)) = _
  rw [hf', Option.bind_some, hp', Option.map_some]

theorem takes_map {p : Peg R ρ α} {f : α → β} {w rest : List Char} {x : α} (hp : p.Takes r w rest x) :
    (f <$> p).Takes r w rest (f x) :=
  takes_ap (u := []) takes_pure hp

theorem takes_giving {p : Peg R ρ α} {y : β} {w rest : List Char} {x : α} (hp : p.Takes r w rest x) :
    (giving y p).Takes r w rest y :=
  takes_map hp

theorem takes_seq {f : Peg R ρ (α → β)} {p : Peg R ρ α} {u v rest : List Char} {g : α → β} {x : α}
    (hf : f.Takes r u (v ++ rest) g) (hp : p.Takes r v rest x) : (f <*> p).Takes r (u ++ v) rest (g x) :=
  takes_ap hf hp

theorem takes_seqLeft {p : Peg R ρ α} {q : Peg R ρ β} {u v rest : List Char} {x : α} {y : β}
    (hp : p.Takes r u (v ++ rest) x) (hq : q.Takes r v rest y) : (p <* q).Takes r (u ++ v) rest x :=
  takes_ap (takes_map (f := Function.const β) hp) hq

theorem takes_seqRight {p : Peg R ρ α} {q : Peg R ρ β} {u v rest : List Char} {x : α} {y : β}
    (hp : p.Takes r u (v ++ rest) x) (hq : q.Takes r v rest y) : (p *> q).Takes r (u ++ v) rest y :=
  takes_ap (takes_map (f := Function.const α id) hp) hq

theorem refuses_ap_left {f : Peg R ρ (α → β)} {p : Peg R ρ α} {s : List Char} (hf : f.Refuses r s) :
    (f.ap p).Refuses r s := by
  intro offset stack
  change ((f.read r _).bind _) = none
  rw [hf offset stack, Option.bind_none]

theorem refuses_ap_right {f : Peg R ρ (α → β)} {p : Peg R ρ α} {u s : List Char} {g : α → β}
    (hf : f.Takes r u s g) (hp : p.Refuses r s) : (f.ap p).Refuses r (u ++ s) := by
  intro offset stack
  change ((f.read r _).bind fun m => (p.read r m.2).map fun s => (m.1 s.1, s.2)) = none
  rw [hf offset stack, Option.bind_some, hp, Option.map_none]

theorem refuses_map {p : Peg R ρ α} {f : α → β} {s : List Char} (hp : p.Refuses r s) :
    (f <$> p).Refuses r s :=
  refuses_ap_right (u := []) takes_pure hp

theorem refuses_giving {p : Peg R ρ α} {y : β} {s : List Char} (hp : p.Refuses r s) :
    (giving y p).Refuses r s :=
  refuses_map hp

theorem refuses_seq_left {f : Peg R ρ (α → β)} {p : Peg R ρ α} {s : List Char} (hf : f.Refuses r s) :
    (f <*> p).Refuses r s :=
  refuses_ap_left hf

theorem refuses_seq_right {f : Peg R ρ (α → β)} {p : Peg R ρ α} {u s : List Char} {g : α → β}
    (hf : f.Takes r u s g) (hp : p.Refuses r s) : (f <*> p).Refuses r (u ++ s) :=
  refuses_ap_right hf hp

theorem refuses_seqLeft_left {p : Peg R ρ α} {q : Peg R ρ β} {s : List Char} (hp : p.Refuses r s) :
    (p <* q).Refuses r s :=
  refuses_ap_left (refuses_map hp)

theorem refuses_seqLeft_right {p : Peg R ρ α} {q : Peg R ρ β} {u s : List Char} {x : α} (hp : p.Takes r u s x)
    (hq : q.Refuses r s) : (p <* q).Refuses r (u ++ s) :=
  refuses_ap_right (takes_map (f := Function.const β) hp) hq

theorem refuses_seqRight_left {p : Peg R ρ α} {q : Peg R ρ β} {s : List Char} (hp : p.Refuses r s) :
    (p *> q).Refuses r s :=
  refuses_ap_left (refuses_map hp)

theorem refuses_seqRight_right {p : Peg R ρ α} {q : Peg R ρ β} {u s : List Char} {x : α} (hp : p.Takes r u s x)
    (hq : q.Refuses r s) : (p *> q).Refuses r (u ++ s) :=
  refuses_ap_right (takes_map (f := Function.const α id) hp) hq

/-! ## Choice -/

theorem takes_orElse_left {p q : Peg R ρ α} {w rest : List Char} {x : α} (hp : p.Takes r w rest x) :
    (p <|> q).Takes r w rest x := by
  intro offset stack
  rw [read_orElse, hp offset stack, Option.some_or]

theorem takes_orElse_right {p q : Peg R ρ α} {w rest : List Char} {x : α} (hp : p.Refuses r (w ++ rest))
    (hq : q.Takes r w rest x) : (p <|> q).Takes r w rest x := by
  intro offset stack
  rw [read_orElse, hp offset stack, Option.none_or, hq offset stack]

theorem refuses_orElse {p q : Peg R ρ α} {s : List Char} (hp : p.Refuses r s) (hq : q.Refuses r s) :
    (p <|> q).Refuses r s := by
  intro offset stack
  rw [read_orElse, hp offset stack, Option.none_or, hq offset stack]

theorem takes_opt_some {p : Peg R ρ α} {w rest : List Char} {x : α} (hp : p.Takes r w rest x) :
    (opt p).Takes r w rest (some x) :=
  takes_orElse_left (takes_map hp)

theorem takes_opt_none {p : Peg R ρ α} {rest : List Char} (hp : p.Refuses r rest) :
    (opt p).Takes r [] rest none :=
  takes_orElse_right (refuses_map hp) takes_pure

theorem takes_flag_true {p : Peg R ρ α} {w rest : List Char} {x : α} (hp : p.Takes r w rest x) :
    (flag p).Takes r w rest true :=
  takes_orElse_left (takes_giving hp)

theorem takes_flag_false {p : Peg R ρ α} {rest : List Char} (hp : p.Refuses r rest) :
    (flag p).Takes r [] rest false :=
  takes_orElse_right (refuses_giving hp) takes_pure

/-! ## Lookahead -/

theorem takes_ahead {p : Peg R ρ α} {w rest : List Char} {x : α} (hp : p.Takes r w rest x) :
    (ahead p).Takes r [] (w ++ rest) () := by
  intro offset stack
  change ((p.read r _).map _) = _
  rw [List.nil_append, hp offset stack]
  rfl

theorem takes_notAhead {p : Peg R ρ α} {rest : List Char} (hp : p.Refuses r rest) :
    (notAhead p).Takes r [] rest () := by
  intro offset stack
  rw [List.nil_append, read_notAhead, hp offset stack]
  rfl

theorem refuses_notAhead {p : Peg R ρ α} {w rest : List Char} {x : α} (hp : p.Takes r w rest x) :
    (notAhead p).Refuses r (w ++ rest) := by
  intro offset stack
  rw [read_notAhead, hp offset stack]
  rfl

/-! ## Repetition -/

/-- Repetition matches `w` before `rest`, with any fuel that exceeds the number of characters. -/
def TakesMany (r : Cursor → Option (ρ × Cursor)) (p : Peg R ρ α) (w rest : List Char) (xs : List α) : Prop :=
  ∀ fuel offset stack, (w ++ rest).length < fuel →
    readMany (p.read r) fuel ⟨w ++ rest, offset, stack⟩ = (xs, ⟨rest, offset + Text.byteSize w, stack⟩)

theorem takesMany_nil {p : Peg R ρ α} {rest : List Char} (hp : p.Refuses r rest) :
    p.TakesMany r [] rest [] := by
  intro fuel offset stack hfuel
  cases fuel with
  | zero => omega
  | succ fuel =>
    rw [List.nil_append, readMany, hp offset stack]
    rfl

theorem takesMany_cons {p : Peg R ρ α} {u v rest : List Char} {x : α} {xs : List α} (hu : u ≠ [])
    (hp : p.Takes r u (v ++ rest) x) (hxs : p.TakesMany r v rest xs) :
    p.TakesMany r (u ++ v) rest (x :: xs) := by
  intro fuel offset stack hfuel
  have hpos : 0 < u.length := List.length_pos_iff.2 hu
  rw [List.append_assoc, List.length_append] at hfuel
  cases fuel with
  | zero => omega
  | succ fuel =>
    rw [List.append_assoc, readMany, hp offset stack, Text.byteSize_append, ← Nat.add_assoc]
    simp only [hxs fuel (offset + Text.byteSize u) stack (by omega)]

theorem TakesMany.takes {p : Peg R ρ α} {w rest : List Char} {xs : List α} (h : p.TakesMany r w rest xs) :
    (many p).Takes r w rest xs := by
  intro offset stack
  rw [read_many, h _ offset stack (Nat.lt_succ_self _)]

/-- Items one after the other. Each of them ends what stands before it, in the sense `F`, as what follows them does. -/
theorem takesMany_each {γ : Type} {p : Peg R ρ α} {F : List Char → Prop} {text : γ → List Char} {value : γ → α}
    {xs : List γ} {rest : List Char} (hitem : ∀ x ∈ xs, ∀ rest, F rest → p.Takes r (text x) rest (value x))
    (hne : ∀ x ∈ xs, text x ≠ []) (hends : ∀ x ∈ xs, ∀ rest, F (text x ++ rest)) (hrest : F rest)
    (hstop : p.Refuses r rest) : p.TakesMany r (xs.flatMap text) rest (xs.map value) ∧ F (xs.flatMap text ++ rest) := by
  induction xs with
  | nil => exact ⟨takesMany_nil hstop, hrest⟩
  | cons x xs ih =>
    obtain ⟨hx, hxs⟩ := List.forall_mem_cons.1 hitem
    obtain ⟨hnex, hnexs⟩ := List.forall_mem_cons.1 hne
    obtain ⟨hendsx, hendsxs⟩ := List.forall_mem_cons.1 hends
    obtain ⟨hmany, hF⟩ := ih hxs hnexs hendsxs
    rw [List.flatMap_cons, List.append_assoc]
    exact ⟨takesMany_cons hnex (hx _ hF) hmany, hendsx _⟩

theorem takes_many1 {p : Peg R ρ α} {u v rest : List Char} {x : α} {xs : List α}
    (hp : p.Takes r u (v ++ rest) x) (hxs : p.TakesMany r v rest xs) :
    (many1 p).Takes r (u ++ v) rest (x :: xs) :=
  takes_seq (takes_map hp) hxs.takes

theorem refuses_many1 {p : Peg R ρ α} {s : List Char} (hp : p.Refuses r s) : (many1 p).Refuses r s :=
  refuses_seq_left (refuses_map hp)

theorem head?_dropWhile (q : Char → Bool) (cs : List Char) : (cs.dropWhile q).head?.any q = false := by
  induction cs with
  | nil => rfl
  | cons a cs ih =>
    rw [List.dropWhile_cons]
    split
    · exact ih
    next ha => simpa using ha

theorem takesMany_char {q : Char → Bool} {w rest : List Char} (hw : w.all q = true) (hrest : rest.head?.any q = false) :
    (Peg.char q : Peg R ρ Char).TakesMany r w rest w := by
  induction w with
  | nil => exact takesMany_nil (refuses_char hrest)
  | cons a w ih =>
    rw [List.all_cons, Bool.and_eq_true] at hw
    exact takesMany_cons (u := [a]) (by simp) (takes_char hw.1) (ih hw.2)

/-! ## Covered texts and rules -/

theorem charsTo_append (w rest : List Char) (offset offset' : Nat) (stack stack' : List (List Char)) :
    Cursor.charsTo ⟨w ++ rest, offset, stack⟩ ⟨rest, offset', stack'⟩ = w := by
  simp [Cursor.charsTo]

theorem takes_covered {p : Peg R ρ α} {w rest : List Char} {x : α} (hp : p.Takes r w rest x) :
    (covered p).Takes r w rest (String.ofList w) := by
  intro offset stack
  change ((p.read r _).map _).map _ = _
  rw [hp offset stack]
  simp [Cursor.sliceTo, charsTo_append]

theorem refuses_slice {p : Peg R ρ α} {s : List Char} (hp : p.Refuses r s) : (slice p).Refuses r s := by
  intro offset stack
  change ((p.read r _).map _) = _
  rw [hp offset stack, Option.map_none]

theorem refuses_covered {p : Peg R ρ α} {s : List Char} (hp : p.Refuses r s) : (covered p).Refuses r s :=
  refuses_map (refuses_slice hp)

theorem refuses_push {p : Peg R ρ α} {s : List Char} (hp : p.Refuses r s) : (push p).Refuses r s := by
  intro offset stack
  change ((p.read r _).map _) = _
  rw [hp offset stack, Option.map_none]

theorem takes_named {name : R} {p : Peg R ρ α} {w rest : List Char} {x : α} (hp : p.Takes r w rest x) :
    (named name p).Takes r w rest x :=
  hp

theorem takes_atom {name : R} {p : Peg R ρ α} {w rest : List Char} {x : α} (hp : p.Takes r w rest x) :
    (atom name p).Takes r w rest x :=
  hp

theorem refuses_named {name : R} {p : Peg R ρ α} {s : List Char} (hp : p.Refuses r s) :
    (named name p).Refuses r s :=
  hp

theorem refuses_atom {name : R} {p : Peg R ρ α} {s : List Char} (hp : p.Refuses r s) :
    (atom name p).Refuses r s :=
  hp

/-! ## Values that hold an offset -/

/-- An expression matches the text `w` before `rest`, with a value that depends on where the text stands. -/
def TakesAt (r : Cursor → Option (ρ × Cursor)) (p : Peg R ρ α) (w rest : List Char) (x : Nat → α) : Prop :=
  ∀ offset stack, p.read r ⟨w ++ rest, offset, stack⟩ = some (x offset, ⟨rest, offset + Text.byteSize w, stack⟩)

theorem takesAt_map {p : Peg R ρ α} {f : α → β} {w rest : List Char} {x : Nat → α} (hp : p.TakesAt r w rest x) :
    (f <$> p).TakesAt r w rest fun offset => f (x offset) := by
  intro offset stack
  rw [read_map, hp offset stack, Option.map_some]

theorem takesAt_named {name : R} {p : Peg R ρ α} {w rest : List Char} {x : Nat → α} (hp : p.TakesAt r w rest x) :
    (named name p).TakesAt r w rest x :=
  hp

theorem takesAt_orElse_left {p q : Peg R ρ α} {w rest : List Char} {x : Nat → α} (hp : p.TakesAt r w rest x) :
    (p <|> q).TakesAt r w rest x := by
  intro offset stack
  rw [read_orElse, hp offset stack, Option.some_or]

theorem takesAt_orElse_right {p q : Peg R ρ α} {w rest : List Char} {x : Nat → α} (hp : p.Refuses r (w ++ rest))
    (hq : q.TakesAt r w rest x) : (p <|> q).TakesAt r w rest x := by
  intro offset stack
  rw [read_orElse, hp offset stack, Option.none_or, hq offset stack]

theorem Takes.takesAt {p : Peg R ρ α} {w rest : List Char} {x : α} (hp : p.Takes r w rest x) :
    p.TakesAt r w rest fun _ => x :=
  hp

theorem takesAt_seq {f : Peg R ρ (α → β)} {p : Peg R ρ α} {u v rest : List Char} {g : Nat → α → β} {x : Nat → α}
    (hf : f.TakesAt r u (v ++ rest) g) (hp : p.TakesAt r v rest x) :
    (f <*> p).TakesAt r (u ++ v) rest fun offset => g offset (x (offset + Text.byteSize u)) := by
  intro offset stack
  rw [List.append_assoc, read_seq, hf offset stack, Option.bind_some, hp, Option.map_some, Text.byteSize_append,
    Nat.add_assoc]

theorem takesAt_seqLeft {p : Peg R ρ α} {q : Peg R ρ β} {u v rest : List Char} {x : Nat → α} {y : Nat → β}
    (hp : p.TakesAt r u (v ++ rest) x) (hq : q.TakesAt r v rest y) : (p <* q).TakesAt r (u ++ v) rest x := by
  intro offset stack
  rw [List.append_assoc, read_seqLeft, hp offset stack, Option.bind_some, hq, Option.map_some, Text.byteSize_append,
    Nat.add_assoc]

theorem takesAt_seqRight {p : Peg R ρ α} {q : Peg R ρ β} {u v rest : List Char} {x : Nat → α} {y : Nat → β}
    (hp : p.TakesAt r u (v ++ rest) x) (hq : q.TakesAt r v rest y) :
    (p *> q).TakesAt r (u ++ v) rest fun offset => y (offset + Text.byteSize u) := by
  intro offset stack
  rw [List.append_assoc, read_seqRight, hp offset stack, Option.bind_some, hq, Text.byteSize_append, Nat.add_assoc]

theorem refuses_seqLeft_of_takesAt {p : Peg R ρ α} {q : Peg R ρ β} {u s : List Char} {x : Nat → α}
    (hp : p.TakesAt r u s x) (hq : q.Refuses r s) : (p <* q).Refuses r (u ++ s) := by
  intro offset stack
  rw [read_seqLeft, hp offset stack, Option.bind_some, hq, Option.map_none]

theorem takesAt_slice {p : Peg R ρ α} {w rest : List Char} {x : Nat → α} (hp : p.TakesAt r w rest x) :
    (slice p).TakesAt r w rest fun offset =>
      (⟨⟨offset, offset + Text.byteSize w⟩, String.ofList w⟩, x offset) := by
  intro offset stack
  rw [read_slice, hp offset stack, Option.map_some, Cursor.sliceTo, charsTo_append]

theorem takesAt_many_single {p : Peg R ρ α} {w rest : List Char} {x : Nat → α} (hw : w ≠ [])
    (hp : p.TakesAt r w rest x) (hrest : p.Refuses r rest) : (many p).TakesAt r w rest fun offset => [x offset] := by
  intro offset stack
  have hpos : 0 < w.length := List.length_pos_iff.2 hw
  have hlast := takesMany_nil hrest (w ++ rest).length (offset + Text.byteSize w) stack (by simp [hpos])
  rw [List.nil_append, Text.byteSize, Nat.add_zero] at hlast
  change some (readMany (p.read r) ((w ++ rest).length + 1) _) = _
  rw [readMany, hp offset stack]
  simp only [hlast]

theorem takesAt_many1_single {p : Peg R ρ α} {w rest : List Char} {x : Nat → α} (hp : p.TakesAt r w rest x)
    (hrest : p.Refuses r rest) : (many1 p).TakesAt r w rest fun offset => [x offset] := by
  have h := takesAt_seq (v := []) (takesAt_map (f := List.cons) hp) (takesMany_nil hrest).takes.takesAt
  rwa [List.append_nil] at h

end LiquidTemplate.Peg
