import LiquidTemplate.Proofs.Nesting.Pieces
import Mathlib.Order.Monotone.Defs

/-!
# Texts of the same words

Two texts that consist of the same words with runs of blanks between them. A run is seen only by its class: whether it
is empty, and whether it holds no line feed, one or more (`runClass`). `Spaced.At` relates the offsets at and inside of
the words in one text to those in the other. Between two such offsets both texts have characters of the same class
(`Spaced.At.between`), and except at the two ends of the texts, the same is seen next to them
(`Spaced.At.sameView_after`, `Spaced.At.sameView_before`).
-/

namespace LiquidTemplate

/-! ## Classes of blanks -/

/-- All that is seen of a run of blanks. -/
inductive RunClass where
  | empty
  /-- Some blanks without a line feed. -/
  | space
  /-- Blanks with one line feed. -/
  | line
  /-- Blanks with several line feeds. -/
  | paragraph
deriving DecidableEq, Repr, Inhabited

namespace Text

def runClass (run : List Char) : RunClass :=
  if run.isEmpty then .empty
  else
    match countLineFeeds run with
    | 0 => .space
    | 1 => .line
    | _ => .paragraph

/-- Characters of the same class: both or none are empty, and they have the same number of line feeds up to two. -/
structure SameClass (v w : List Char) : Prop where
  isEmpty_eq : v.isEmpty = w.isEmpty
  feeds_eq : min (countLineFeeds v) 2 = min (countLineFeeds w) 2

theorem countLineFeeds_append (v w : List Char) : countLineFeeds (v ++ w) = countLineFeeds v + countLineFeeds w :=
  List.count_append

theorem runClass_cons (c : Char) (v : List Char) : runClass (c :: v) =
    match countLineFeeds (c :: v) with
    | 0 => .space
    | 1 => .line
    | _ => .paragraph := rfl

theorem sameClass_of_runClass {v w : List Char} (h : runClass v = runClass w) : SameClass v w := by
  have hcons (c : Char) (u : List Char) : runClass (c :: u) ≠ .empty := by
    rw [runClass_cons]
    split <;> exact nofun
  cases v with
  | nil =>
    cases w with
    | nil => exact ⟨rfl, rfl⟩
    | cons y w => exact absurd h.symm (hcons y w)
  | cons x v =>
    cases w with
    | nil => exact absurd h (hcons x v)
    | cons y w =>
      rw [runClass_cons, runClass_cons] at h
      refine ⟨rfl, ?_⟩
      generalize countLineFeeds (x :: v) = i at h ⊢
      generalize countLineFeeds (y :: w) = j at h ⊢
      rcases i with - | - | i <;> rcases j with - | - | j <;> first | rfl | omega | cases h

theorem byteSize_eq_zero_iff {v : List Char} : byteSize v = 0 ↔ v.isEmpty = true := by
  cases v with
  | nil => simp [byteSize]
  | cons c v =>
    obtain ⟨n, hn⟩ := exists_byteSize_cons c v
    simp [hn]

namespace SameClass

variable {v w v' w' : List Char}

theorem refl (v : List Char) : SameClass v v :=
  ⟨rfl, rfl⟩

theorem append (h : SameClass v w) (h' : SameClass v' w') : SameClass (v ++ v') (w ++ w') := by
  refine ⟨?_, ?_⟩
  · have hempty := h.isEmpty_eq
    have hempty' := h'.isEmpty_eq
    cases v <;> cases w <;> simp_all
  · have hfeeds := h.feeds_eq
    have hfeeds' := h'.feeds_eq
    rw [countLineFeeds_append, countLineFeeds_append]
    omega

theorem reverse (h : SameClass v w) : SameClass v.reverse w.reverse := by
  refine ⟨by simpa using h.isEmpty_eq, ?_⟩
  simpa [countLineFeeds] using h.feeds_eq

theorem byteSize_eq_zero (h : SameClass v w) : byteSize v = 0 ↔ byteSize w = 0 := by
  rw [byteSize_eq_zero_iff, byteSize_eq_zero_iff, h.isEmpty_eq]

theorem contains_eq (h : SameClass v w) : v.contains '\n' = w.contains '\n' := by
  have hfeeds := h.feeds_eq
  rw [Bool.eq_iff_iff, List.contains_iff_mem, List.contains_iff_mem, ← List.count_pos_iff, ← List.count_pos_iff]
  unfold countLineFeeds at hfeeds
  omega

end SameClass

/-! ## What is seen at an offset -/

/-- From the start of two lists of characters the same is seen: whether there is a blank, and whether the blanks
there hold a line feed. -/
structure SameView (v w : List Char) : Prop where
  blank : v.head?.any isBlank = w.head?.any isBlank
  feed : (v.takeWhile isBlank).contains '\n' = (w.takeWhile isBlank).contains '\n'

/-- Characters that start and end with one that is not blank. -/
structure IsWord (w : List Char) : Prop where
  first : ∃ x v, w = x :: v ∧ isBlank x = false
  last : ∃ v x, w = v ++ [x] ∧ isBlank x = false

theorem takeWhile_isBlank_append {v : List Char} (hv : ∃ x ∈ v, isBlank x = false) (w : List Char) :
    (v ++ w).takeWhile isBlank = v.takeWhile isBlank := by
  induction v with
  | nil => simp at hv
  | cons c v ih =>
    cases hc : isBlank c with
    | false => simp [hc]
    | true =>
      have hv' : ∃ x ∈ v, isBlank x = false := by
        obtain ⟨x, hx, hblank⟩ := hv
        rcases List.mem_cons.1 hx with rfl | hx
        · rw [hc] at hblank
          cases hblank
        · exact ⟨x, hx, hblank⟩
      simp [hc, ih hv']

/-- Nothing is seen beyond a character that is not blank. -/
theorem sameView_append {v : List Char} (hv : ∃ x ∈ v, isBlank x = false) (w w' : List Char) :
    SameView (v ++ w) (v ++ w') := by
  refine ⟨?_, by rw [takeWhile_isBlank_append hv, takeWhile_isBlank_append hv]⟩
  cases v with
  | nil => simp at hv
  | cons c v => rfl

theorem sameView_run {run run' : List Char} (hrun : run.all isBlank = true) (hrun' : run'.all isBlank = true)
    (hclass : SameClass run run') (v : List Char) {x : Char} (hx : isBlank x = false) (w w' : List Char) :
    SameView (v ++ (run ++ x :: w)) (v ++ (run' ++ x :: w')) := by
  by_cases hv : ∃ y ∈ v, isBlank y = false
  · exact sameView_append hv _ _
  · have hblank : ∀ y ∈ v, isBlank y = true := by simpa using hv
    have htake {u : List Char} (hu : u.all isBlank = true) (rest : List Char) :
        (v ++ (u ++ x :: rest)).takeWhile isBlank = v ++ u := by
      rw [List.takeWhile_append_of_pos hblank, List.takeWhile_append_of_pos (by simpa using hu),
        List.takeWhile_cons_of_neg (by simp [hx]), List.append_nil]
    refine ⟨?_, ?_⟩
    · have hempty := hclass.isEmpty_eq
      cases v with
      | cons y v => rfl
      | nil =>
        cases run <;> cases run' <;> simp_all
    · rw [htake hrun, htake hrun']
      exact ((SameClass.refl v).append hclass).contains_eq

end Text

/-! ## Runs and words -/

/-- A word with the runs of blanks before it in two texts. -/
structure Spaced where
  run : List Char
  run' : List Char
  word : List Char
deriving DecidableEq, Repr, Inhabited

namespace Spaced

open Text

def old (xs : List Spaced) : List Char :=
  xs.flatMap fun x => x.run ++ x.word

def new (xs : List Spaced) : List Char :=
  xs.flatMap fun x => x.run' ++ x.word

/-- Blanks before a word. -/
structure Proper (x : Spaced) : Prop where
  run : x.run.all isBlank = true
  run' : x.run'.all isBlank = true
  word : IsWord x.word

/-- The runs before the words have the same class in both texts. The first run does not count: it is not between
words. -/
structure Match (xs : List Spaced) : Prop where
  proper : ∀ x ∈ xs, x.Proper
  same : ∀ x ∈ xs.tail, SameClass x.run x.run'

theorem Match.tail {x : Spaced} {xs : List Spaced} (h : Match (x :: xs)) : Match xs :=
  ⟨fun y hy => h.proper y (List.mem_cons_of_mem _ hy), fun y hy => h.same y (List.mem_of_mem_tail hy)⟩

@[simp] theorem old_cons (x : Spaced) (xs : List Spaced) : old (x :: xs) = x.run ++ (x.word ++ old xs) := by
  simp [old]

@[simp] theorem new_cons (x : Spaced) (xs : List Spaced) : new (x :: xs) = x.run' ++ (x.word ++ new xs) := by
  simp [new]

/-- An offset at or inside of a word: what stands before and after it in the two texts. -/
inductive At : List Spaced → (left right left' right' : List Char) → Prop where
  | here {x : Spaced} {xs : List Spaced} {u v : List Char} (word : x.word = u ++ v) :
      At (x :: xs) (x.run ++ u) (v ++ old xs) (x.run' ++ u) (v ++ new xs)
  | there {x : Spaced} {xs : List Spaced} {p q p' q' : List Char} (later : At xs p q p' q') :
      At (x :: xs) (x.run ++ (x.word ++ p)) q (x.run' ++ (x.word ++ p')) q'

namespace At

variable {x : Spaced} {xs : List Spaced} {p q p' q' u v u' v' : List Char}

theorem old_eq (h : At xs p q p' q') : old xs = p ++ q := by
  induction h with
  | here word => simp [word]
  | there _ ih => simp [ih]

theorem new_eq (h : At xs p q p' q') : new xs = p' ++ q' := by
  induction h with
  | here word => simp [word]
  | there _ ih => simp [ih]

/-- What stands before an offset has the same class in both texts, if that is so of all runs. -/
theorem sameClass (h : At xs p q p' q') (hxs : ∀ y ∈ xs, SameClass y.run y.run') : SameClass p p' := by
  induction h with
  | here => exact (hxs _ List.mem_cons_self).append (.refl _)
  | there _ ih =>
    obtain ⟨hx, hxs⟩ := List.forall_mem_cons.1 hxs
    exact hx.append ((SameClass.refl _).append (ih hxs))

/-- **Between two offsets** both texts have characters of the same class. -/
theorem between (h : At xs p q p' q') (h' : At xs u v u' v') (hxs : Match xs) :
    (∃ w w', u = p ++ w ∧ u' = p' ++ w' ∧ SameClass w w') ∨
      ∃ w w', p = u ++ w ∧ p' = u' ++ w' ∧ SameClass w w' := by
  induction h generalizing u v u' v' with
  | @here x xs c d word =>
    cases h' with
    | @here _ _ c' d' word' =>
      -- both in the same word: one of them comes first
      have hsplit : c ++ d = c' ++ d' := word.symm.trans word'
      rcases List.prefix_or_prefix_of_prefix ⟨d, rfl⟩ ⟨d', hsplit.symm⟩ with ⟨w, rfl⟩ | ⟨w, rfl⟩
      · exact .inl ⟨w, w, by simp, by simp, .refl w⟩
      · exact .inr ⟨w, w, by simp, by simp, .refl w⟩
    | there later =>
      refine .inl ⟨d ++ _, d ++ _, ?_, ?_, (SameClass.refl d).append (later.sameClass hxs.same)⟩
      · simp [word]
      · simp [word]
  | @there x xs c d c' d' later ih =>
    cases h' with
    | @here _ _ e f word =>
      refine .inr ⟨f ++ _, f ++ _, ?_, ?_, (SameClass.refl f).append (later.sameClass hxs.same)⟩
      · simp [word]
      · simp [word]
    | there later' =>
      rcases ih later' hxs.tail with ⟨w, w', rfl, rfl, hclass⟩ | ⟨w, w', rfl, rfl, hclass⟩
      · exact .inl ⟨w, w', by simp, by simp, hclass⟩
      · exact .inr ⟨w, w', by simp, by simp, hclass⟩

/-- What is seen after an offset is the same, except at the end of the last word. -/
theorem sameView_after (h : At xs p q p' q') (hxs : Match xs) (hq : q ≠ []) (tail tail' : List Char) :
    SameView (q ++ tail) (q' ++ tail') := by
  induction h with
  | @here x xs u v word =>
    cases xs with
    | nil =>
      -- only the rest of the last word, which ends with a character that is not blank
      obtain ⟨w, y, hw, hy⟩ := (hxs.proper x List.mem_cons_self).word.last
      have hv : ∃ z ∈ v, isBlank z = false := by
        refine ⟨y, ?_, hy⟩
        have hlast : (u ++ v).getLast? = some y := by rw [← word, hw, List.getLast?_concat]
        rw [List.getLast?_append_of_ne_nil _ (by simpa [old] using hq)] at hlast
        exact List.mem_of_getLast? hlast
      simp only [List.append_assoc]
      exact sameView_append hv _ _
    | cons y ys =>
      have hy := hxs.proper y (List.mem_cons_of_mem _ List.mem_cons_self)
      obtain ⟨c, w, hw, hc⟩ := hy.word.first
      simp only [old_cons, new_cons, hw, List.append_assoc, List.cons_append]
      exact sameView_run hy.run hy.run' (hxs.same y List.mem_cons_self) v hc _ _
  | there _ ih => exact ih hxs.tail hq

theorem sameView_behind (h : At xs p q p' q') (hproper : ∀ y ∈ xs, y.Proper) (hsame : ∀ y ∈ xs, SameClass y.run y.run')
    {w : List Char} (hw : IsWord w) (c c' : List Char) :
    SameView (c ++ (w ++ p)).reverse (c' ++ (w ++ p')).reverse := by
  induction h generalizing w c c' with
  | @here x xs u v word =>
    obtain ⟨w, y, rfl, hy⟩ := hw.last
    have hx := hproper x List.mem_cons_self
    simp only [List.reverse_append, List.reverse_cons, List.append_assoc, List.singleton_append]
    exact sameView_run (by simpa using hx.run) (by simpa using hx.run') (hsame x List.mem_cons_self).reverse _ hy _ _
  | @there x xs p q p' q' _ ih =>
    obtain ⟨hx, hproper⟩ := List.forall_mem_cons.1 hproper
    have hview := ih hproper (List.forall_mem_cons.1 hsame).2 hx.word (c ++ (w ++ x.run)) (c' ++ (w ++ x.run'))
    simpa only [List.append_assoc] using hview

/-- What is seen before an offset is the same, except at the start of the first word. -/
theorem sameView_before (h : At (x :: xs) p q p' q') (hxs : Match (x :: xs)) (hp : p ≠ x.run) :
    SameView p.reverse p'.reverse := by
  have hx := hxs.proper x List.mem_cons_self
  cases h with
  | @here _ _ u v word =>
    obtain ⟨c, w, hw, hc⟩ := hx.word.first
    have hu : ∃ z ∈ u.reverse, isBlank z = false := by
      cases u with
      | nil => simp at hp
      | cons y u =>
        rw [hw, List.cons_append] at word
        exact ⟨y, by simp, (List.cons.inj word).1 ▸ hc⟩
    rw [List.reverse_append, List.reverse_append]
    exact sameView_append hu _ _
  | there later =>
    exact later.sameView_behind (fun y hy => hxs.proper y (List.mem_cons_of_mem _ hy)) hxs.same hx.word x.run x.run'

end At

/-! ## Where offsets go -/

/-- Where an offset of the first text goes in the second one. -/
def shift : List Spaced → Nat → Nat
  | [], _ => 0
  | x :: xs, i =>
    if i ≤ byteSize x.run + byteSize x.word then byteSize x.run' + (i - byteSize x.run)
    else byteSize x.run' + byteSize x.word + shift xs (i - (byteSize x.run + byteSize x.word))

theorem monotone_shift (xs : List Spaced) : Monotone (shift xs) := by
  induction xs with
  | nil => exact fun _ _ _ => Nat.le_refl _
  | cons x xs ih =>
    intro i j hij
    have hrest : shift xs (i - (byteSize x.run + byteSize x.word)) ≤
        shift xs (j - (byteSize x.run + byteSize x.word)) := ih (Nat.sub_le_sub_right hij _)
    rw [shift, shift]
    split <;> split <;> omega

theorem At.shift_eq {xs : List Spaced} {p q p' q' : List Char} (h : At xs p q p' q') (hxs : Match xs) :
    shift xs (byteSize p) = byteSize p' := by
  induction h with
  | @here x xs u v word =>
    have hsize : byteSize x.word = byteSize u + byteSize v := by rw [word, byteSize_append]
    rw [shift, byteSize_append, byteSize_append, if_pos (by omega)]
    omega
  | @there x xs p q p' q' later ih =>
    have hzero := (later.sameClass hxs.same).byteSize_eq_zero
    have hrest := ih hxs.tail
    simp only [byteSize_append, shift]
    by_cases hp : byteSize p = 0
    · rw [if_pos (by omega), hzero.1 hp, hp]
      omega
    · rw [if_neg (by omega), ← hrest]
      have hsub : byteSize x.run + (byteSize x.word + byteSize p) - (byteSize x.run + byteSize x.word) =
          byteSize p := by omega
      rw [hsub]
      omega

theorem at_of_word (pre : List Spaced) (x : Spaced) (post : List Spaced) {u v : List Char} (hword : x.word = u ++ v) :
    At (pre ++ x :: post) (old pre ++ (x.run ++ u)) (v ++ old post) (new pre ++ (x.run' ++ u)) (v ++ new post) := by
  induction pre with
  | nil => exact .here hword
  | cons y pre ih =>
    simp only [List.cons_append, old_cons, new_cons, List.append_assoc]
    exact .there ih

end Spaced

end LiquidTemplate
