import LiquidTemplate.Proofs.Peg.Read

/-!
# Rules at the outside of a match

A match is made of matches of named rules. Those at its outside, which are inside of no other rule, are the parts that
can be taken from it (`Peg.emitted`). Which rules stand at which places there is read off the expression (`Peg.form`).
So one look at a grammar tells for all of its rules that each match has the parts that are taken from it
(`Peg.everyRule_fits`).
-/

namespace LiquidTemplate

/-! ## Forms of lists -/

/-- A form of lists of rules: what may stand at each of the first places, and then any number of certain rules. -/
inductive Form (R : Type) where
  | any (rules : List R)
  | first (rules : List R) (rest : Form R)

namespace Form

variable {R : Type}

/-- A list has something at each of the first places, and at every place a rule that may stand there. -/
def Fits : Form R → List R → Prop
  | any rules, rs => ∀ r ∈ rs, r ∈ rules
  | first _ _, [] => False
  | first rules rest, r :: rs => r ∈ rules ∧ rest.Fits rs

def all : Form R → List R
  | any rules => rules
  | first rules rest => rules ++ rest.all

/-- Lists of one form after lists of another one. Places are known only as long as nothing of unknown length stands
before them. -/
def followedBy : Form R → Form R → Form R
  | any [], b => b
  | any (r :: rules), b => any (r :: rules ++ b.all)
  | first rules rest, b => first rules (rest.followedBy b)

def either : Form R → Form R → Form R
  | first rules rest, first rules' rest' => first (rules ++ rules') (rest.either rest')
  | a, b => any (a.all ++ b.all)

/-- Every list of the first form is one of the second form. -/
def isWithin [DecidableEq R] : Form R → Form R → Bool
  | any rules, any rules' => rules.all (· ∈ rules')
  | any _, first _ _ => false
  | first rules rest, any rules' => rules.all (· ∈ rules') && rest.isWithin (any rules')
  | first rules rest, first rules' rest' => rules.all (· ∈ rules') && rest.isWithin rest'

theorem Fits.mem_all {a : Form R} {rs : List R} (h : a.Fits rs) : ∀ r ∈ rs, r ∈ a.all := by
  induction a generalizing rs with
  | any rules => exact h
  | first rules rest ih =>
    cases rs with
    | nil => exact nofun
    | cons r rs =>
      refine List.forall_mem_cons.2 ⟨List.mem_append_left _ h.1, fun r' hr' => ?_⟩
      exact List.mem_append_right _ (ih h.2 r' hr')

theorem Fits.append {a b : Form R} {rs ss : List R} (ha : a.Fits rs) (hb : b.Fits ss) :
    (a.followedBy b).Fits (rs ++ ss) := by
  induction a generalizing rs with
  | any rules =>
    cases rules with
    | nil =>
      obtain rfl : rs = [] := List.eq_nil_iff_forall_not_mem.2 fun r hr => nomatch ha r hr
      exact hb
    | cons r rules =>
      exact List.forall_mem_append.2 ⟨fun r hr => List.mem_append_left _ (ha r hr),
        fun r hr => List.mem_append_right _ (hb.mem_all r hr)⟩
  | first rules rest ih =>
    cases rs with
    | nil => cases ha
    | cons r rs => exact ⟨ha.1, ih ha.2⟩

theorem either_fits_left {a b : Form R} {rs : List R} (h : a.Fits rs) : (a.either b).Fits rs := by
  induction a generalizing b rs with
  | any rules => exact fun r hr => List.mem_append_left _ (h r hr)
  | first rules rest ih =>
    cases b with
    | any rules' => exact fun r hr => List.mem_append_left _ (h.mem_all r hr)
    | first rules' rest' =>
      cases rs with
      | nil => cases h
      | cons r rs => exact ⟨List.mem_append_left _ h.1, ih h.2⟩

theorem either_fits_right {a b : Form R} {rs : List R} (h : b.Fits rs) : (a.either b).Fits rs := by
  induction a generalizing b rs with
  | any rules => exact fun r hr => List.mem_append_right _ (h.mem_all r hr)
  | first rules rest ih =>
    cases b with
    | any rules' => exact fun r hr => List.mem_append_right _ (h r hr)
    | first rules' rest' =>
      cases rs with
      | nil => cases h
      | cons r rs => exact ⟨List.mem_append_right _ h.1, ih h.2⟩

theorem Fits.of_isWithin [DecidableEq R] {a b : Form R} (h : a.isWithin b = true) {rs : List R} (ha : a.Fits rs) :
    b.Fits rs := by
  have hmem {rules rules' : List R} (hall : rules.all (· ∈ rules') = true) : ∀ r ∈ rules, r ∈ rules' := fun r hr =>
    of_decide_eq_true (List.all_eq_true.1 hall r hr)
  induction a generalizing b rs with
  | any rules =>
    cases b with
    | any rules' => exact fun r hr => hmem h r (ha r hr)
    | first rules' rest' => cases h
  | first rules rest ih =>
    cases rs with
    | nil => cases ha
    | cons r rs =>
      cases b with
      | any rules' =>
        obtain ⟨hfirst, hrest⟩ := Bool.and_eq_true_iff.1 h
        exact List.forall_mem_cons.2 ⟨hmem hfirst r ha.1, ih hrest ha.2⟩
      | first rules' rest' =>
        obtain ⟨hfirst, hrest⟩ := Bool.and_eq_true_iff.1 h
        exact ⟨hmem hfirst r ha.1, ih hrest ha.2⟩

end Form

namespace Peg

variable {R ρ α : Type}

/-! ## Parts of a match -/

def emittedMany (step : Cursor → Option (α × Cursor)) (emit : Cursor → List R) : Nat → Cursor → List R
  | 0, _ => []
  | fuel + 1, c =>
    match step c with
    | none => []
    | some (_, d) => emit c ++ emittedMany step emit fuel d

/-- The rules at the outside of a match, in order, where `inner` gives those of the recursive nonterminal. Lookahead
leaves none. -/
def emitted (recur : Cursor → Option (ρ × Cursor)) (inner : Cursor → List R) :
    {α : Type} → Peg R ρ α → Cursor → List R
  | _, .ap f p, c =>
    match f.read recur c with
    | none => []
    | some (_, d) => f.emitted recur inner c ++ p.emitted recur inner d
  | _, .orElse p q, c => if (p.read recur c).isSome then p.emitted recur inner c else q.emitted recur inner c
  | _, .many p, c => emittedMany (p.read recur) (p.emitted recur inner) (c.rest.length + 1) c
  | _, .slice p, c | _, .push p, c => p.emitted recur inner c
  | _, .rule name _ _, _ => [name]
  | _, .recur, c => inner c
  | _, .pure _, _ | _, .char _, _ | _, .text _, _ | _, .textNoCase _, _ | _, .done, _ | _, .ahead _, _
  | _, .notAhead _, _ | _, .peek, _ | _, .pop, _ => []

/-- The form of the rules at the outside of a match, where `inner` is that of the recursive nonterminal. -/
def form (inner : Form R) : {α : Type} → Peg R ρ α → Form R
  | _, .ap f p => (f.form inner).followedBy (p.form inner)
  | _, .orElse p q => (p.form inner).either (q.form inner)
  | _, .many p => .any (p.form inner).all
  | _, .slice p | _, .push p => p.form inner
  | _, .rule name _ _ => .first [name] (.any [])
  | _, .recur => inner
  | _, .pure _ | _, .char _ | _, .text _ | _, .textNoCase _ | _, .done | _, .ahead _ | _, .notAhead _ | _, .peek
  | _, .pop => .any []

theorem mem_of_mem_emittedMany {step : Cursor → Option (α × Cursor)} {emit : Cursor → List R} {rules : List R}
    (h : ∀ c, (step c).isSome = true → ∀ r ∈ emit c, r ∈ rules) (fuel : Nat) (c : Cursor) :
    ∀ r ∈ emittedMany step emit fuel c, r ∈ rules := by
  induction fuel generalizing c with
  | zero => exact nofun
  | succ fuel ih =>
    rw [emittedMany]
    split
    · exact nofun
    next d hstep => exact List.forall_mem_append.2 ⟨h c (Option.isSome_of_eq_some hstep), ih d⟩

theorem form_fits_emitted {recur : Cursor → Option (ρ × Cursor)} {inner : Cursor → List R} {k : Form R}
    (hinner : ∀ c, (recur c).isSome = true → k.Fits (inner c)) (p : Peg R ρ α) (c : Cursor)
    (h : (p.read recur c).isSome = true) : (p.form k).Fits (p.emitted recur inner c) := by
  induction p generalizing c with
  | ap f p ihf ihp =>
    obtain ⟨r, hr⟩ := Option.isSome_iff_exists.1 h
    obtain ⟨⟨g, d⟩, hf, hr⟩ := Option.bind_eq_some_iff.1 hr
    obtain ⟨y, hp, -⟩ := Option.map_eq_some_iff.1 hr
    simp only [emitted, hf]
    exact (ihf c (Option.isSome_of_eq_some hf)).append (ihp d (Option.isSome_of_eq_some hp))
  | orElse p q ihp ihq =>
    rw [read, Option.isSome_or, Bool.or_eq_true] at h
    rw [emitted]
    split
    next hp => exact Form.either_fits_left (ihp c hp)
    next hp => exact Form.either_fits_right (ihq c (h.resolve_left hp))
  | many p ih => exact mem_of_mem_emittedMany (fun c hc => (ih c hc).mem_all) _ c
  | slice p ih | push p ih =>
    rw [read, Option.isSome_map] at h
    exact ih c h
  | rule name atomic p => exact ⟨List.mem_singleton_self _, fun _ hr => absurd hr List.not_mem_nil⟩
  | recur => exact hinner c h
  | pure | char | text | textNoCase | done | ahead | notAhead | peek | pop =>
    exact fun _ hr => absurd hr List.not_mem_nil

/-! ## All rules of a grammar -/

/-- A property of all rules inside of an expression, each with what it matches. -/
def EveryRule (P : R → (atomic : Bool) → {α : Type} → Peg R ρ α → Prop) : {α : Type} → Peg R ρ α → Prop
  | _, .ap f p => f.EveryRule P ∧ p.EveryRule P
  | _, .orElse p q => p.EveryRule P ∧ q.EveryRule P
  | _, .many p | _, .slice p | _, .push p | _, .ahead p | _, .notAhead p => p.EveryRule P
  | _, .rule name atomic p => P name atomic p ∧ p.EveryRule P
  | _, .recur | _, .pure _ | _, .char _ | _, .text _ | _, .textNoCase _ | _, .done | _, .peek | _, .pop => True

/-- The matches of each rule have the form that is wanted of them. An atomic rule has no parts. -/
def supplies [DecidableEq R] (wanted : R → Form R) (inner : Form R) : {α : Type} → Peg R ρ α → Bool
  | _, .ap f p => f.supplies wanted inner && p.supplies wanted inner
  | _, .orElse p q => p.supplies wanted inner && q.supplies wanted inner
  | _, .many p | _, .slice p | _, .push p | _, .ahead p | _, .notAhead p => p.supplies wanted inner
  | _, .rule name atomic p =>
    (if atomic then .any [] else p.form inner).isWithin (wanted name) && p.supplies wanted inner
  | _, .recur | _, .pure _ | _, .char _ | _, .text _ | _, .textNoCase _ | _, .done | _, .peek | _, .pop => true

def partsOf (recur : Cursor → Option (ρ × Cursor)) (inner : Cursor → List R) (atomic : Bool) (p : Peg R ρ α)
    (c : Cursor) : List R :=
  if atomic then [] else p.emitted recur inner c

/-- **Each match of each rule has the parts that are taken from it.** -/
theorem everyRule_fits [DecidableEq R] {recur : Cursor → Option (ρ × Cursor)} {inner : Cursor → List R} {k : Form R}
    (hinner : ∀ c, (recur c).isSome = true → k.Fits (inner c)) {wanted : R → Form R} {p : Peg R ρ α}
    (h : p.supplies wanted k = true) :
    p.EveryRule fun name atomic _ q => ∀ c, (q.read recur c).isSome = true →
      (wanted name).Fits (q.partsOf recur inner atomic c) := by
  induction p with
  | ap f p ihf ihp | orElse f p ihf ihp =>
    obtain ⟨hf, hp⟩ := Bool.and_eq_true_iff.1 h
    exact ⟨ihf hf, ihp hp⟩
  | many p ih | slice p ih | push p ih | ahead p ih | notAhead p ih => exact ih h
  | rule name atomic p ih =>
    obtain ⟨hform, hp⟩ := Bool.and_eq_true_iff.1 h
    refine ⟨fun c hc => Form.Fits.of_isWithin hform ?_, ih hp⟩
    cases atomic with
    | true => exact nofun
    | false => exact form_fits_emitted hinner p c hc
  | recur | pure | char | text | textNoCase | done | peek | pop => trivial

end Peg

end LiquidTemplate
