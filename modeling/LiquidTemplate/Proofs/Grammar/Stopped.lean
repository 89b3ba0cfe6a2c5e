import LiquidTemplate.Proofs.Grammar.WrittenFilters
import LiquidTemplate.Proofs.Nesting.Faults
import LiquidTemplate.Proofs.Nesting.Sound
import LiquidTemplate.Proofs.Peg.Notes

/-!
# Where the grammar stops

A template is read as front matter and as many nodes as can be read, with blanks between them, and it follows the
grammar if nothing is left then. So there is a last place that reading reaches (`Grammar.StopsAt`). The end of the input
is expected there, hence what the fault reports is not before that place; and as rules are noted only where they are
tried, it is between two characters.
-/

namespace LiquidTemplate

/-! ## Rules in a message -/

theorem toList_infix_intercalate {sep s : String} {ss : List String} (h : s ∈ ss) :
    s.toList <:+: (sep.intercalate ss).toList := by
  cases ss with
  | nil => cases h
  | cons t ss =>
    rw [toList_intercalate_cons]
    rcases List.mem_cons.1 h with rfl | h
    · exact List.infix_append_of_infix_left List.infix_rfl
    · refine List.infix_append_of_infix_right ?_
      have hpart : s.toList <:+: sep.toList ++ s.toList := List.infix_append_of_infix_right List.infix_rfl
      exact hpart.trans (List.infix_of_mem_flatten (List.mem_map_of_mem h))

namespace Rule

theorem mem_all (rule : Rule) : rule ∈ all := by
  cases rule <;> decide

theorem mem_sorted {rule : Rule} {rules : List Rule} : rule ∈ sorted rules ↔ rule ∈ rules := by
  simp [sorted, mem_all]

theorem name_infix_listing {rule : Rule} {rules : List Rule} (h : rule ∈ rules) :
    rule.name.toList <:+: (listing rules).toList := by
  unfold listing
  split
  · cases h
  · obtain rfl := List.mem_singleton.1 h
    exact List.infix_rfl
  next a b =>
    rw [String.toList_append, String.toList_append]
    simp only [List.mem_cons, List.not_mem_nil, or_false] at h
    rcases h with rfl | rfl
    · exact List.infix_append_of_infix_left (List.infix_append_of_infix_left List.infix_rfl)
    · exact List.infix_append_of_infix_right List.infix_rfl
  next hne _ _ =>
    rw [String.toList_append, String.toList_append]
    rw [← List.dropLast_concat_getLast hne] at h
    rcases List.mem_append.1 h with h | h
    · exact List.infix_append_of_infix_left
        (List.infix_append_of_infix_left (toList_infix_intercalate (List.mem_map_of_mem h)))
    · rw [List.mem_singleton.1 h, List.getLast?_eq_some_getLast hne]
      exact List.infix_append_of_infix_right List.infix_rfl

end Rule

theorem name_infix_reasonOf {rule : Rule} {unexpected expected : List Rule} (h : rule ∈ expected ∨ rule ∈ unexpected) :
    rule.name.toList <:+: (reasonOf unexpected expected).toList := by
  unfold reasonOf
  split
  · simp at h
  · rw [String.toList_append]
    exact List.infix_append_of_infix_right (Rule.name_infix_listing (h.resolve_right List.not_mem_nil))
  · rw [String.toList_append]
    exact List.infix_append_of_infix_right (Rule.name_infix_listing (h.resolve_left List.not_mem_nil))
  · rw [String.toList_append, String.toList_append, String.toList_append]
    rcases h with h | h
    · exact List.infix_append_of_infix_right (Rule.name_infix_listing h)
    · exact List.infix_append_of_infix_left (List.infix_append_of_infix_left
        (List.infix_append_of_infix_right (Rule.name_infix_listing h)))

namespace Grammar

open Peg

/-! ## The last place that is reached -/

/-- The places that reading passes: after front matter with blanks around it, and after each node with the blanks that
follow it. -/
inductive Passes (source : String) : Cursor → Prop where
  | front {m : Option Token} {d : Cursor} :
    (blanks *> opt frontMatter <* blanks).read keys (.ofText source.toList) = some (m, d) → Passes source d
  | item {c d : Cursor} {t : Token} : Passes source c → (node <* blanks).read keys c = some (t, d) → Passes source d

/-- Reading goes on to a place and no further. -/
structure StopsAt (source : String) (d : Cursor) : Prop where
  passes : Passes source d
  furthest : ∀ e, Passes source e → e.offset ≤ d.offset
  refused : node.read keys d = none

theorem consumes_item : (node <* blanks).Consumes := by
  refine consumes_seqLeft (isTile_node.imp fun c t d ht => ?_)
  obtain ⟨w, -, hoffset, ⟨hspan, hplaced⟩, -⟩ := ht
  have hlt := hplaced.nonempty'
  rw [hspan] at hlt
  simp only at hlt
  omega

/-- From every place that is passed, the repetition of nodes goes on to the same end. -/
theorem Passes.reaches {source : String} {m : Option Token} {c d e : Cursor} {fuel : Nat} (he : Passes source e)
    (hfront : (blanks *> opt frontMatter <* blanks).read keys (.ofText source.toList) = some (m, c))
    (hend : (readMany ((node <* blanks).read keys) fuel c).2 = d) (hstop : (node <* blanks).read keys d = none) :
    ∃ fuel, (readMany ((node <* blanks).read keys) fuel e).2 = d := by
  induction he with
  | front h =>
    cases h.symm.trans hfront
    exact ⟨fuel, hend⟩
  | item _ hstep ih =>
    obtain ⟨fuel, hend⟩ := ih
    cases fuel with
    | zero =>
      cases hend
      cases hstep.symm.trans hstop
    | succ fuel =>
      rw [readMany, hstep] at hend
      exact ⟨fuel, hend⟩

theorem stopsAt_of_read {source : String} {m : Option Token} {c d : Cursor} {ts : List Token}
    (hfront : (blanks *> opt frontMatter <* blanks).read keys (.ofText source.toList) = some (m, c))
    (hnodes : (Peg.many (node <* blanks)).read keys c = some (ts, d)) : StopsAt source d := by
  have hsteps : ∀ c t d, (node <* blanks).read keys c = some (t, d) → c.StepsTo d :=
    reads_stepsTo (node <* blanks) keys (forward_nested expression)
  have hshorter : ∀ c t d, (node <* blanks).read keys c = some (t, d) → d.rest.length < c.rest.length :=
    fun c t d h => (hsteps c t d h).length_lt (consumes_item keys (forward_nested expression) c t d h)
  have hstop := readMany_stops hshorter (c.rest.length + 1) c (Nat.lt_succ_self _)
  rw [read_many, Option.some.injEq] at hnodes
  rw [hnodes] at hstop
  refine ⟨?_, ?_, ?_⟩
  · have hpasses := @readMany_induct _ _ (fun c _ d => Passes source c → Passes source d) (fun _ h => h)
      (fun _ _ _ _ _ hstep ih hc => ih (.item hc hstep)) (c.rest.length + 1) c (.front hfront)
    rwa [hnodes] at hpasses
  · intro e he
    obtain ⟨fuel, rfl⟩ := he.reaches hfront (congrArg Prod.snd hnodes) hstop
    have hend := @readMany_induct _ _ (fun c _ d => c.StepsTo d) Cursor.StepsTo.refl
      (fun c t d _ _ hstep h => (hsteps c t d hstep).trans h) fuel e
    exact hend.offset_le
  · rw [read_seqLeft] at hstop
    cases hnode : node.read keys d with
    | none => rfl
    | some r =>
      rw [hnode] at hstop
      cases hstop

/-! ## The notes of a template that is refused -/

section

variable {α : Type} {p : Grammar α} {m : Mode} {c : Cursor} {a b : Attempts Rule}
    {r : Option (α × Cursor)} {depth : Nat}

/-- What is parsed with a bound above the number of characters is what is read without one. -/
theorem read_of_parse (h : p.parse (parseNested expression depth) m c a = (r, b)) (hc : c.rest.length < depth) :
    p.read keys c = r := by
  have hfst := fst_parse (fst_parseNested expression depth) p m c a
  rw [h, read_congr (forward_readNested expression depth) (readNested_eq_nested guarded_expression depth) p c
    (.inl hc)] at hfst
  exact hfst.symm

theorem notes_of_parse {s : List Char} (h : p.parse (parseNested expression depth) m c a = (r, b)) (hc : c.IsIn s)
    (ha : a.At (Text.IsBoundary s)) : b.At (Text.IsBoundary s) := by
  have hsteps : ∀ c d : Cursor, c.IsIn s → c.StepsTo d → d.IsIn s := fun _ _ hc hsteps => hc.steps hsteps
  have hnote : ∀ (before after : Attempts Rule) mode rule (c : Cursor), c.IsIn s → before.At (Text.IsBoundary s) →
      after.At (Text.IsBoundary s) → (before.note after mode rule c.offset).At (Text.IsBoundary s) :=
    fun _ _ _ _ _ hc _ hafter => hafter.note hc.isBoundary
  have hb := parse_keepsNotes hsteps hnote (fst_parseNested expression depth) (forward_readNested expression depth)
    (parseNested_keepsNotes hsteps hnote expression depth) p m c a hc ha
  rwa [h] at hb

theorem isIn_ofText (s : List Char) : (Cursor.ofText s).IsIn s :=
  ⟨[], rfl, rfl⟩

theorem notes_of_run {s : List Char} (h : Peg.run expression p s = (r, b)) : b.At (Text.IsBoundary s) :=
  notes_of_parse h (isIn_ofText s) (.empty (Text.isBoundary_zero s))

end

theorem read_blanks (recur : Cursor → Option (Expression × Cursor)) (c : Cursor) :
    ∃ d, blanks.read recur c = some ((), d) :=
  ⟨_, rfl⟩

theorem read_front_ne_none (recur : Cursor → Option (Expression × Cursor)) (c : Cursor) :
    (blanks *> opt frontMatter <* blanks).read recur c ≠ none := by
  obtain ⟨d, hd⟩ := read_blanks recur c
  rw [read_seqLeft, read_seqRight, hd, Option.bind_some, read_opt]
  cases frontMatter.read recur d with
  | none =>
    obtain ⟨e, he⟩ := read_blanks recur d
    simp [he]
  | some r =>
    obtain ⟨e, he⟩ := read_blanks recur r.2
    simp [he]

/-- A template is refused at the end of its nodes, where the end of the input is expected. -/
theorem stopsAt_of_run {source : String} {attempts : Attempts Rule}
    (h : Peg.run expression document source.toList = (none, attempts)) :
    ∃ d, StopsAt source d ∧ d.rest ≠ [] ∧ d.offset ≤ attempts.offset ∧ attempts.NotesSome := by
  have hstart : (Cursor.ofText source.toList).rest.length < source.toList.length + 1 := Nat.lt_succ_self _
  obtain ⟨b, hb, rfl⟩ := parse_named_eq_none rfl h
  have hnotes := notes_of_parse hb (isIn_ofText source.toList) (.empty (Text.isBoundary_zero source.toList))
  -- neither front matter nor nodes can be missing, so the end of the input is
  rcases parse_seq_eq_none hb with hfront | ⟨g, c, a, hfront, hrest⟩
  · exact absurd (read_of_parse (parse_map_eq_none hfront) hstart) (read_front_ne_none _ _)
  obtain ⟨m, hfront⟩ := parse_map_eq_some hfront
  have hsteps := stepsTo_of_parse (fst_parseNested expression _) (forward_readNested expression _) hfront
  have hc : c.rest.length < source.toList.length + 1 := Nat.lt_succ_of_le (length_le_of_stepsTo hsteps)
  rcases parse_seqLeft_eq_none hrest with hnodes | ⟨ts, d, a', hnodes, hend⟩
  · cases read_of_parse hnodes hc
  obtain ⟨b', hdone, rfl⟩ := parse_named_eq_none rfl hend
  refine ⟨d, stopsAt_of_read (read_of_parse hfront hstart) (read_of_parse hnodes hc), ?_, ?_, ?_⟩
  · intro hrest
    simp [parse, hrest] at hdone
  · exact Nat.le_trans (Attempts.le_offset_note a' b' _ d.offset rfl) (Attempts.offset_le_note ..)
  · exact hnotes.notesSome_note rfl

end Grammar

theorem Token.run_of_ofSource_error {source : String} {attempts : Attempts Rule}
    (h : ofSource source = .error attempts) :
    Peg.run Grammar.expression Grammar.document source.toList = (none, attempts) := by
  unfold ofSource at h
  split at h
  · cases h
  next hrun =>
    cases h
    exact hrun

theorem Document.exists_attempts {source : String} {strictness : Strictness} {fault : SyntaxFault}
    (h : Document.parse source strictness = .error (.grammar fault)) :
    ∃ attempts, Token.ofSource source = .error attempts ∧ fault = .ofAttempts attempts := by
  unfold Document.parse at h
  split at h
  next attempts hsource =>
    cases h
    exact ⟨attempts, hsource, rfl⟩
  · split at h <;> cases h

/-- **The fault of a template that does not follow the grammar points at or behind the last place that reading
reaches**, between two characters of the template, and names a rule that was expected there or was not. -/
theorem syntaxFault_local {source : String} {strictness : Strictness} {fault : SyntaxFault}
    (h : Document.parse source strictness = .error (.grammar fault)) :
    (∃ stop, Grammar.StopsAt source stop ∧ stop.rest ≠ [] ∧ stop.offset ≤ fault.offset) ∧
      Text.IsBoundary source.toList fault.offset ∧ fault.offset ≤ Text.byteSize source.toList ∧
      ∃ attempts rule, Token.ofSource source = .error attempts ∧ fault = .ofAttempts attempts ∧
        (rule ∈ attempts.expected ∨ rule ∈ attempts.unexpected) ∧ rule.name.toList <:+: fault.reason.toList := by
  obtain ⟨attempts, hsource, rfl⟩ := Document.exists_attempts h
  have hrun := Token.run_of_ofSource_error hsource
  obtain ⟨stop, hstops, hrest, hle, rule, hrule⟩ := Grammar.stopsAt_of_run hrun
  have hboundary := (Grammar.notes_of_run hrun).place
  refine ⟨⟨stop, hstops, hrest, hle⟩, hboundary, hboundary.le, attempts, rule, hsource, rfl, hrule, ?_⟩
  exact name_infix_reasonOf (hrule.imp Rule.mem_sorted.2 Rule.mem_sorted.2)

/-- A drop after a text of two bytes, with a filter that has no name and one closing brace too few. -/
theorem syntaxFault_in_drop :
    Document.parse "é \x7b\x7b a | \x7d" = .error (.grammar ⟨"expected trim_end", 11⟩) ∧
      ∃ stop, Grammar.StopsAt "é \x7b\x7b a | \x7d" stop ∧ stop.rest ≠ [] ∧ stop.offset ≤ 11 := by
  have hparse : Document.parse "é \x7b\x7b a | \x7d" = .error (.grammar ⟨"expected trim_end", 11⟩) :=
    eq_error_of (by decide +kernel)
  exact ⟨hparse, (syntaxFault_local hparse).1⟩

end LiquidTemplate
