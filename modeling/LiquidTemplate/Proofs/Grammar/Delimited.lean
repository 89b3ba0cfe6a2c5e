import LiquidTemplate.Proofs.Grammar.TagNames
import LiquidTemplate.Proofs.Grammar.WrittenFilters

/-!
# Templates made of tags and drops

A tag or drop is read from its marks, whatever follows it (`takesAt_delimited`). A template in which such texts stand
one after the other is read as their tokens (`ofSource_pieces`).
-/

namespace LiquidTemplate.Grammar

open Peg

variable {recur : Cursor → Option (Expression × Cursor)} {gap rest : List Char}

/-! ## Marks -/

def dash (present : Bool) : List Char :=
  if present then ['-'] else []

theorem takes_dash {rule : Rule} {present : Bool} (hrest : rest.head? ≠ some '-') :
    (flag (named rule (.text "-")) : Grammar Bool).Takes recur (dash present) rest present := by
  cases present with
  | false => exact takes_flag_false (refuses_named (refuses_text (stripStart?_eq_none rfl hrest)))
  | true => exact takes_flag_true (takes_named (takes_text (s := "-")))

theorem takes_optDash {present : Bool} (hrest : rest.head? ≠ some '-') :
    ∃ x, (opt (.text "-") : Grammar (Option Unit)).Takes recur (dash present) rest x := by
  cases present with
  | false => exact ⟨none, takes_opt_none (refuses_text (stripStart?_eq_none rfl hrest))⟩
  | true => exact ⟨some (), takes_opt_some (takes_text (s := "-"))⟩

theorem head_gap_ne {a : Char} (ha : Text.isBlank a = false) (hne : gap ≠ []) (hgap : gap.all Text.isBlank = true) :
    (gap ++ rest).head? ≠ some a := by
  obtain ⟨b, gap, rfl⟩ := List.exists_cons_of_ne_nil hne
  rintro ⟨⟩
  rw [List.all_cons, Bool.and_eq_true] at hgap
  simp [ha] at hgap

theorem takes_openingMarks {opening : String} {left : Bool} (hne : gap ≠ []) (hgap : gap.all Text.isBlank = true)
    (hrest : rest.head?.any Text.isBlank = false) :
    (openingMarks opening).Takes recur (opening.toList ++ dash left ++ gap) rest left :=
  takes_seqLeft (takes_seqRight takes_text (takes_dash (head_gap_ne (by decide) hne hgap))) (takes_blanks hgap hrest)

/-- The closing marks of a tag or drop, with a trim marker before them. -/
def closingChars (closing : String) (right : Bool) : List Char :=
  dash right ++ closing.toList

/-- A mark that closes tags or drops. -/
def IsClosing (closing : String) : Prop :=
  closing = tagClose ∨ closing = dropClose

theorem IsClosing.exists_cons {closing : String} (h : IsClosing closing) (right : Bool) :
    ∃ a w, closingChars closing right = a :: w ∧ a ∈ ['-', '%', '\x7d'] := by
  rcases h with rfl | rfl <;> cases right <;> exact ⟨_, _, rfl, by decide⟩

theorem IsClosing.head_ne {closing : String} (h : IsClosing closing) : (closing.toList ++ rest).head? ≠ some '-' := by
  rcases h with rfl | rfl <;> simp [tagClose, dropClose]

theorem isBlank_of_mem_closing {a : Char} (ha : a ∈ ['-', '%', '\x7d']) : Text.isBlank a = false :=
  Bool.eq_false_iff.2 (List.any_eq_false.1 (by decide : ['-', '%', '\x7d'].any Text.isBlank = false) a ha)

theorem IsClosing.head_isBlank {closing : String} (h : IsClosing closing) {right : Bool} :
    (closingChars closing right ++ rest).head?.any Text.isBlank = false := by
  obtain ⟨a, w, hw, ha⟩ := h.exists_cons right
  rw [hw, List.cons_append, List.head?_cons, Option.any_some]
  exact isBlank_of_mem_closing ha

theorem takes_closingMarks {closing : String} (h : IsClosing closing) {right : Bool} :
    (closingMarks closing).Takes recur (closingChars closing right) rest right :=
  takes_seqLeft (takes_dash h.head_ne) takes_text

theorem takes_closing {closing : String} (h : IsClosing closing) {right : Bool} (hgap : gap.all Text.isBlank = true) :
    (blanks *> opt (.text "-") *> .text closing : Grammar Unit).Takes recur
      (gap ++ closingChars closing right) rest () := by
  obtain ⟨x, hdash⟩ : ∃ x, (opt (.text "-") : Grammar (Option Unit)).Takes recur (dash right)
      (closing.toList ++ rest) x :=
    takes_optDash h.head_ne
  rw [closingChars, ← List.append_assoc]
  refine takes_seqRight (takes_seqRight (takes_blanks hgap ?_) hdash) takes_text
  rw [← List.append_assoc]
  exact h.head_isBlank

/-! ## Tags and drops -/

def delimitedChars (opening closing : String) (left right : Bool) (before w after : List Char) : List Char :=
  (opening.toList ++ dash left ++ before) ++ ((w ++ after) ++ closingChars closing right)

/-- The delimiter of a tag or drop that is written as `w` and stands at an offset. -/
def delimiterAt (left right : Bool) (w : List Char) (offset : Nat) : Delimiter :=
  ⟨⟨offset, offset + Text.byteSize w⟩, left, right⟩

/-- **A tag or drop is read from its marks**, with what its inside is read as. -/
theorem takesAt_delimited {α : Type} {opening closing : String} (h : IsClosing closing) {inner : Grammar α}
    {before w after : List Char} {left right : Bool} {x : α} (hne : before ≠ [])
    (hbefore : before.all Text.isBlank = true)
    (hafter : after.all Text.isBlank = true)
    (hw : (w ++ (after ++ (closingChars closing right ++ rest))).head?.any Text.isBlank = false)
    (hinner : inner.Takes recur w (after ++ (closingChars closing right ++ rest)) x) :
    (delimited opening closing inner).TakesAt recur (delimitedChars opening closing left right before w after) rest
      fun offset => ⟨delimiterAt left right (delimitedChars opening closing left right before w after) offset,
        String.ofList (delimitedChars opening closing left right before w after), x⟩ := by
  intro offset stack
  have hopen : (openingMarks opening).Takes recur (opening.toList ++ dash left ++ before)
      (w ++ (after ++ (closingChars closing right ++ rest))) left := takes_openingMarks hne hbefore hw
  have hmiddle : (inner <* blanks).Takes recur (w ++ after) (closingChars closing right ++ rest) x :=
    takes_seqLeft hinner (takes_blanks hafter h.head_isBlank)
  rw [read_delimited, hopen.read (by simp [delimitedChars]), Option.bind_some, hmiddle.read (by simp), Option.bind_some,
    (takes_closingMarks h).read rfl, Option.map_some, charsTo_append]
  simp only [delimiterAt, delimitedChars, Text.byteSize_append, Nat.add_assoc]

theorem refuses_delimited {α : Type} {opening closing : String} {inner : Grammar α} {s : List Char}
    (h : Text.stripStart? opening.toList s = none) : (delimited opening closing inner).Refuses recur s :=
  refuses_map (refuses_slice (refuses_seq_left (refuses_seq_left (refuses_map (refuses_seqLeft_left
    (refuses_seqRight_left (refuses_text h)))))))

theorem refuses_liquidTag {s : List Char} (h : Text.stripStart? tagOpen.toList s = none) :
    liquidTag.Refuses recur s := by
  refine refuses_orElse ?_ (refuses_orElse ?_ (refuses_orElse ?_ ?_))
  · exact refuses_named (refuses_map (refuses_slice (refuses_seq_left (refuses_seq_left (refuses_map
      (refuses_named (refuses_delimited h)))))))
  · exact refuses_named (refuses_map (refuses_delimited h))
  · exact refuses_named (refuses_map (refuses_delimited h))
  · exact refuses_named (refuses_map (refuses_delimited h))

theorem IsClosing.afterBlanks {closing : String} (h : IsClosing closing) (hgap : gap.all Text.isBlank = true)
    (right : Bool) {a : Char} (ha : a ∉ ['-', '%', '\x7d']) :
    Text.afterBlanks (gap ++ (closingChars closing right ++ rest)) ≠ some a := by
  obtain ⟨b, w, hw, hb⟩ := h.exists_cons right
  rw [Text.afterBlanks_append hgap, hw, List.cons_append, Text.afterBlanks_cons (isBlank_of_mem_closing hb)]
  rintro ⟨⟩
  exact ha hb

/-! ## Templates -/

/-- A text that is read as one tag or drop wherever it stands. -/
structure IsPiece (w : List Char) (t : Nat → Token) : Prop where
  opens : w.head? = some '\x7b'
  takes : ∀ rest, liquid.TakesAt keys w rest t

/-- The tokens of pieces that stand one after the other, from an offset on. -/
def tokensAt : Nat → List (List Char × (Nat → Token)) → List Token
  | _, [] => []
  | offset, piece :: pieces => piece.2 offset :: tokensAt (offset + Text.byteSize piece.1) pieces

theorem head_pieces {pieces : List (List Char × (Nat → Token))} (h : ∀ piece ∈ pieces, IsPiece piece.1 piece.2)
    {p : Char → Bool} (hp : p '\x7b' = false) : (pieces.flatMap (·.1)).head?.any p = false := by
  cases pieces with
  | nil => rfl
  | cons piece pieces =>
    obtain ⟨v, hv⟩ := List.head?_eq_some_iff.1 (h piece (by simp)).opens
    simp [hv, hp]

theorem readMany_pieces {pieces : List (List Char × (Nat → Token))} (h : ∀ piece ∈ pieces, IsPiece piece.1 piece.2)
    {fuel offset : Nat} {stack : List (List Char)} (hfuel : (pieces.flatMap (·.1)).length < fuel) :
    readMany ((node <* blanks).read keys) fuel ⟨pieces.flatMap (·.1), offset, stack⟩ =
      (tokensAt offset pieces, ⟨[], offset + Text.byteSize (pieces.flatMap (·.1)), stack⟩) := by
  induction pieces generalizing fuel offset with
  | nil =>
    obtain ⟨n, rfl⟩ : ∃ n, fuel = n + 1 := ⟨fuel - 1, by omega⟩
    have hnone : (node <* blanks).read keys ⟨[], offset, stack⟩ = none :=
      read_nil rfl (forward_nested expression) rfl
    simp [readMany, hnone, tokensAt, Text.byteSize]
  | cons piece pieces ih =>
    obtain ⟨hpiece, hpieces⟩ := List.forall_mem_cons.1 h
    obtain ⟨v, hv⟩ := List.head?_eq_some_iff.1 hpiece.opens
    have hlength : 0 < piece.1.length := by simp [hv]
    rw [List.flatMap_cons, List.length_append] at hfuel
    obtain ⟨n, rfl⟩ : ∃ n, fuel = n + 1 := ⟨fuel - 1, by omega⟩
    have hnode : node.TakesAt keys piece.1 (pieces.flatMap (·.1)) piece.2 := takesAt_orElse_left (hpiece.takes _)
    have hblanks : blanks.Takes keys [] (pieces.flatMap (·.1)) () := takes_blanks rfl (head_pieces hpieces rfl)
    have hread : (node <* blanks).read keys ⟨piece.1 ++ pieces.flatMap (·.1), offset, stack⟩ =
        some (piece.2 offset, ⟨pieces.flatMap (·.1), offset + Text.byteSize piece.1, stack⟩) := by
      rw [read_seqLeft, hnode offset stack, Option.bind_some, hblanks.read rfl]
      rfl
    have hlater : readMany ((node <* blanks).read keys) n
        ⟨pieces.flatMap (·.1), offset + Text.byteSize piece.1, stack⟩ = _ := ih hpieces (by omega)
    rw [List.flatMap_cons, readMany, hread, tokensAt, Text.byteSize_append, ← Nat.add_assoc]
    simp only [hlater]

/-- A template that starts with neither a blank nor front matter is read as its nodes. -/
theorem ofSource_of_readMany {source : String} {tokens : List Token} {stop : Nat} {stack : List (List Char)}
    (hblank : source.toList.head?.any Text.isBlank = false) (hdash : source.toList.head? ≠ some '-')
    (h : readMany ((node <* blanks).read keys) (source.toList.length + 1) (.ofText source.toList) =
      (tokens, ⟨[], stop, stack⟩)) : Token.ofSource source = .ok tokens := by
  have hblanks : blanks.Takes keys [] source.toList () := takes_blanks rfl hblank
  have hfront : (opt frontMatter).Takes keys [] source.toList none :=
    takes_opt_none (refuses_named (refuses_map (refuses_slice (refuses_map (refuses_seqLeft_left
      (refuses_seqRight_left (refuses_text (stripStart?_eq_none rfl hdash))))))))
  have hstart := takes_map (f := fun (front : Option Token) nodes => front.toList ++ nodes)
    (takes_seqLeft (takes_seqRight hblanks hfront) hblanks)
  have hread : document.read keys (.ofText source.toList) = some (tokens, ⟨[], stop, stack⟩) := by
    have hcursor : (⟨source.toList, (Cursor.ofText source.toList).offset + Text.byteSize ([] ++ [] ++ []),
        (Cursor.ofText source.toList).stack⟩ : Cursor) = .ofText source.toList := rfl
    have hlength : (Cursor.ofText source.toList).rest.length = source.toList.length := rfl
    rw [document, read_named, read_seq, hstart.read rfl, Option.bind_some, hcursor, read_seqLeft, read_many, hlength, h]
    rfl
  have hrun : (Peg.run expression document source.toList).1 = _ := fst_run_eq_nested guarded_expression _ _
  rw [hread] at hrun
  unfold Token.ofSource
  split
  next tokens d attempts heq =>
    rw [heq] at hrun
    cases hrun
    rfl
  next attempts heq =>
    rw [heq] at hrun
    cases hrun

theorem ofSource_of_takesAt {source : String} {t : Nat → Token} {a : Char} {v : List Char}
    (hsource : source.toList = a :: v) (hblank : Text.isBlank a = false) (hdash : a ≠ '-')
    (h : node.TakesAt keys source.toList [] t) : Token.ofSource source = .ok [t 0] := by
  have hread := h 0 []
  rw [List.append_nil] at hread
  have hstep : (node <* blanks).read keys (.ofText source.toList) =
      some (t 0, ⟨[], 0 + Text.byteSize source.toList, []⟩) := by
    have hblanks : blanks.Takes keys [] [] () := takes_blanks rfl rfl
    rw [read_seqLeft, Cursor.ofText, hread, Option.bind_some, hblanks.read rfl]
    rfl
  have hend : (node <* blanks).read keys ⟨[], 0 + Text.byteSize source.toList, []⟩ = none :=
    read_nil rfl (forward_nested expression) rfl
  have hmany : readMany ((node <* blanks).read keys) (source.toList.length + 1) (.ofText source.toList) =
      ([t 0], ⟨[], 0 + Text.byteSize source.toList, []⟩) := by
    have hlength : source.toList.length = v.length + 1 := by rw [hsource, List.length_cons]
    rw [hlength]
    simp only [readMany, hstep, hend]
  exact ofSource_of_readMany (by simp [hsource, hblank]) (by simp [hsource, hdash]) hmany

/-- **A template made of pieces is read as their tokens.** -/
theorem ofSource_pieces {pieces : List (List Char × (Nat → Token))} (h : ∀ piece ∈ pieces, IsPiece piece.1 piece.2)
    {source : String} (hsource : source.toList = pieces.flatMap (·.1)) :
    Token.ofSource source = .ok (tokensAt 0 pieces) := by
  refine ofSource_of_readMany (hsource ▸ head_pieces h rfl) ?_ (hsource ▸ readMany_pieces h (Nat.lt_succ_self _))
  intro hdash
  have hany := head_pieces h (p := (· == '-')) rfl
  rw [← hsource, hdash] at hany
  cases hany

end LiquidTemplate.Grammar
