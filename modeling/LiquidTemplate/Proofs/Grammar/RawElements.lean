import LiquidTemplate.Proofs.Grammar.RawBodies

/-!
# Raw elements and the case of their names

The name of a raw element is recognised in any case, but its closing tag has to repeat the spelling of the opening tag.
A template `<N>` body `</M>`, where `N` and `M` are spellings of the same raw element, is a raw element if they are the
same; if they differ, no raw element of the template has the name `N` (`parse_elementText`).
-/

namespace LiquidTemplate

/-! ## Spellings -/

namespace Text

theorem map_toLower_of_eqIgnoringCase {a b : String} (h : eqIgnoringCase a b = true) :
    a.toList.map Char.toLower = b.toList.map Char.toLower :=
  eq_of_beq h

theorem length_of_eqIgnoringCase {a b : String} (h : eqIgnoringCase a b = true) :
    a.toList.length = b.toList.length := by
  have hlength := congrArg List.length (map_toLower_of_eqIgnoringCase h)
  rwa [List.length_map, List.length_map] at hlength

theorem toLower_mem_of_eqIgnoringCase {word name : String} (h : eqIgnoringCase word name = true) {a : Char}
    (ha : a ∈ name.toList) : a.toLower ∈ word.toList.map Char.toLower := by
  rw [map_toLower_of_eqIgnoringCase h]
  exact List.mem_map_of_mem ha

end Text

def rawElementWords : List String :=
  ["script", "style"]

structure SpellsRaw (word name : String) : Prop where
  isWord : word ∈ rawElementWords
  same : Text.eqIgnoringCase word name = true

namespace SpellsRaw

variable {word name : String} (h : SpellsRaw word name)

include h

theorem notMem {a : Char}
    (ha : rawElementWords.all (fun word => !(word.toList.map Char.toLower).contains a.toLower) = true) :
    a ∉ name.toList := by
  intro hmem
  have hword := List.all_eq_true.1 ha word h.isWord
  simp only [Bool.not_eq_true', List.contains_eq_mem, decide_eq_false_iff_not] at hword
  exact hword (Text.toLower_mem_of_eqIgnoringCase h.same hmem)

theorem ne_nil : name.toList ≠ [] := by
  intro hnil
  have hlength := Text.length_of_eqIgnoringCase h.same
  have hword : ∀ word ∈ rawElementWords, word.toList.length ≠ 0 := by decide
  rw [hnil] at hlength
  exact hword word h.isWord hlength

theorem notMem_closing {w : List Char} (hw : RawForm.element.Closes name.toList w) :
    ∃ v, w = '<' :: v ∧ '<' ∉ v := by
  obtain ⟨gap, hgap, rfl⟩ := hw
  refine ⟨'/' :: (name.toList ++ (gap ++ ['>'])), rfl, ?_⟩
  have hname : '<' ∉ name.toList := h.notMem (by decide)
  have hblank : '<' ∉ gap := fun hmem => absurd (List.all_eq_true.1 hgap _ hmem) (by decide)
  simp [hname, hblank]

end SpellsRaw

/-- No closing tag of a raw element stands in a text, in any spelling of its name. -/
def NeverCloses (word body : String) : Prop :=
  ∀ name w, Text.eqIgnoringCase word name = true → RawForm.element.Closes name.toList w → ¬ w <:+: body.toList

theorem neverCloses_of_slash {word body : String} (h : ¬ ['<', '/'] <:+: body.toList) : NeverCloses word body := by
  rintro name w - ⟨gap, -, rfl⟩ hmember
  have hslash : ['<', '/'] <:+: "</".toList ++ (name.toList ++ (gap ++ ">".toList)) := ⟨[], _, rfl⟩
  exact h (hslash.trans hmember)

/-! ## Closing tags in a text -/

section

variable {w u x z : List Char} (hw : w = '<' :: u)

include hw

theorem infix_of_infix_append (hx : '<' ∉ x) (h : w <:+: x ++ z) : w <:+: z := by
  induction x with
  | nil => exact h
  | cons a x ih =>
    rw [List.mem_cons, not_or] at hx
    rcases List.infix_cons_iff.1 h with hstarts | hmember
    · rw [hw, List.cons_prefix_cons] at hstarts
      exact absurd hstarts.1 hx.1
    · exact ih hx.2 hmember

variable (hu : '<' ∉ u)

include hu

theorem prefix_of_prefix_append (hx : x ≠ []) (h : w <+: x ++ '<' :: z) : w <+: x := by
  rcases List.prefix_or_prefix_of_prefix h (List.prefix_append x ('<' :: z)) with hstarts | ⟨t, ht⟩
  · exact hstarts
  cases t with
  | nil => exact ⟨[], by rw [← ht, List.append_nil, List.append_nil]⟩
  | cons a t =>
    obtain ⟨b, x, rfl⟩ := List.exists_cons_of_ne_nil hx
    rw [← ht, List.prefix_append_right_inj, List.cons_prefix_cons] at h
    obtain ⟨rfl, -⟩ := h
    rw [hw, List.cons_append] at ht
    obtain ⟨-, rfl⟩ := List.cons.inj ht
    exact absurd (by simp) hu

/-- A tag in a text and the next tag after it stands in the text or starts with the next tag. -/
theorem infix_or_prefix_of_infix_append (hz : '<' ∉ z) (h : w <:+: x ++ '<' :: z) : w <:+: x ∨ w <+: '<' :: z := by
  induction x with
  | nil =>
    rcases List.infix_cons_iff.1 h with hstarts | hmember
    · exact .inr hstarts
    · exact absurd (hmember.subset (by simp [hw])) hz
  | cons a x ih =>
    rcases List.infix_cons_iff.1 h with hstarts | hmember
    · exact .inl (prefix_of_prefix_append hw hu (by simp) hstarts).isInfix
    · exact (ih hmember).imp_left fun hmember => hmember.trans (List.infix_cons (List.infix_refl x))

end

/-- The text of an element: its opening tag without attributes, its body and its closing tag. -/
def elementText (name body closing : String) : String :=
  "<" ++ name ++ ">" ++ body ++ "</" ++ closing ++ ">"

/-- A closing tag that stands in the text of an element is the last one. -/
theorem eq_of_closes_elementText {word name closing body other : String} {w : List Char} (hname : SpellsRaw word name)
    (hclosing : SpellsRaw word closing) (hbody : NeverCloses word body) (hother : SpellsRaw word other)
    (hw : RawForm.element.Closes other.toList w) (hmem : w <:+: (elementText name body closing).toList) :
    other = closing := by
  obtain ⟨v, hv, hstart⟩ := hother.notMem_closing hw
  obtain ⟨gap, hgap, rfl⟩ := hw
  have hclosingTag : '<' ∉ '/' :: (closing.toList ++ ['>']) := by simp [hclosing.notMem (a := '<') (by decide)]
  have hopeningTag : '<' ∉ name.toList ++ ['>'] := by simp [hname.notMem (a := '<') (by decide)]
  have hsplit : (elementText name body closing).toList =
      ('<' :: ((name.toList ++ ['>']) ++ body.toList)) ++ '<' :: '/' :: (closing.toList ++ ['>']) := by
    simp [elementText]
  rw [hsplit] at hmem
  rcases infix_or_prefix_of_infix_append hv hstart hclosingTag hmem with hmember | ⟨z, hz⟩
  · rcases List.infix_cons_iff.1 hmember with ⟨z, hz⟩ | hmember
    · -- an opening tag has a name where a closing tag has a slash
      obtain ⟨a, n, hn⟩ := List.exists_cons_of_ne_nil hname.ne_nil
      have hslash : '/' ∉ name.toList := hname.notMem (by decide)
      rw [hn] at hz hslash
      simp only [String.reduceToList, List.cons_append, List.cons.injEq, true_and] at hz
      exact absurd (List.mem_cons.2 (.inl hz.1)) hslash
    · exact absurd (infix_of_infix_append hv hopeningTag hmember) (hbody other _ hother.same ⟨gap, hgap, rfl⟩)
  · have hlength : other.toList.length = closing.toList.length := by
      rw [← Text.length_of_eqIgnoringCase hother.same, Text.length_of_eqIgnoringCase hclosing.same]
    have hnames : other.toList ++ (gap ++ '>' :: z) = closing.toList ++ ['>'] := by simpa using hz
    exact String.toList_injective (List.append_inj_left hnames hlength)

/-! ## Reading the text of an element -/

namespace Peg

variable {R ρ α : Type} {r : Cursor → Option (ρ × Cursor)}

theorem takes_textNoCase {s : String} {w rest : List Char} (hw : s.toList.map Char.toLower = w.map Char.toLower) :
    (Peg.textNoCase s : Peg R ρ Unit).Takes r w rest () := by
  intro offset stack
  have hlength : s.toList.length = w.length := by
    have hlength := congrArg List.length hw
    rwa [List.length_map, List.length_map] at hlength
  have hfound : (w ++ rest).take s.toList.length = w := by rw [hlength, List.take_left]
  have hstrip : Text.stripStart? w (w ++ rest) = some rest := Text.stripStart?_eq_some_iff.2 rfl
  simp [read, Cursor.skipNoCase?, hfound, hw, Cursor.skip?, hstrip]

theorem refuses_textNoCase {s : String} {cs : List Char}
    (h : (cs.take s.toList.length).map Char.toLower ≠ s.toList.map Char.toLower) :
    (Peg.textNoCase s : Peg R ρ Unit).Refuses r cs := by
  intro offset stack
  have hne : ((cs.take s.toList.length).map Char.toLower == s.toList.map Char.toLower) = false := by simpa using h
  simp only [read, Cursor.skipNoCase?, hne]
  rfl

end Peg

namespace Grammar

open Peg

theorem reads_mark : RawForm.element.mark.ReadsGiven Neutral fun c _ _ =>
    ∀ name stack, c.stack = name :: stack → ∃ w, RawForm.element.Closes name w ∧ w <+: c.rest := by
  refine reads_seqRight (reads_seqRight (reads_seqRight (reads_text_stack.imp ?_) reads_peek) reads_blanks_stack)
    reads_text_stack
  rintro c - d ⟨hd, hds⟩ - e ⟨top, _, hstack, he, -⟩ - f ⟨⟨gap, hgap, hf⟩, -⟩ - g ⟨hg, -⟩ name stack hname
  obtain rfl : top = name := by
    rw [hds, hname] at hstack
    exact (List.cons.inj hstack).1.symm
  refine ⟨_, ⟨gap, hgap, rfl⟩, g.rest, ?_⟩
  rw [hd, he, hf, hg]
  simp only [List.append_assoc]

theorem takes_rawElementName {word name : String} (h : SpellsRaw word name) {rest : List Char}
    (hrest : rest.head?.any RawForm.element.isNameChar = false) :
    rawElementName.Takes keys name.toList rest name := by
  have hsame := Text.map_toLower_of_eqIgnoringCase h.same
  have hword : (Peg.textNoCase "script" <|> .textNoCase "style" : Grammar Unit).Takes keys name.toList rest () := by
    have hcases : word = "script" ∨ word = "style" := by simpa [rawElementWords] using h.isWord
    rcases hcases with rfl | rfl
    · exact takes_orElse_left (takes_textNoCase hsame)
    · refine takes_orElse_right (refuses_textNoCase fun hscript => ?_) (takes_textNoCase hsame)
      have hstarts : name.toList <+: (name.toList ++ rest).take "script".toList.length := by
        rw [List.prefix_take_iff, ← Text.length_of_eqIgnoringCase h.same]
        exact ⟨List.prefix_append _ _, by decide⟩
      have hletters := hstarts.map Char.toLower
      rw [hscript, ← hsame] at hletters
      exact absurd hletters (by decide)
  have hends : (Peg.notAhead (.char RawForm.element.isNameChar) : Grammar Unit).Takes keys [] rest () :=
    takes_notAhead (refuses_char hrest)
  have hname : rawElementName.Takes keys (name.toList ++ []) rest (String.ofList (name.toList ++ [])) :=
    takes_atom (takes_covered (takes_seqLeft hword hends))
  rwa [List.append_nil, String.ofList_toList] at hname

theorem refuses_nameFragment {a : Char} (ha : a = '=' ∨ a = '>') (rest : List Char) :
    (attributeNameText <|> drop).Refuses keys (a :: rest) := by
  have hstart : (liquidStart <|> .text "/>").Refuses keys (a :: rest) := by
    rcases ha with rfl | rfl <;>
      exact refuses_orElse (refuses_orElse (refuses_text rfl) (refuses_text rfl)) (refuses_text rfl)
  have hdrop : drop.Refuses keys (a :: rest) := by
    rcases ha with rfl | rfl <;> exact refuses_named (refuses_map (refuses_delimited rfl))
  refine refuses_orElse (refuses_atom (refuses_map (refuses_slice (refuses_many1 ?_)))) hdrop
  refine refuses_seqRight_right (u := []) (takes_notAhead hstart) (refuses_char ?_)
  rcases ha with rfl | rfl <;> simp

theorem refuses_attributeItem (rest : List Char) : (blanks *> (liquidTag <|> attr)).Refuses keys ('>' :: rest) := by
  have hblanks : blanks.Takes keys [] ('>' :: rest) () := takes_blanks rfl rfl
  have hname : attributeName.Refuses keys ('>' :: rest) :=
    refuses_named (refuses_many1 (refuses_nameFragment (.inr rfl) rest))
  have hhead : attributeHead.Refuses keys ('>' :: rest) :=
    refuses_seqLeft_left (refuses_seqLeft_left (refuses_seqLeft_left hname))
  have hof (rule : Rule) (style : AttributeStyle) {parts : Grammar (List Token × List Token)}
      (h : parts.Refuses keys ('>' :: rest)) : (attributeOf rule style parts).Refuses keys ('>' :: rest) :=
    refuses_named (refuses_map (refuses_slice (refuses_map h)))
  have hquoted (rule valueRule textRule : Rule) (q : Quote) :
      (attributeQuoted rule valueRule textRule q).Refuses keys ('>' :: rest) :=
    hof _ _ (refuses_seq_left (refuses_map (refuses_seqLeft_left hhead)))
  have hattr : attr.Refuses keys ('>' :: rest) :=
    refuses_orElse (hquoted _ _ _ _) (refuses_orElse (hquoted _ _ _ _) (refuses_orElse
      (hof _ _ (refuses_seq_left (refuses_map hhead))) (hof _ _ (refuses_map hname))))
  exact refuses_seqRight_right hblanks (refuses_orElse (refuses_liquidTag rfl) hattr)

theorem takes_attributes_nil (rest : List Char) : attributes.Takes keys [] ('>' :: rest) [] := by
  have hblanks : blanks.Takes keys [] ('>' :: rest) () := takes_blanks rfl rfl
  exact takes_seqLeft (takesMany_nil (refuses_attributeItem rest)).takes hblanks

def openingChars (name : String) : List Char :=
  "<".toList ++ (name.toList ++ ">".toList)

def closingTagChars (name : String) : List Char :=
  "</".toList ++ (name.toList ++ ">".toList)

section

variable {name : String} (offset : Nat) (stack : List (List Char)) (rest : List Char)

theorem read_rawOpen {word : String} (h : SpellsRaw word name) :
    (named .htmlRawOpen (.slice (Prod.mk <$> (.text "<" *> .push rawElementName) <*>
      (attributes <* .text ">")))).read keys ⟨openingChars name ++ rest, offset, stack⟩ =
      some ((⟨⟨offset, offset + Text.byteSize (openingChars name)⟩, String.ofList (openingChars name)⟩, name, []),
        ⟨rest, offset + Text.byteSize (openingChars name), name.toList :: stack⟩) := by
  have hname : rawElementName.Takes keys name.toList (">".toList ++ rest) name := takes_rawElementName h rfl
  have hpush : (.text "<" *> .push rawElementName : Grammar String).read keys
      ⟨"<".toList ++ (name.toList ++ (">".toList ++ rest)), offset, stack⟩ =
      some (name, ⟨">".toList ++ rest, offset + Text.byteSize "<".toList + Text.byteSize name.toList,
        name.toList :: stack⟩) := by
    rw [read_seqRight, takes_text offset stack, Option.bind_some]
    change ((rawElementName.read keys _).map _) = _
    rw [hname, Option.map_some, charsTo_append]
  have hend : (attributes <* .text ">").Takes keys ">".toList rest [] :=
    takes_seqLeft (u := []) (takes_attributes_nil rest) takes_text
  have hchars : openingChars name ++ rest = "<".toList ++ (name.toList ++ (">".toList ++ rest)) := by
    simp only [openingChars, List.append_assoc]
  have hsize : offset + Text.byteSize (openingChars name) =
      offset + Text.byteSize "<".toList + Text.byteSize name.toList + Text.byteSize ">".toList := by
    simp only [openingChars, Text.byteSize_append, Nat.add_assoc]
  rw [read_named, read_slice, read_seq, read_map, hchars, hpush, Option.map_some, Option.bind_some, hend,
    Option.map_some, Option.map_some, ← hchars, ← hsize, Cursor.sliceTo, charsTo_append]

theorem read_rawClose :
    (named .htmlRawClose (.slice (.text "</" *> .pop *> blanks *> .text ">")) : Grammar (Slice × Unit)).read keys
      ⟨closingTagChars name ++ rest, offset, name.toList :: stack⟩ =
      some ((⟨⟨offset, offset + Text.byteSize (closingTagChars name)⟩, String.ofList (closingTagChars name)⟩, ()),
        ⟨rest, offset + Text.byteSize (closingTagChars name), stack⟩) := by
  have hpop (offset : Nat) : (Peg.pop : Grammar Unit).read keys
      ⟨name.toList ++ (">".toList ++ rest), offset, name.toList :: stack⟩ =
      some ((), ⟨">".toList ++ rest, offset + Text.byteSize name.toList, stack⟩) := by
    have hstrip : Text.stripStart? name.toList (name.toList ++ (">".toList ++ rest)) = some (">".toList ++ rest) :=
      Text.stripStart?_eq_some_iff.2 rfl
    simp only [read_pop, Cursor.skip?, hstrip, Option.map_some]
  have hchars : closingTagChars name ++ rest = "</".toList ++ (name.toList ++ (">".toList ++ rest)) := by
    simp only [closingTagChars, List.append_assoc]
  have hsize : offset + Text.byteSize (closingTagChars name) =
      offset + Text.byteSize "</".toList + Text.byteSize name.toList + Text.byteSize ">".toList := by
    simp only [closingTagChars, Text.byteSize_append, Nat.add_assoc]
  have htag : (.text "</" *> .pop *> blanks *> .text ">" : Grammar Unit).read keys
      ⟨closingTagChars name ++ rest, offset, name.toList :: stack⟩ =
      some ((), ⟨rest, offset + Text.byteSize (closingTagChars name), stack⟩) := by
    have hblanks : blanks.Takes keys [] (">".toList ++ rest) () := takes_blanks rfl rfl
    rw [hchars, hsize, read_seqRight, read_seqRight, read_seqRight, takes_text offset, Option.bind_some, hpop,
      Option.bind_some, hblanks.read rfl, Option.bind_some, takes_text]
    rfl
  rw [read_named, read_slice, htag, Option.map_some, Cursor.sliceTo, charsTo_append]

theorem read_rawBody {word body : String} (h : SpellsRaw word name) (hbody : NeverCloses word body) :
    (atom .htmlRawBody (Prod.fst <$> .slice (upTo RawForm.element.mark)) : Grammar Slice).read keys
      ⟨body.toList ++ (closingTagChars name ++ rest), offset, name.toList :: stack⟩ =
      some (⟨⟨offset, offset + Text.byteSize body.toList⟩, body⟩,
        ⟨closingTagChars name ++ rest, offset + Text.byteSize body.toList, name.toList :: stack⟩) := by
  have hcloses : RawForm.element.Closes name.toList (closingTagChars name) := ⟨[], rfl, rfl⟩
  have hinside : ∀ u v, body.toList = u ++ v → v ≠ [] → ∀ offset, RawForm.element.mark.read keys
      ⟨v ++ (closingTagChars name ++ rest), offset, name.toList :: stack⟩ = none := by
    intro u v huv hv offset
    cases hread : RawForm.element.mark.read keys
      ⟨v ++ (closingTagChars name ++ rest), offset, name.toList :: stack⟩ with
    | none => rfl
    | some r =>
      obtain ⟨w, hw, hstarts⟩ := reads_mark keys (neutral_nested rfl) _ r.1 r.2 hread name.toList stack rfl
      obtain ⟨t, ht, hstart⟩ := h.notMem_closing hw
      have hpart : w <+: v := prefix_of_prefix_append ht hstart hv hstarts
      exact absurd (hpart.isInfix.trans ⟨u, [], by rw [huv, List.append_nil]⟩) (hbody name w h.same hw)
  have hstop : ∀ offset, (RawForm.element.mark.read keys
      ⟨closingTagChars name ++ rest, offset, name.toList :: stack⟩).isSome = true := by
    intro offset
    rw [takesOn_mark hcloses rest offset stack]
    rfl
  change (Prod.fst <$> Peg.slice (upTo RawForm.element.mark) : Grammar Slice).read keys _ = _
  rw [read_map, read_slice, read_upTo hinside hstop, Option.map_some, Option.map_some, Cursor.sliceTo, charsTo_append,
    String.ofList_toList]

def rawElementAt (name body : String) (offset : Nat) : Token :=
  let bodyStart := offset + Text.byteSize (openingChars name)
  let bodyStop := bodyStart + Text.byteSize body.toList
  let stop := bodyStop + Text.byteSize (closingTagChars name)
  .rawElement ⟨offset, stop⟩ name [] ⟨⟨bodyStart, bodyStop⟩, body⟩ ⟨offset, bodyStart⟩ ⟨bodyStop, stop⟩

theorem takesAt_rawElement {word body : String} (h : SpellsRaw word name) (hbody : NeverCloses word body) :
    rawElement.TakesAt keys (openingChars name ++ (body.toList ++ closingTagChars name)) rest
      (rawElementAt name body) := by
  intro offset stack
  have hmark : (.text "</" *> .peek *> blanks *> .text ">" : Grammar Unit) = RawForm.element.mark := rfl
  have hchars : openingChars name ++ (body.toList ++ closingTagChars name) ++ rest =
      openingChars name ++ (body.toList ++ (closingTagChars name ++ rest)) := by
    simp only [List.append_assoc]
  rw [hchars, rawElement, read_named, spanned, read_map, read_slice, read_seq, read_seq, read_map, hmark,
    read_rawOpen _ _ _ h, Option.map_some, Option.bind_some, read_rawBody _ _ _ h hbody, Option.map_some,
    Option.bind_some, read_rawClose]
  simp only [Option.map_some, Cursor.sliceTo, rawElementAt, Text.byteSize_append, Nat.add_assoc]

end

theorem toList_elementText (name body closing : String) : (elementText name body closing).toList =
    openingChars name ++ (body.toList ++ closingTagChars closing) := by
  simp [elementText, openingChars, closingTagChars]

theorem exists_openingChars {word name : String} (h : SpellsRaw word name) (u : List Char) :
    ∃ a v, openingChars name ++ u = '<' :: a :: v ∧ a ≠ '!' := by
  obtain ⟨a, n, hn⟩ := List.exists_cons_of_ne_nil h.ne_nil
  have hmark : '!' ∉ name.toList := h.notMem (by decide)
  refine ⟨a, _, by rw [openingChars, hn]; rfl, ?_⟩
  rintro rfl
  exact hmark (by simp [hn])

theorem takesAt_node_of_tag {w rest v : List Char} {a : Char} {t : Nat → Token} (hw : w ++ rest = '<' :: a :: v)
    (ha : a ≠ '!') (h : (rawElement <|> closeTag <|> openTag).TakesAt keys w rest t) : node.TakesAt keys w rest t := by
  have hliquid : liquid.Refuses keys (w ++ rest) := by
    rw [hw]
    exact refuses_orElse (refuses_liquidTag rfl) (refuses_named (refuses_map (refuses_delimited rfl)))
  have hbang {s : String} {u : List Char} (hs : s.toList = '<' :: '!' :: u) :
      (Peg.text s : Grammar Unit).Refuses keys (w ++ rest) := by
    refine refuses_text ?_
    rw [hs, hw]
    simp [Text.stripStart?, Ne.symm ha]
  have hcomment : comment.Refuses keys (w ++ rest) :=
    refuses_named (refuses_map (refuses_slice (refuses_map (refuses_seqLeft_left (refuses_seqRight_left (hbang rfl))))))
  have hdoctype : doctype.Refuses keys (w ++ rest) :=
    refuses_named (refuses_map (refuses_slice (refuses_map (refuses_seqLeft_left (refuses_seqRight_left
      (refuses_seqRight_left (hbang rfl)))))))
  exact takesAt_orElse_right hliquid
    (takesAt_orElse_left (takesAt_orElse_right hcomment (takesAt_orElse_right hdoctype h)))

theorem takesAt_node_rawElement {word name body : String} (h : SpellsRaw word name) (hbody : NeverCloses word body)
    (rest : List Char) : node.TakesAt keys (openingChars name ++ (body.toList ++ closingTagChars name)) rest
      (rawElementAt name body) := by
  obtain ⟨a, v, hv, ha⟩ := exists_openingChars h (body.toList ++ closingTagChars name ++ rest)
  rw [← List.append_assoc] at hv
  exact takesAt_node_of_tag hv ha (takesAt_orElse_left (takesAt_rawElement rest h hbody))

theorem ofSource_elementText {word name body : String} (h : SpellsRaw word name) (hbody : NeverCloses word body) :
    Token.ofSource (elementText name body name) = .ok [rawElementAt name body 0] := by
  have hsource := toList_elementText name body name
  obtain ⟨a, v, hv, -⟩ := exists_openingChars h (body.toList ++ closingTagChars name)
  refine ofSource_of_takesAt (hsource.trans hv) rfl (by decide) ?_
  rw [hsource]
  exact takesAt_node_rawElement h hbody []

end Grammar

/-! ## Templates -/

def Node.rawElementOf (name body : String) : Node Unit :=
  let bodyStart := Text.byteSize (Grammar.openingChars name)
  let bodyStop := bodyStart + Text.byteSize body.toList
  let stop := bodyStop + Text.byteSize (Grammar.closingTagChars name)
  { info := (), span := ⟨0, stop⟩,
    kind := .rawElement name ⟨⟨⟨bodyStart, bodyStop⟩, body⟩, Token.elementCodeKind name []⟩ ⟨0, bodyStart⟩
      ⟨bodyStop, stop⟩ }

theorem ofTokens_rawElementAt (name body : String) (strictness : Strictness) :
    Node.ofTokens strictness [Grammar.rawElementAt name body 0] = .ok [Node.rawElementOf name body] := by
  have hadd : Nesting.addAll {} [Grammar.rawElementAt name body 0] = .ok ⟨[Node.rawElementOf name body], []⟩ := by
    simp only [Grammar.rawElementAt, Node.rawElementOf, Nat.zero_add]
    rfl
  unfold Node.ofTokens
  rw [hadd]
  cases strictness <;> rfl

theorem Raw.Verbatim.exists_closes {s : List Char} {span : Span} {raw : Raw} (h : raw.Verbatim s span) :
    ∃ w, raw.form.Closes raw.name.toList w ∧ w <:+: s := by
  obtain ⟨w, hw, hcloses⟩ := h.closing
  obtain ⟨a, b, hs, -⟩ := Text.exists_of_slice? hw
  exact ⟨w, hcloses, a, b, by rw [hs, List.append_assoc]⟩

/-- **A raw element is closed by the spelling that opened it**: in a template that opens and closes a script or a style
with two spellings of its name, all is one raw element if they are the same. If not, no raw element has the name that
was opened. -/
theorem parse_elementText {word name closing body : String} (hname : SpellsRaw word name)
    (hclosing : SpellsRaw word closing) (hbody : NeverCloses word body) (strictness : Strictness) :
    (closing = name → Document.parse (elementText name body closing) strictness =
      .ok (.ofNodes (elementText name body closing) [Node.rawElementOf name body])) ∧
    (closing ≠ name → ∀ d, Document.parse (elementText name body closing) strictness = .ok d →
      ∀ e ∈ d.entries, ∀ inner opener closer, e.node.kind ≠ .rawElement name inner opener closer) := by
  constructor
  · rintro rfl
    rw [parse_of_ofSource (Grammar.ofSource_elementText hname hbody), ofTokens_rawElementAt]
  · intro hne d hparse e he inner opener closer hkind
    have hmem : e.node ∈ d.root.preorder := by
      rw [← Node.map_node_entries _ 0 none none none]
      exact List.mem_map_of_mem he
    have hraw : e.node.kind.raw? = some ⟨.element, name, opener, inner.slice, closer⟩ := by rw [hkind]; rfl
    have hverbatim := verbatim_of_parse hparse hmem hraw
    obtain ⟨w, hcloses, hmember⟩ := hverbatim.exists_closes
    exact hne (eq_of_closes_elementText hname hclosing hbody hname hcloses hmember).symm

/-- A style with a bracket in its body, closed by its own spelling and by another one. -/
theorem style_closed_by_spelling :
    (SpellsRaw "style" "Style" ∧ SpellsRaw "style" "sTYLE" ∧ NeverCloses "style" "a < b \x7b% if %\x7d") ∧
    Document.parse (elementText "Style" "a < b \x7b% if %\x7d" "Style") .tolerant = .ok
      (.ofNodes (elementText "Style" "a < b \x7b% if %\x7d" "Style")
        [Node.rawElementOf "Style" "a < b \x7b% if %\x7d"]) ∧
    ∀ d, Document.parse (elementText "Style" "a < b \x7b% if %\x7d" "sTYLE") .tolerant = .ok d →
      ∀ e ∈ d.entries, ∀ inner opener closer, e.node.kind ≠ .rawElement "Style" inner opener closer := by
  have hname : SpellsRaw "style" "Style" := ⟨by decide, by decide⟩
  have hclosing : SpellsRaw "style" "sTYLE" := ⟨by decide, by decide⟩
  have hbody : NeverCloses "style" "a < b \x7b% if %\x7d" :=
    neverCloses_of_slash (by simp [List.infix_cons_iff, List.cons_prefix_cons])
  refine ⟨⟨hname, hclosing, hbody⟩, ?_, ?_⟩
  · exact (parse_elementText hname hname hbody .tolerant).1 rfl
  · exact (parse_elementText hname hclosing hbody .tolerant).2 (by decide)

/-- A script whose two tags differ in case is an element with a text in it. -/
theorem script_in_two_cases : ∃ d, Document.parse (elementText "SCRIPT" "a" "script") .strict = .ok d ∧
    (d.root.children.map fun n => (n.label?, n.isScriptLike, n.children.map Node.written)) =
      [(some "SCRIPT", false, ["a"])] := by
  have hparse : (Document.parse (elementText "SCRIPT" "a" "script") .strict).toOption.any (fun d =>
      (d.root.children.map fun n => (n.label?, n.isScriptLike, n.children.map Node.written)) ==
        [(some "SCRIPT", false, ["a"])]) = true := by
    decide +kernel
  obtain ⟨d, hd, hchildren⟩ := exists_eq_ok hparse
  exact ⟨d, hd, eq_of_beq hchildren⟩

end LiquidTemplate
