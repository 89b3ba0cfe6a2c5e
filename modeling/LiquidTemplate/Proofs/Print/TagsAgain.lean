import LiquidTemplate.Proofs.Grammar.Spelled
import LiquidTemplate.Proofs.Grammar.WrittenTags
import LiquidTemplate.Proofs.Nesting.Strict

/-!
# Written tags are read again

A tag whose markup has a known form is written on one line by `tagHead`. That text, between the marks of a tag, is read
as a tag with the same name and the same markup (`tag_read_again`), apart from the marks of its strings and brackets
that are written as dots. The exception are loops that `Markup.hidesArgument` describes.
-/

namespace LiquidTemplate

/-! ## Names of tags -/

namespace Grammar

def leafNames : List String :=
  ["elsif", "when", "assign", "echo", "cycle", "render", "include", "increment", "decrement", "layout", "section",
    "liquid"]

def rawNames : List String :=
  ["raw", "comment", "javascript", "schema", "stylesheet", "style"]

theorem mem_blockNames {name : String} {markup : Markup} (h : markup.BlockSpelled name) : name ∈ blockNames := by
  cases markup with
  | condition test => rcases h with ⟨rfl | rfl, -⟩ <;> decide
  | subject value =>
    obtain ⟨rfl, -⟩ := h
    decide
  | loop item collection reversed arguments => rcases h with ⟨rfl | rfl, -⟩ <;> decide
  | target item =>
    obtain ⟨rfl, -⟩ := h
    decide
  | paginate collection pageSize arguments =>
    obtain ⟨rfl, -⟩ := h
    decide
  | plain | values | assign | echo | cycle | snippet | layout | sectionName | statements => exact absurd h id

theorem mem_leafNames {name : String} {markup : Markup} (h : markup.LeafSpelled name) : name ∈ leafNames := by
  cases markup with
  | snippet snippet bound renamed arguments => rcases h with ⟨rfl | rfl, -⟩ <;> decide
  | target item => rcases h with ⟨rfl | rfl, -⟩ <;> decide
  | condition | values | assign | echo | cycle | layout | sectionName | statements =>
    obtain ⟨rfl, -⟩ := h
    decide
  | plain | subject | loop | paginate => exact absurd h id

/-- The names of blocks and of tags without a body are words that other tags do not start with. -/
theorem names_differ : ∀ name ∈ blockNames ++ leafNames, name.toList.all Text.isWordChar = true ∧
    name.toList ≠ [] ∧ ¬ "end".toList <+: name.toList ∧ ∀ s ∈ rawNames, s.toList ≠ name.toList := by
  decide

theorem leafNames_differ : ∀ name ∈ leafNames, ∀ s ∈ blockNames, s.toList ≠ name.toList := by
  decide

open Peg

variable {recur : Cursor → Option (Expression × Cursor)} {q : Quote} {rest w s : List Char} {left : Bool}

theorem startsWith_rawTagName : StartsWith rawTagName rawNames :=
  ((startsWith_word (by decide)).orElse ((startsWith_word (by decide)).orElse ((startsWith_word (by decide)).orElse
    ((startsWith_word (by decide)).orElse ((startsWith_word (by decide)).orElse (startsWith_word (by decide))))))).atom

theorem startsWith_blockName : StartsWith blockName blockNames :=
  ((startsWith_word (by decide)).orElse ((startsWith_word (by decide)).orElse ((startsWith_word (by decide)).orElse
    ((startsWith_word (by decide)).orElse ((startsWith_word (by decide)).orElse ((startsWith_word (by decide)).orElse
      ((startsWith_word (by decide)).orElse (startsWith_word (by decide))))))))).atom

/-! ## One tag -/

def tagChars (w : List Char) : List Char :=
  delimitedChars tagOpen tagClose false false " ".toList w " ".toList

def tagStart (left : Bool) : List Char :=
  tagOpen.toList ++ dash left ++ " ".toList

theorem delimitedChars_append (left right : Bool) (w gap rest : List Char) :
    delimitedChars tagOpen tagClose left right " ".toList w gap ++ rest =
      tagStart left ++ (w ++ (gap ++ (closingChars tagClose right ++ rest))) := by
  simp [tagStart, delimitedChars]

theorem tagChars_append (w rest : List Char) :
    tagChars w ++ rest = tagStart false ++ (w ++ (" ".toList ++ (closingChars tagClose false ++ rest))) :=
  delimitedChars_append false false w _ rest

theorem tagEnds_closing (rest : List Char) : TagEnds (" ".toList ++ (closingChars tagClose false ++ rest)) :=
  ⟨rest, rfl⟩

theorem refuses_inside {α : Type} {inner : Grammar α} (hs : s.head?.any Text.isBlank = false)
    (h : inner.Refuses recur s) :
    (delimited tagOpen tagClose inner).Refuses recur (tagStart left ++ s) :=
  refuses_map (refuses_slice (refuses_seq_left (refuses_seq_right
    (takes_map (takes_openingMarks (by decide) (by decide) hs)) (refuses_seqLeft_left h))))

theorem refuses_rawTag (hs : s.head?.any Text.isBlank = false) (hopens : OpensWord w s)
    (hne : ∀ t ∈ rawNames, t.toList ≠ w) : rawTag.Refuses recur (tagStart left ++ s) :=
  refuses_named (refuses_map (refuses_slice (refuses_seq_left (refuses_seq_left (refuses_map (refuses_named
    (refuses_inside hs (refuses_seq_left (refuses_map (refuses_seqLeft_left (refuses_push
      (startsWith_rawTagName _ _ _ hopens hne))))))))))))

theorem refuses_blockClose (hs : s.head?.any Text.isBlank = false) (hopens : OpensWord w s)
    (hne : ¬ "end".toList <+: w) : blockClose.Refuses recur (tagStart left ++ s) := by
  have hend : Text.stripStart? "end".toList s = none := by
    cases hstrip : Text.stripStart? "end".toList s with
    | none => rfl
    | some r =>
      obtain ⟨t, rfl, ht⟩ := hopens.ends
      rcases List.append_eq_append_iff.1 (Text.stripStart?_eq_some_iff.1 hstrip) with ⟨v, hv, hr⟩ | ⟨v, hv, -⟩
      · -- the letters after the word would go on with it
        cases v with
        | nil => exact absurd ⟨[], by rw [hv, List.append_nil, List.append_nil]⟩ hne
        | cons a v =>
          have ha : Text.isWordChar a = true := by
            have hmem : a ∈ "end".toList := by simp [hv]
            exact List.all_eq_true.1 (by decide : "end".toList.all Text.isWordChar = true) a hmem
          simp [hr, ha] at ht
      · exact absurd ⟨v, hv.symm⟩ hne
  exact refuses_named (refuses_map (refuses_inside hs (refuses_seqRight_left (refuses_text hend))))

theorem refuses_blockOpen (hs : s.head?.any Text.isBlank = false) (hopens : OpensWord w s)
    (hne : ∀ t ∈ blockNames, t.toList ≠ w) : blockOpen.Refuses recur (tagStart left ++ s) := by
  have hknown : blockMarkup.Refuses recur s :=
    startsWith_blockMarkup _ _ _ hopens fun t ht => hne t ((by decide :
      ∀ t ∈ ["if", "unless", "case", "for", "tablerow", "capture", "paginate"], t ∈ blockNames) t ht)
  have hplain : (plainTag blockName).Refuses recur s := startsWith_blockName.seqLeft.map.seq _ _ _ hopens hne
  exact refuses_named (refuses_map (refuses_inside hs (refuses_orElse (refuses_seqLeft_left hknown) hplain)))

theorem OpensWord.head (h : OpensWord w s) (hne : w ≠ []) : s.head?.any Text.isBlank = false := by
  obtain ⟨t, rfl, -⟩ := h.ends
  obtain ⟨a, v, rfl⟩ := List.exists_cons_of_ne_nil hne
  have ha : Text.isWordChar a = true := List.all_eq_true.1 h.all a (by simp)
  rw [← Bool.not_eq_true]
  intro hblank
  have hblank : Text.isBlank a = true := hblank
  simp only [Text.isBlank, Bool.or_eq_true, beq_iff_eq] at hblank
  rcases hblank with (((rfl | rfl) | rfl) | rfl) | rfl <;> exact absurd ha (by decide)

theorem opensWord_tagHead {name : String} (hname : name.toList.all Text.isWordChar = true) (markup : Markup)
    (t : List Char) : OpensWord name.toList ((tagHead q name markup).toList ++ (" ".toList ++ t)) := by
  refine ⟨hname, ?_⟩
  simp only [tagHead]
  split
  · exact ⟨_, rfl, rfl⟩
  · exact ⟨" ".toList ++ (markup.render q).toList ++ (" ".toList ++ t), by simp, rfl⟩

theorem takes_ahead_tagEnd (rest : List Char) : (Peg.ahead tagEnd : Grammar Unit).Takes recur []
    (" ".toList ++ (closingChars tagClose false ++ rest)) () := by
  rw [← List.append_assoc]
  exact takes_ahead (takes_closing (.inl rfl) (by decide))

/-- A tag that opens a block, with its token. -/
def openingPiece (q : Quote) (name : String) (markup : Markup) : List Char × (Nat → Token) :=
  (tagChars (tagHead q name markup).toList, fun offset =>
    .blockOpen (delimiterAt false false (tagChars (tagHead q name markup).toList) offset) name (markup.norm q))

def leafPiece (q : Quote) (name : String) (markup : Markup) : List Char × (Nat → Token) :=
  (tagChars (tagHead q name markup).toList, fun offset =>
    .tag (delimiterAt false false (tagChars (tagHead q name markup).toList) offset) name (markup.norm q))

def closingPiece (name : String) : List Char × (Nat → Token) :=
  (tagChars ("end" ++ name).toList, fun offset =>
    .blockClose (delimiterAt false false (tagChars ("end" ++ name).toList) offset) name)

theorem isPiece_opening {name : String} {markup : Markup} (h : markup.BlockSpelled name)
    (hshown : markup.hidesArgument = false) :
    IsPiece (openingPiece q name markup).1 (openingPiece q name markup).2 := by
  refine ⟨rfl, fun rest => ?_⟩
  obtain ⟨hword, hne, hend, hraw⟩ := names_differ name (List.mem_append_left _ (mem_blockNames h))
  have hopens := opensWord_tagHead (q := q) hword markup (closingChars tagClose false ++ rest)
  have hmarkup : (blockMarkup <* .ahead tagEnd).Takes keys ((tagHead q name markup).toList ++ [])
      (" ".toList ++ (closingChars tagClose false ++ rest)) (name, markup.norm q) := by
    refine takes_seqLeft ?_ (takes_ahead_tagEnd rest)
    rw [toList_tagHead (head_blockMarkup h q _)]
    exact takes_blockMarkup h hshown (tagEnds_closing rest)
  rw [List.append_nil] at hmarkup
  refine takesAt_orElse_left (takesAt_orElse_right ?_ (takesAt_orElse_right ?_ (takesAt_orElse_left
    (takesAt_named (takesAt_map (x := fun offset =>
      Delimited.mk (delimiterAt false false (tagChars (tagHead q name markup).toList) offset)
        (String.ofList (tagChars (tagHead q name markup).toList)) (name, markup.norm q)) ?_)))))
  · rw [openingPiece, tagChars_append]
    exact refuses_rawTag (hopens.head hne) hopens hraw
  · rw [openingPiece, tagChars_append]
    exact refuses_blockClose (hopens.head hne) hopens hend
  · exact takesAt_delimited (.inl rfl) (by decide) (by decide) (by decide) (hopens.head hne) (takes_orElse_left hmarkup)

theorem takesAt_leaf {name : String} {markup : Markup} {right : Bool} {gap : List Char} (hname : name ∈ leafNames)
    (hgap : gap.all Text.isBlank = true)
    (hopens : OpensWord name.toList (w ++ (gap ++ (closingChars tagClose right ++ rest))))
    (hmarkup : tagMarkup.Takes keys w (gap ++ (closingChars tagClose right ++ rest)) (name, markup)) :
    liquid.TakesAt keys (delimitedChars tagOpen tagClose left right " ".toList w gap) rest fun offset =>
      .tag (delimiterAt left right (delimitedChars tagOpen tagClose left right " ".toList w gap) offset)
        name markup := by
  obtain ⟨-, hne, hend, hraw⟩ := names_differ name (List.mem_append_right _ hname)
  have hahead : (Peg.ahead tagEnd : Grammar Unit).Takes keys [] (gap ++ (closingChars tagClose right ++ rest)) () := by
    rw [← List.append_assoc]
    exact takes_ahead (takes_closing (.inl rfl) hgap)
  have hinner : (tagMarkup <* .ahead tagEnd).Takes keys (w ++ []) (gap ++ (closingChars tagClose right ++ rest))
      (name, markup) := takes_seqLeft hmarkup hahead
  rw [List.append_nil] at hinner
  refine takesAt_orElse_left (takesAt_orElse_right ?_ (takesAt_orElse_right ?_ (takesAt_orElse_right ?_
    (takesAt_named (takesAt_map (x := fun offset =>
      Delimited.mk (delimiterAt left right (delimitedChars tagOpen tagClose left right " ".toList w gap) offset)
        (String.ofList (delimitedChars tagOpen tagClose left right " ".toList w gap)) (name, markup)) ?_)))))
  · rw [delimitedChars_append]
    exact refuses_rawTag (hopens.head hne) hopens hraw
  · rw [delimitedChars_append]
    exact refuses_blockClose (hopens.head hne) hopens hend
  · rw [delimitedChars_append]
    exact refuses_blockOpen (hopens.head hne) hopens (leafNames_differ name hname)
  · exact takesAt_delimited (.inl rfl) (by decide) (by decide) hgap (hopens.head hne) (takes_orElse_left hinner)

theorem isPiece_leaf {name : String} {markup : Markup} (h : markup.LeafSpelled name) :
    IsPiece (leafPiece q name markup).1 (leafPiece q name markup).2 := by
  refine ⟨rfl, fun rest => ?_⟩
  have hname := mem_leafNames h
  obtain ⟨hword, -⟩ := names_differ name (List.mem_append_right _ hname)
  exact takesAt_leaf hname (by decide) (opensWord_tagHead hword markup _) (takes_tagMarkup h (tagEnds_closing rest))

theorem isPiece_closing {name : String} (h : name ∈ blockNames) :
    IsPiece (closingPiece name).1 (closingPiece name).2 := by
  refine ⟨rfl, fun rest => ?_⟩
  have hword : ("end" ++ name).toList.all Text.isWordChar = true ∧ ∀ s ∈ rawNames, s.toList ≠ ("end" ++ name).toList :=
    (by decide : ∀ name ∈ blockNames, ("end" ++ name).toList.all Text.isWordChar = true ∧
      ∀ s ∈ rawNames, s.toList ≠ ("end" ++ name).toList) name h
  have hopens : OpensWord ("end" ++ name).toList
      (("end" ++ name).toList ++ (" ".toList ++ (closingChars tagClose false ++ rest))) := ⟨hword.1, _, rfl, rfl⟩
  have hinner : (Peg.text "end" *> blockName : Grammar String).Takes keys ("end" ++ name).toList
      (" ".toList ++ (closingChars tagClose false ++ rest)) name := by
    rw [String.toList_append]
    exact takes_seqRight takes_text (takes_blockName h rfl)
  refine takesAt_orElse_left (takesAt_orElse_right ?_ (takesAt_orElse_left
    (takesAt_named (takesAt_map (x := fun offset =>
      Delimited.mk (delimiterAt false false (tagChars ("end" ++ name).toList) offset)
        (String.ofList (tagChars ("end" ++ name).toList)) name) ?_))))
  · rw [closingPiece, tagChars_append]
    exact refuses_rawTag (hopens.head (by simp)) hopens hword.2
  · exact takesAt_delimited (.inl rfl) (by decide) (by decide) (by decide) (hopens.head (by simp)) hinner

end Grammar

/-! ## Templates -/

def tagText (q : Quote) (name : String) (markup : Markup) : String :=
  tagOpen ++ " " ++ tagHead q name markup ++ " " ++ tagClose

def endText (name : String) : String :=
  tagOpen ++ " end" ++ name ++ " " ++ tagClose

theorem toList_tagText (q : Quote) (name : String) (markup : Markup) :
    (tagText q name markup).toList = Grammar.tagChars (tagHead q name markup).toList := by
  simp [tagText, Grammar.tagChars, Grammar.delimitedChars, Grammar.dash, Grammar.closingChars]

theorem toList_endText (name : String) : (endText name).toList = Grammar.tagChars ("end" ++ name).toList := by
  simp [endText, Grammar.tagChars, Grammar.delimitedChars, Grammar.dash, Grammar.closingChars]

/-- An opening tag with known markup that stands in some template. -/
structure OpensBlock (name : String) (markup : Markup) : Prop where
  stands : ∃ source origin, (Token.blockOpen origin name markup).StandsIn source
  known : ∀ text, markup ≠ .plain text

/-- A tag without a body, with known markup, that stands in some template. -/
structure StandsAlone (name : String) (markup : Markup) : Prop where
  stands : ∃ source origin, (Token.tag origin name markup).StandsIn source
  known : ∀ text, markup ≠ .plain text

theorem OpensBlock.spelled {name : String} {markup : Markup} (h : OpensBlock name markup) :
    markup.BlockSpelled name := by
  obtain ⟨source, origin, hstands⟩ := h.stands
  rcases hstands.spelled with ⟨text, htext⟩ | hspelled
  · exact absurd htext (h.known text)
  · exact hspelled

theorem StandsAlone.spelled {name : String} {markup : Markup} (h : StandsAlone name markup) :
    markup.LeafSpelled name := by
  obtain ⟨source, origin, hstands⟩ := h.stands
  rcases hstands.spelled with ⟨text, htext⟩ | hspelled
  · exact absurd htext (h.known text)
  · exact hspelled

theorem parse_pieces {pieces : List (List Char × (Nat → Token))} {source : String} {node : Node Unit}
    (h : ∀ piece ∈ pieces, Grammar.IsPiece piece.1 piece.2) (hsource : source.toList = pieces.flatMap (·.1))
    (hnode : Derives .item (Grammar.tokensAt 0 pieces) [node]) :
    Document.parse source .strict = .ok (.ofNodes source [node]) :=
  parse_of_derives (Grammar.ofSource_pieces h hsource) hnode.single

section

variable {q : Quote} {name : String} {markup : Markup}

theorem block_read_again (h : markup.BlockSpelled name) (hshown : markup.hidesArgument = false) :
    ∃ node opener closer, Document.parse (tagText q name markup ++ endText name) .strict =
        .ok (.ofNodes (tagText q name markup ++ endText name) [node]) ∧
      node.kind = .block name (markup.norm q) opener (some closer) := by
  have hpieces : ∀ piece ∈ [Grammar.openingPiece q name markup, Grammar.closingPiece name],
      Grammar.IsPiece piece.1 piece.2 := by
    simpa using ⟨Grammar.isPiece_opening h hshown, Grammar.isPiece_closing (Grammar.mem_blockNames h)⟩
  have hsource : (tagText q name markup ++ endText name).toList =
      [Grammar.openingPiece q name markup, Grammar.closingPiece name].flatMap (·.1) := by
    simp [toList_tagText, toList_endText, Grammar.openingPiece, Grammar.closingPiece]
  by_cases hbranched : isBranchedTag name = true
  · exact ⟨_, _, _, parse_pieces hpieces hsource (.branched hbranched (.lastBranch .nil)), rfl⟩
  · exact ⟨_, _, _, parse_pieces hpieces hsource (.block (by simpa using hbranched) .nil), rfl⟩

theorem parse_single_tag {source : String} {left right : Bool} (hleaf : isBranchStart name = false)
    (h : Grammar.IsPiece source.toList fun offset =>
      .tag (Grammar.delimiterAt left right source.toList offset) name markup) :
    Document.parse source .strict = .ok (.ofNodes source
      [{ info := (), span := ⟨0, Text.byteSize source.toList⟩,
         kind := .tag name markup ⟨⟨0, Text.byteSize source.toList⟩, left, right⟩ }]) := by
  have hkind : (Token.tag (Grammar.delimiterAt left right source.toList 0) name markup).leafKind? =
      some (.tag name markup (Grammar.delimiterAt left right source.toList 0)) := by
    simp [Token.leafKind?, hleaf]
  have hpieces : ∀ piece ∈ [(source.toList, fun offset =>
      Token.tag (Grammar.delimiterAt left right source.toList offset) name markup)],
        Grammar.IsPiece piece.1 piece.2 := List.forall_mem_singleton.2 h
  have hparse := parse_pieces hpieces (List.append_nil source.toList).symm (.leaf hkind .nil .nil .nil)
  simpa [Token.span, Grammar.delimiterAt] using hparse

theorem leaf_read_again (h : markup.LeafSpelled name) (hleaf : isBranchStart name = false) :
    ∃ node opener, Document.parse (tagText q name markup) .strict = .ok (.ofNodes (tagText q name markup) [node]) ∧
      node.kind = .tag name (markup.norm q) opener := by
  have hpiece : Grammar.IsPiece (tagText q name markup).toList fun offset =>
      .tag (Grammar.delimiterAt false false (tagText q name markup).toList offset) name (markup.norm q) := by
    rw [toList_tagText]
    exact Grammar.isPiece_leaf h
  exact ⟨_, _, parse_single_tag hleaf hpiece, rfl⟩

theorem branch_read_again (h : markup.LeafSpelled name) (hstarts : isBranchStart name = true) {outer : String}
    {head : Markup} (hhead : head.BlockSpelled outer) (hshown : head.hidesArgument = false)
    (hbranched : isBranchedTag outer = true) :
    ∃ node opener closer first next start,
      Document.parse (tagText q outer head ++ tagText q name markup ++ endText outer) .strict =
        .ok (.ofNodes (tagText q outer head ++ tagText q name markup ++ endText outer) [node]) ∧
      (node.kind = .block outer (head.norm q) opener (some closer) ∧ node.children = [first, next]) ∧
      next.kind = .branch (some name) (markup.norm q) start := by
  have hpieces : ∀ piece ∈ [Grammar.openingPiece q outer head, Grammar.leafPiece q name markup,
      Grammar.closingPiece outer],
      Grammar.IsPiece piece.1 piece.2 := by
    simpa using ⟨Grammar.isPiece_opening hhead hshown, Grammar.isPiece_leaf h,
      Grammar.isPiece_closing (Grammar.mem_blockNames hhead)⟩
  have hsource : (tagText q outer head ++ tagText q name markup ++ endText outer).toList =
      [Grammar.openingPiece q outer head, Grammar.leafPiece q name markup,
        Grammar.closingPiece outer].flatMap (·.1) := by
    simp [toList_tagText, toList_endText, Grammar.openingPiece, Grammar.leafPiece, Grammar.closingPiece]
  exact ⟨_, _, _, _, _, _, parse_pieces hpieces hsource
    (.branched hbranched (.nextBranch hstarts .nil (.lastBranch .nil))),
    ⟨rfl, rfl⟩, rfl⟩

/-- **A written tag is read as the same tag.** Known markup that was read from a tag is written as a text that is read
as a tag with the same name and markup, apart from the marks of its strings and brackets that are written as dots: a
tag that opens a block, once it is closed; a tag without a body; and a tag that starts a branch, in any block that has
branches. -/
theorem tag_read_again (q : Quote) {name : String} {markup : Markup} (hshown : markup.hidesArgument = false) :
    (OpensBlock name markup →
      ∃ node opener closer, Document.parse (tagText q name markup ++ endText name) .strict =
          .ok (.ofNodes (tagText q name markup ++ endText name) [node]) ∧
        node.kind = .block name (markup.norm q) opener (some closer)) ∧
    (StandsAlone name markup → isBranchStart name = false →
      ∃ node opener, Document.parse (tagText q name markup) .strict = .ok (.ofNodes (tagText q name markup) [node]) ∧
        node.kind = .tag name (markup.norm q) opener) ∧
    (StandsAlone name markup → isBranchStart name = true →
      ∀ outer head, OpensBlock outer head → head.hidesArgument = false → isBranchedTag outer = true →
        ∃ node opener closer first next start,
          Document.parse (tagText q outer head ++ tagText q name markup ++ endText outer) .strict =
            .ok (.ofNodes (tagText q outer head ++ tagText q name markup ++ endText outer) [node]) ∧
          (node.kind = .block outer (head.norm q) opener (some closer) ∧ node.children = [first, next]) ∧
          next.kind = .branch (some name) (markup.norm q) start) := by
  refine ⟨fun h => block_read_again h.spelled hshown, fun h hleaf => leaf_read_again h.spelled hleaf, ?_⟩
  intro h hstarts outer head hhead hshown hbranched
  exact branch_read_again h.spelled hstarts hhead.spelled hshown hbranched

end

/-! ## Loops and branches -/

/-- A lone tag with a body, of the given name, with markup that passes a test. -/
def Token.isLoneBlock (name : String) (test : Markup → Bool) : List Token → Bool
  | [.blockOpen _ found markup] => found == name && test markup
  | _ => false

theorem Token.exists_of_isLoneBlock {name : String} {test : Markup → Bool} {ts : List Token}
    (h : isLoneBlock name test ts = true) :
    ∃ origin markup, ts = [.blockOpen origin name markup] ∧ test markup = true := by
  unfold isLoneBlock at h
  split at h
  next origin found markup =>
    simp only [Bool.and_eq_true, beq_iff_eq] at h
    obtain ⟨rfl, htest⟩ := h
    exact ⟨origin, markup, rfl, htest⟩
  next => cases h

/-- A lone tag without a body, of the given name, with markup that passes a test. -/
def Token.isLoneTag (name : String) (test : Markup → Bool) : List Token → Bool
  | [.tag _ found markup] => found == name && test markup
  | _ => false

theorem Token.exists_of_isLoneTag {name : String} {test : Markup → Bool} {ts : List Token}
    (h : isLoneTag name test ts = true) :
    ∃ origin markup, ts = [.tag origin name markup] ∧ test markup = true := by
  unfold isLoneTag at h
  split at h
  next origin found markup =>
    simp only [Bool.and_eq_true, beq_iff_eq] at h
    obtain ⟨rfl, htest⟩ := h
    exact ⟨origin, markup, rfl, htest⟩
  next => cases h

def Markup.isLoop : Markup → Bool
  | .loop _ _ _ _ => true
  | _ => false

def Markup.isCondition : Markup → Bool
  | .condition _ => true
  | _ => false

theorem Markup.exists_of_isCondition {markup : Markup} (h : markup.isCondition = true) :
    ∃ test, markup = .condition test := by
  cases markup with
  | condition test => exact ⟨test, rfl⟩
  | _ => cases h

/-- A document of one tag with the given name and with markup that is only kept as text. -/
def Document.isPlainBlock (name text : String) (d : Document Unit) : Bool :=
  match d.root.children with
  | [⟨_, _, .block found (.plain kept) _ _, _, _, _, _⟩] => found == name && kept == text
  | _ => false

theorem Document.exists_of_isPlainBlock {name text : String} {d : Document Unit} (h : d.isPlainBlock name text = true) :
    ∃ node opener closer, d.root.children = [node] ∧ node.kind = .block name (.plain text) opener closer := by
  unfold isPlainBlock at h
  split at h
  next span found kept opener closer _ _ _ _ hchildren =>
    simp only [Bool.and_eq_true, beq_iff_eq] at h
    obtain ⟨rfl, rfl⟩ := h
    exact ⟨_, opener, closer, hchildren, rfl⟩
  next => cases h

/-- A loop with an argument that is named like the word for a loop in reverse, behind a comma. It is written without the
comma, and read again as a tag whose markup has no known form. -/
theorem argument_read_as_reversed : ∃ markup, OpensBlock "for" markup ∧ markup.hidesArgument = true ∧
    tagText .double "for" markup = "\x7b% for i in a reversed: 1 %\x7d" ∧
    ∃ d node opener closer, Document.parse (tagText .double "for" markup ++ endText "for") = .ok d ∧
      d.root.children = [node] ∧ node.kind = .block "for" (.plain "i in a reversed: 1") opener closer := by
  obtain ⟨tokens, htokens, hloop⟩ := @exists_eq_ok _ _ (Token.ofSource "\x7b% for i in a, reversed: 1 %\x7d")
    (Token.isLoneBlock "for" fun markup =>
      markup.hidesArgument && tagText .double "for" markup == "\x7b% for i in a reversed: 1 %\x7d") (by decide +kernel)
  obtain ⟨d, hparse, hread⟩ := @exists_eq_ok _ _
    (Document.parse ("\x7b% for i in a reversed: 1 %\x7d" ++ endText "for"))
    (Document.isPlainBlock "for" "i in a reversed: 1") (by decide +kernel)
  obtain ⟨origin, markup, rfl, htest⟩ := Token.exists_of_isLoneBlock hloop
  obtain ⟨node, opener, closer, hchildren, hkind⟩ := Document.exists_of_isPlainBlock hread
  simp only [Bool.and_eq_true, beq_iff_eq] at htest
  obtain ⟨hhides, htext⟩ := htest
  refine ⟨markup, ⟨⟨_, origin, _, htokens, _, List.mem_singleton.2 rfl, .here _⟩, ?_⟩, hhides, htext, d, node, opener,
    closer, by rw [htext, hparse], hchildren, hkind⟩
  rintro text rfl
  cases hhides

/-- A loop over a lookup, and a branch with a comparison in the block of a condition. -/
theorem loop_and_branch_read_again :
    (∃ markup, OpensBlock "for" markup ∧ markup.hidesArgument = false ∧
      ∃ node opener closer, Document.parse (tagText .double "for" markup ++ endText "for") .strict =
          .ok (.ofNodes (tagText .double "for" markup ++ endText "for") [node]) ∧
        node.kind = .block "for" (markup.norm .double) opener (some closer)) ∧
    ∃ test head, StandsAlone "elsif" (.condition test) ∧ OpensBlock "if" (.condition head) ∧
      ∃ node opener closer first next start, Document.parse
          (tagText .single "if" (.condition head) ++ tagText .single "elsif" (.condition test) ++
            endText "if") .strict =
        .ok (.ofNodes
          (tagText .single "if" (.condition head) ++ tagText .single "elsif" (.condition test) ++
            endText "if") [node]) ∧
      (node.kind = .block "if" (.condition (head.norm .single)) opener (some closer) ∧ node.children = [first, next]) ∧
      next.kind = .branch (some "elsif") (.condition (test.norm .single)) start := by
  obtain ⟨loop, hloop, hloop'⟩ := @exists_eq_ok _ _ (Token.ofSource "\x7b% for i in a['b'], limit: 2 %\x7d")
    (Token.isLoneBlock "for" fun markup => markup.isLoop && !markup.hidesArgument) (by decide +kernel)
  obtain ⟨branch, hbranch, hbranch'⟩ := @exists_eq_ok _ _ (Token.ofSource "\x7b% elsif a == \"b\" %\x7d")
    (Token.isLoneTag "elsif" Markup.isCondition) (by decide +kernel)
  obtain ⟨block, hblock, hblock'⟩ := @exists_eq_ok _ _ (Token.ofSource "\x7b% if c %\x7d")
    (Token.isLoneBlock "if" Markup.isCondition) (by decide +kernel)
  obtain ⟨origin, markup, rfl, htest⟩ := Token.exists_of_isLoneBlock hloop'
  obtain ⟨origin', _, rfl, hcondition⟩ := Token.exists_of_isLoneTag hbranch'
  obtain ⟨origin'', _, rfl, hcondition'⟩ := Token.exists_of_isLoneBlock hblock'
  obtain ⟨test, rfl⟩ := Markup.exists_of_isCondition hcondition
  obtain ⟨head, rfl⟩ := Markup.exists_of_isCondition hcondition'
  simp only [Bool.and_eq_true, Bool.not_eq_true'] at htest
  obtain ⟨hisLoop, hshown⟩ := htest
  have hfor : OpensBlock "for" markup := by
    refine ⟨⟨_, origin, _, hloop, _, List.mem_singleton.2 rfl, .here _⟩, ?_⟩
    rintro text rfl
    cases hisLoop
  have hstands : StandsAlone "elsif" (.condition test) :=
    ⟨⟨_, origin', _, hbranch, _, List.mem_singleton.2 rfl, .here _⟩, by simp⟩
  have hopens : OpensBlock "if" (.condition head) :=
    ⟨⟨_, origin'', _, hblock, _, List.mem_singleton.2 rfl, .here _⟩, by simp⟩
  refine ⟨⟨markup, hfor, hshown, (tag_read_again .double hshown).1 hfor⟩, test, head, hstands, hopens, ?_⟩
  exact (tag_read_again .single rfl).2.2 hstands rfl "if" _ hopens rfl rfl

end LiquidTemplate
