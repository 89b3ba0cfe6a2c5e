import LiquidTemplate.Proofs.Grammar.Everywhere
import LiquidTemplate.Proofs.Grammar.Words

/-!
# Names of tags

A tag with the name of a block always opens one. The rule for tags without a body comes after the one for tags with a
body, and wherever it could read such a name, the rule before it matches already (`opened_of_ofSource`). So it is with
the tags whose body is divided into branches (`unbranched_of_ofSource`).
-/

namespace LiquidTemplate

def Grammar.blockNames : List String :=
  ["capture", "case", "form", "for", "if", "paginate", "tablerow", "unless"]

namespace Token

/-- A tag that is never closed, with the name of a tag whose body is divided into branches. -/
def isBranchedLeaf : Token → Bool
  | tag _ name _ => isBranchedTag name
  | _ => false

/-- A tag that is never closed, with the name of a tag that opens a block. -/
def isBlockLeaf : Token → Bool
  | tag _ name _ => name ∈ Grammar.blockNames
  | _ => false

end Token

namespace Grammar

open Peg Token

variable {recur : Cursor → Option (Expression × Cursor)} {c d : Cursor}

/-! ## Names -/

theorem takes_blockName {name : String} {rest : List Char} (hname : name ∈ blockNames)
    (hrest : rest.head?.any Text.isWordChar = false) : blockName.Takes recur name.toList rest name := by
  have hskip {s t : String} (hs : s.toList.all Text.isWordChar = true) (ht : t.toList.all Text.isWordChar = true)
      (hne : s.toList ≠ t.toList) : (word s).Refuses recur (t.toList ++ rest) := refuses_word hs ht hrest hne
  simp only [blockNames, List.mem_cons, List.not_mem_nil, or_false] at hname
  rw [blockName]
  apply takes_atom
  rcases hname with rfl | rfl | rfl | rfl | rfl | rfl | rfl | rfl
  · exact takes_orElse_left (takes_word hrest)
  · iterate 1 refine takes_orElse_right (hskip (by decide) (by decide) (by decide)) ?_
    exact takes_orElse_left (takes_word hrest)
  · iterate 2 refine takes_orElse_right (hskip (by decide) (by decide) (by decide)) ?_
    exact takes_orElse_left (takes_word hrest)
  · iterate 3 refine takes_orElse_right (hskip (by decide) (by decide) (by decide)) ?_
    exact takes_orElse_left (takes_word hrest)
  · iterate 4 refine takes_orElse_right (hskip (by decide) (by decide) (by decide)) ?_
    exact takes_orElse_left (takes_word hrest)
  · iterate 5 refine takes_orElse_right (hskip (by decide) (by decide) (by decide)) ?_
    exact takes_orElse_left (takes_word hrest)
  · iterate 6 refine takes_orElse_right (hskip (by decide) (by decide) (by decide)) ?_
    exact takes_orElse_left (takes_word hrest)
  · iterate 7 refine takes_orElse_right (hskip (by decide) (by decide) (by decide)) ?_
    exact takes_word hrest

theorem takes_tagName {a : Char} {w rest : List Char} (ha : Text.isNameStart a = true)
    (hw : w.all Text.isWordChar = true) (hrest : rest.head?.any Text.isWordChar = false) :
    tagName.Takes recur (a :: w) rest (String.ofList (a :: w)) := by
  have hsharp : (Peg.text "#" : Grammar Unit).Refuses recur (a :: w ++ rest) := by
    have hne : a ≠ '#' := by
      rintro rfl
      exact absurd ha (by decide)
    exact refuses_text (by simp [Text.stripStart?, Ne.symm hne])
  exact takes_atom (takes_covered (takes_orElse_right hsharp
    (takes_giving (takes_seqLeft (u := [a]) (takes_char ha) (takesMany_char hw hrest).takes))))

/-- Where such a name can be read as that of a tag, it can be read as the name of a block. -/
theorem read_blockName {name : String} (h : tagName.read recur c = some (name, d)) (hname : name ∈ blockNames) :
    blockName.read recur c = some (name, d) := by
  by_cases hstart : c.rest.head?.any Text.isNameStart = true
  · obtain ⟨a, cs, hc⟩ : ∃ a cs, c.rest = a :: cs := by
      cases hc : c.rest with
      | nil => simp [hc] at hstart
      | cons a cs => exact ⟨a, cs, rfl⟩
    have ha : Text.isNameStart a = true := by simpa [hc] using hstart
    have hw : (cs.takeWhile Text.isWordChar).all Text.isWordChar = true := List.all_takeWhile
    have hrest := head?_dropWhile Text.isWordChar cs
    have hsplit : c.rest = (a :: cs.takeWhile Text.isWordChar) ++ cs.dropWhile Text.isWordChar := by
      rw [hc, List.cons_append, List.takeWhile_append_dropWhile]
    rw [(takes_tagName ha hw hrest).read hsplit] at h
    cases h
    have htakes : blockName.Takes recur _ _ _ := takes_blockName hname hrest
    rw [String.toList_ofList] at htakes
    exact htakes.read hsplit
  · -- the only other name of a tag is the sign of a comment
    have hword : (giving () (.char Text.isNameStart <* .many (.char Text.isWordChar)) : Grammar Unit).Refuses recur
        c.rest := refuses_giving (refuses_seqLeft_left (refuses_char (by simpa using hstart)))
    cases hstrip : Text.stripStart? "#".toList c.rest with
    | none =>
      have hrefuses : tagName.Refuses recur c.rest := refuses_covered (refuses_orElse (refuses_text hstrip) hword)
      rw [hrefuses.read] at h
      cases h
    | some rest =>
      have htakes : tagName.Takes recur "#".toList rest (String.ofList "#".toList) :=
        takes_atom (takes_covered (takes_orElse_left takes_text))
      rw [htakes.read (Text.stripStart?_eq_some_iff.1 hstrip)] at h
      cases h
      exact absurd hname (by decide)

/-! ## Tags -/

def openingMarks (opening : String) : Grammar Bool :=
  .text opening *> flag (named .trimStart (.text "-")) <* blanks

def closingMarks (closing : String) : Grammar Bool :=
  flag (named .trimEnd (.text "-")) <* .text closing

theorem read_delimited {α : Type} {opening closing : String} {inner : Grammar α} :
    (delimited opening closing inner).read recur c =
      ((openingMarks opening).read recur c).bind fun l =>
        ((inner <* blanks).read recur l.2).bind fun x =>
          ((closingMarks closing).read recur x.2).map fun r =>
            (⟨⟨⟨c.offset, r.2.offset⟩, l.1, r.1⟩, String.ofList (c.charsTo r.2), x.1⟩, r.2) := by
  rw [delimited, sliced, read_map, read_slice, read_seq, read_seq, read_map]
  change ((((((openingMarks opening).read recur c).map _).bind _).bind _).map _).map _ = _
  cases (openingMarks opening).read recur c with
  | none => rfl
  | some l =>
    simp only [Option.map_some, Option.bind_some]
    cases (inner <* blanks).read recur l.2 with
    | none => rfl
    | some x =>
      simp only [Option.map_some, Option.bind_some]
      change ((((closingMarks closing).read recur x.2).map _).map _).map _ = _
      cases (closingMarks closing).read recur x.2 with
      | none => rfl
      | some r => rfl

theorem exists_closingMarks (h : (tagEnd.read recur c).isSome = true) :
    ∃ d r, blanks.read recur c = some ((), d) ∧ (closingMarks tagClose).read recur d = some r := by
  rw [tagEnd, read_seqRight, read_seqRight] at h
  obtain ⟨⟨⟨⟩, d⟩, hblanks⟩ : ∃ r, blanks.read recur c = some r := by
    cases hblanks : blanks.read recur c with
    | none => simp [hblanks] at h
    | some r => exact ⟨r, rfl⟩
  refine ⟨d, ?_⟩
  rw [hblanks, Option.bind_some, read_opt] at h
  rw [closingMarks, read_seqLeft, read_flag, read_named]
  cases hdash : (Peg.text "-" : Grammar Unit).read recur d with
  | none =>
    simp only [hdash, Option.map_none, Option.none_or, Option.bind_some] at h ⊢
    obtain ⟨r, hr⟩ := Option.isSome_iff_exists.1 h
    exact ⟨(false, r.2), hblanks, by rw [hr]; rfl⟩
  | some s =>
    simp only [hdash, Option.map_some, Option.some_or, Option.bind_some] at h ⊢
    obtain ⟨r, hr⟩ := Option.isSome_iff_exists.1 h
    exact ⟨(true, r.2), hblanks, by rw [hr]; rfl⟩

theorem yields_word {H : (Cursor → Option (Expression × Cursor)) → Prop} {I : Cursor → Prop} (h : Tracks H I)
    (s : String) : (word s).Yields H I (· = s) :=
  yields_seqLeft (yields_giving (B := (· = s)) h rfl) h _

theorem yields_tagMarkup {H : (Cursor → Option (Expression × Cursor)) → Prop} {I : Cursor → Prop} (h : Tracks H I) :
    tagMarkup.Yields H I fun x => x.1 ∉ blockNames := by
  have hword (s : String) (hs : s ∉ blockNames) :
      (word s).Yields H I fun name => name ∉ blockNames :=
    (yields_word h s).imp fun name hname => hname ▸ hs
  have hhead {p : Grammar String} (hp : p.Yields H I fun name => name ∉ blockNames) :
      (p <* blanks1).Yields H I fun name => name ∉ blockNames := yields_seqLeft hp h _
  have htrue {α : Type} (p : Grammar α) := h.yields_true p
  have hpair {α : Type} {p : Grammar String} {q : Grammar α} {f : α → Markup}
      (hp : p.Yields H I fun name => name ∉ blockNames) :
      (Prod.mk <$> p <*> (f <$> q)).Yields H I fun x => x.1 ∉ blockNames :=
    yields_seq (yields_map hp fun _ hx _ _ => hx) (htrue _)
  refine yields_orElse (hpair (hhead (hword "elsif" (by decide)))) <|
    yields_orElse (hpair (hhead (hword "when" (by decide)))) <|
    yields_orElse ?assign <|
    yields_orElse (hpair (hhead (hword "echo" (by decide)))) <|
    yields_orElse ?cycle <|
    yields_orElse ?snippet <|
    yields_orElse (hpair (hhead (yields_orElse (hword "increment" (by decide)) (hword "decrement" (by decide))))) <|
    yields_orElse (hpair (hhead (hword "layout" (by decide)))) <|
    yields_orElse (hpair (hhead (hword "section" (by decide)))) (hpair (hword "liquid" (by decide)))
  case assign =>
    exact yields_named (yields_seq (yields_seq (yields_map (hhead (hword "assign" (by decide)))
      fun _ hx _ _ _ _ => hx) (htrue _)) (htrue _))
  case cycle =>
    exact yields_named (yields_seq (yields_seq (yields_map (hhead (hword "cycle" (by decide)))
      fun _ hx _ _ _ _ => hx) (htrue _)) (htrue _))
  case snippet =>
    have hname := hhead (yields_orElse (hword "render" (by decide)) (hword "include" (by decide)))
    exact yields_named (yields_seq (yields_seq (yields_seq (yields_seq (yields_map hname
      fun _ hx _ _ _ _ _ _ _ _ => hx) (htrue _)) (htrue _)) (htrue _)) (htrue _))

theorem read_plainTag {name : Grammar String} : (plainTag name).read recur c =
    (name.read recur c).bind fun n => (blanks.read recur n.2).bind fun b =>
      (plainMarkup.read recur b.2).map fun m => ((n.1, .plain (Text.trim m.1)), m.2) := by
  rw [plainTag, read_seq, read_map, read_seqLeft]
  cases name.read recur c with
  | none => rfl
  | some n =>
    simp only [Option.bind_some]
    cases blanks.read recur n.2 with
    | none => rfl
    | some b => rfl

theorem exists_blockOpen {x : String × Markup} {r : Bool × Cursor} {e : Cursor}
    (hinner : (plainTag tagName).read recur c = some (x, d)) (hblanks : blanks.read recur d = some ((), e))
    (hclosing : (closingMarks tagClose).read recur e = some r) (hname : x.1 ∈ blockNames) :
    ∃ y s, ((blockMarkup <* .ahead tagEnd <|> plainTag blockName) <* blanks).read recur c = some y ∧
      (closingMarks tagClose).read recur y.2 = some s := by
  rw [read_seqLeft, read_orElse]
  cases hmarkup : (blockMarkup <* .ahead tagEnd : Grammar (String × Markup)).read recur c with
  | some y =>
    rw [read_seqLeft] at hmarkup
    obtain ⟨z, hz, hmarkup⟩ := Option.bind_eq_some_iff.1 hmarkup
    obtain ⟨u, hahead, rfl⟩ := Option.map_eq_some_iff.1 hmarkup
    obtain ⟨v, hend, rfl⟩ := Option.map_eq_some_iff.1 hahead
    obtain ⟨d', s, hblanks', hclosing'⟩ := exists_closingMarks (by rw [hend]; rfl)
    exact ⟨(z.1, d'), s, by simp [hblanks'], hclosing'⟩
  | none =>
    have hplain : (plainTag blockName).read recur c = some (x, d) := by
      rw [read_plainTag] at hinner ⊢
      obtain ⟨⟨name, c'⟩, hread, hinner⟩ := Option.bind_eq_some_iff.1 hinner
      obtain ⟨b, hb, hinner⟩ := Option.bind_eq_some_iff.1 hinner
      obtain ⟨m, hm, heq⟩ := Option.map_eq_some_iff.1 hinner
      cases heq
      rw [read_blockName hread hname, Option.bind_some, hb, Option.bind_some, hm]
      rfl
    exact ⟨(x, e), r, by simp [hplain, hblanks], hclosing⟩

/-- Where a tag with a body cannot be read, no tag without a body has the name of a block. -/
theorem opened_tag (hrecur : Forward recur) {t : Token} (hopen : blockOpen.read recur c = none)
    (htag : tag.read recur c = some (t, d)) : t.isBlockLeaf = false := by
  rw [tag, read_named, read_map, read_delimited] at htag
  obtain ⟨⟨x, d'⟩, hread, heq⟩ := Option.map_eq_some_iff.1 htag
  cases heq
  obtain ⟨⟨left, c₁⟩, hmarks, hread⟩ := Option.bind_eq_some_iff.1 hread
  obtain ⟨⟨y, c₃⟩, hinner, hread⟩ := Option.bind_eq_some_iff.1 hread
  obtain ⟨r, hclosing, heq⟩ := Option.map_eq_some_iff.1 hread
  cases heq
  rw [read_seqLeft] at hinner
  obtain ⟨⟨y, c₂⟩, hchoice, hread⟩ := Option.bind_eq_some_iff.1 hinner
  obtain ⟨⟨⟨⟩, c₃⟩, hblanks, heq⟩ := Option.map_eq_some_iff.1 hread
  cases heq
  change decide (y.1 ∈ blockNames) = false
  rw [decide_eq_false_iff_not]
  rcases Option.or_eq_some_iff.1 hchoice with hknown | ⟨-, hplain⟩
  · have hyields := yields_seqLeft (yields_tagMarkup tracks_forward) tracks_forward (.ahead tagEnd)
    exact (hyields recur hrecur _ _ _ hknown trivial).1
  · intro hname
    obtain ⟨z, s, hblock, hclosing'⟩ := exists_blockOpen hplain hblanks hclosing hname
    rw [blockOpen, read_named, read_map, read_delimited, hmarks, Option.bind_some, hblock, Option.bind_some,
      hclosing'] at hopen
    cases hopen

theorem reads_opened : liquidTag.Reads fun _ t _ => t.isBlockLeaf = false := by
  have hmap {α : Type} {f : α → Token} {p : Grammar α} (hf : ∀ x, (f x).isBlockLeaf = false) :
      (f <$> p).Reads fun _ t _ => t.isBlockLeaf = false := reads_map fun _ _ _ x _ _ => hf x
  have hraw : rawTag.Yields Forward (fun _ => True) fun t => t.isBlockLeaf = false := by
    have htrue {α : Type} (p : Grammar α) := tracks_forward.yields_true p
    exact yields_named (yields_spanned (yields_seq (yields_seq (yields_map (htrue _)
      fun _ _ _ _ _ _ _ _ _ _ => rfl) (htrue _)) (htrue _)))
  intro recur hrecur c t d hread
  rcases Option.or_eq_some_iff.1 hread with h | ⟨-, hread⟩
  · exact (hraw recur hrecur c t d h trivial).1
  rcases Option.or_eq_some_iff.1 hread with h | ⟨-, hread⟩
  · exact hmap (fun _ => rfl) recur hrecur c t d h
  rcases Option.or_eq_some_iff.1 hread with h | ⟨hopen, htag⟩
  · exact hmap (fun _ => rfl) recur hrecur c t d h
  · exact opened_tag hrecur hopen htag

theorem openedRules : TokenRules Forward (fun _ => True) fun t => t.isBlockLeaf = false where
  toTracks := tracks_forward
  liquidTag := reads_opened.imp fun _ _ _ h _ => h
  drop := reads_named (reads_map fun _ _ _ _ _ _ _ => rfl)
  text _ _ _ _ := rfl
  frontMatter _ _ _ _ _ := rfl
  comment _ _ _ _ _ := rfl
  doctype _ _ _ _ _ := rfl
  openTag := reads_openTag_of tracks_forward (fun _ _ _ _ _ _ => rfl) (fun _ _ _ _ _ _ => rfl) fun _ _ _ _ _ _ => rfl
  closeTag := reads_closeTag_of tracks_forward fun _ _ _ _ _ => rfl
  rawElement := reads_rawElement_of tracks_forward fun _ _ _ _ _ _ _ _ _ => rfl
  attr := reads_attr_of tracks_forward fun _ _ _ _ _ _ _ _ => rfl

end Grammar

/-- **A tag with the name of a block always opens one**, wherever in a template it stands. -/
theorem opened_of_ofSource {source : String} {tokens : List Token} (h : Token.ofSource source = .ok tokens) :
    ∀ t ∈ tokens, t.Everywhere fun t => t.isBlockLeaf = false :=
  Grammar.openedRules.ofSource (Peg.forward_readNested _) trivial h

theorem Token.isBranchedLeaf_eq_false {t : Token} (h : t.isBlockLeaf = false) : t.isBranchedLeaf = false := by
  cases t with
  | tag d name markup =>
    have hnames : name ∉ Grammar.blockNames := of_decide_eq_false h
    refine Bool.eq_false_iff.2 fun hbranched => hnames ?_
    have hcases : name = "if" ∨ name = "unless" ∨ name = "for" ∨ name = "tablerow" ∨ name = "case" := by
      simpa [isBranchedLeaf, isBranchedTag] using hbranched
    rcases hcases with rfl | rfl | rfl | rfl | rfl <;> decide
  | _ => rfl

/-- **A tag whose body is divided into branches always opens a block**, wherever in a template it stands. -/
theorem unbranched_of_ofSource {source : String} {tokens : List Token} (h : Token.ofSource source = .ok tokens) :
    ∀ t ∈ tokens, t.Everywhere fun t => t.isBranchedLeaf = false :=
  fun t ht => (opened_of_ofSource h t ht).imp fun _ => Token.isBranchedLeaf_eq_false

end LiquidTemplate
