import LiquidTemplate.Proofs.Grammar.Delimited
import LiquidTemplate.Proofs.Grammar.Spelled
import LiquidTemplate.Proofs.Nesting.Strict
import LiquidTemplate.Proofs.Print.Visible

/-!
# Printed drops are read again

A drop with an expression in it is printed on one line or with each filter on a line of its own. Either way the text is
read as the same drop (`drop_read_again`): only the marks of its strings and the brackets that are written as dots
differ, as `Filtered.norm` says.
-/

namespace LiquidTemplate

namespace Grammar

open Peg

/-- The text of a drop, with the same blanks before its expression and before all its filters. -/
def dropChars (q : Quote) (v : Filtered) (left right : Bool) (gap after : List Char) : List Char :=
  delimitedChars dropOpen dropClose left right gap (filteredChars q gap v) after

theorem isPiece_drop {q : Quote} {v : Filtered} (hv : v.Spelled) {left right : Bool} {gap after : List Char}
    (hne : gap ≠ []) (hgap : gap.all Text.isBlank = true) (hne' : after ≠ []) (hafter : after.all Text.isBlank = true) :
    IsPiece (dropChars q v left right gap after) fun offset =>
      .drop (delimiterAt left right (dropChars q v left right gap after) offset)
        (String.ofList (dropChars q v left right gap after)) (.value (v.norm q)) := by
  refine ⟨rfl, fun rest => ?_⟩
  have hclosing : IsClosing dropClose := .inr rfl
  have hends : FilterEnds (after ++ (closingChars dropClose right ++ rest)) :=
    ⟨ends_of_gap hne' hafter, hclosing.afterBlanks hafter right (by decide),
      hclosing.afterBlanks hafter right (by decide)⟩
  have hvalue : filtered.Takes keys (filteredChars q gap v)
      (after ++ (closingChars dropClose right ++ rest)) (v.norm q) :=
    takes_filtered hne hgap hv hends (hclosing.afterBlanks hafter right (by decide))
  have hend : (Peg.ahead dropEnd : Grammar Unit).Takes keys []
      (after ++ (closingChars dropClose right ++ rest)) () := by
    rw [← List.append_assoc]
    exact takes_ahead (takes_closing hclosing hafter)
  have hinner : (named .dropMarkup (.value <$> filtered) <* .ahead dropEnd : Grammar DropMarkup).Takes keys
      (filteredChars q gap v ++ []) (after ++ (closingChars dropClose right ++ rest)) (.value (v.norm q)) :=
    takes_seqLeft (takes_named (takes_map hvalue)) hend
  rw [List.append_nil] at hinner
  have hhead : (filteredChars q gap v ++ (after ++ (closingChars dropClose right ++ rest))).head?.any
      Text.isBlank = false := by
    rw [filteredChars, List.append_assoc]
    exact head_render hv.subject.spelled q _
  refine takesAt_orElse_right (refuses_liquidTag rfl) (takesAt_named (takesAt_map (x := fun offset =>
    Delimited.mk (delimiterAt left right (dropChars q v left right gap after) offset)
      (String.ofList (dropChars q v left right gap after)) (DropMarkup.value (v.norm q))) ?_))
  exact takesAt_delimited hclosing hne hgap hafter hhead (takes_orElse_left hinner)

end Grammar

/-! ## Layouts of a drop -/

section

variable {style : PageStyle} {indent : Nat} {flat : Bool}

/-- What a line with a space stands for. -/
def lineGap (style : PageStyle) (indent : Nat) (flat : Bool) : String :=
  if flat then " " else style.newLine indent

theorem lineGap_ne_empty : lineGap style indent flat ≠ "" := by
  unfold lineGap
  split
  · decide
  · exact newLine_ne_empty style indent

theorem isBlankText_lineGap : IsBlankText (lineGap style indent flat) := by
  unfold lineGap
  split
  · rfl
  · exact isBlankText_newLine style indent

theorem layout_lineGap {s : String} : Doc.Layout style indent flat (.line 1) s ↔ s = lineGap style indent flat :=
  Doc.layout_line

theorem layout_lineItems {α : Type} {text : α → String} {xs : List α} {s : String}
    (h : Doc.Layout style indent flat (.concat (xs.map fun x => .line 1 ++ .text (text x))) s) :
    s.toList = xs.flatMap fun x => (lineGap style indent flat).toList ++ (text x).toList := by
  induction xs generalizing s with
  | nil =>
    rw [Doc.layout_nil.1 h]
    rfl
  | cons x xs ih =>
    obtain ⟨t, u, rfl, hfirst, hrest⟩ := Doc.layout_append.1 h
    obtain ⟨gap, item, rfl, hgap, hitem⟩ := Doc.layout_append.1 hfirst
    rw [layout_lineGap.1 hgap, Doc.layout_text.1 hitem, String.toList_append, String.toList_append, ih hrest,
      List.flatMap_cons]

theorem toList_dropStart (d : Delimiter) : d.dropStart.toList = dropOpen.toList ++ Grammar.dash d.trimLeft := by
  unfold Delimiter.dropStart Grammar.dash
  split <;> simp

theorem toList_dropStop (d : Delimiter) : d.dropStop.toList = Grammar.closingChars dropClose d.trimRight := by
  unfold Delimiter.dropStop Grammar.closingChars Grammar.dash
  split <;> simp

theorem layout_printDrop {ctx : PrintContext} {v : Filtered} {d : Delimiter} {s : String}
    (h : Doc.Layout style indent flat (printDrop ctx (.value v) d) s) :
    ∃ gap after : String, (gap ≠ "" ∧ IsBlankText gap) ∧ (after ≠ "" ∧ IsBlankText after) ∧
      s.toList = Grammar.dropChars (ctx.stringQuote none) v d.trimLeft d.trimRight gap.toList after.toList := by
  obtain ⟨t, stop, rfl, h, hstop⟩ := Doc.layout_append.1 h
  obtain ⟨start, body, rfl, hstart, hbody⟩ := Doc.layout_append.1 h
  obtain ⟨inner, -, hbody⟩ := Doc.layout_group.1 hbody
  obtain ⟨t, after, rfl, hnested, hafter⟩ := Doc.layout_append.1 hbody
  obtain ⟨t, filters, rfl, hsubject, hfilters⟩ := Doc.layout_append.1 (Doc.layout_nest.1 hnested)
  obtain ⟨gap, subject, rfl, hgap, hsubject⟩ := Doc.layout_append.1 hsubject
  refine ⟨lineGap style (indent + ctx.options.indentWidth) inner, lineGap style indent inner,
    ⟨lineGap_ne_empty, isBlankText_lineGap⟩, ⟨lineGap_ne_empty, isBlankText_lineGap⟩, ?_⟩
  rw [Doc.layout_text.1 hstart, Doc.layout_text.1 hstop, layout_lineGap.1 hgap, layout_lineGap.1 hafter,
    Doc.layout_text.1 hsubject]
  simp only [String.toList_append, toList_dropStart, toList_dropStop, layout_lineItems hfilters, Grammar.dropChars,
    Grammar.delimitedChars, Grammar.filteredChars, List.append_assoc]

end

/-! ## Reading again -/

theorem parse_single_drop {source : String} {w : List Char} {written : String} {markup : DropMarkup} {left right : Bool}
    (h : Grammar.IsPiece w fun offset => .drop (Grammar.delimiterAt left right w offset) written markup)
    (hsource : source.toList = w) :
    Document.parse source .strict = .ok (.ofNodes source
      [{ info := (), span := ⟨0, Text.byteSize w⟩,
         kind := .drop written markup (Grammar.delimiterAt left right w 0) }]) := by
  have hpieces : ∀ piece ∈ [(w, fun offset => Token.drop (Grammar.delimiterAt left right w offset) written markup)],
      Grammar.IsPiece piece.1 piece.2 := List.forall_mem_singleton.2 h
  have htokens : Token.ofSource source = .ok [.drop (Grammar.delimiterAt left right w 0) written markup] :=
    Grammar.ofSource_pieces hpieces (by simpa using hsource)
  rw [parse_of_derives htokens (.single (.leaf rfl .nil .nil .nil))]
  simp [Token.span, Grammar.delimiterAt]

/-- **A printed drop is read as the same drop.** An expression that was read from a drop is printed, at any width and
indentation and wherever on the page, as a text that is read as one drop with the same trim markers and the same
expression, apart from the marks of its strings and brackets that are written as dots. -/
theorem drop_read_again {source : String} {origin : Delimiter} {written : String} {v : Filtered}
    (hv : (Token.drop origin written (.value v)).StandsIn source) (ctx : PrintContext)
    (d : Delimiter) (style : PageStyle)
    (indent : Nat) (flat : Bool) (rest : Nat → Bool) (p : Page) :
    ∃ s, ((printDrop ctx (.value v) d).renderOn style indent flat rest p).out = p.out ++ s ∧
      Document.parse s .strict = .ok (.ofNodes s
        [{ info := (), span := ⟨0, Text.byteSize s.toList⟩,
           kind := .drop s (.value (v.norm ctx.options.liquidQuotes))
             ⟨⟨0, Text.byteSize s.toList⟩, d.trimLeft, d.trimRight⟩ }]) := by
  obtain ⟨s, hlayout, hout⟩ := Doc.renderOn_layout (printDrop ctx (.value v) d) style indent flat rest p
  obtain ⟨gap, after, ⟨hgap, hgapBlank⟩, ⟨hafter, hafterBlank⟩, htext⟩ := layout_printDrop hlayout
  refine ⟨s, hout, ?_⟩
  have hpiece : Grammar.IsPiece
      (Grammar.dropChars (ctx.stringQuote none) v d.trimLeft d.trimRight gap.toList after.toList) _ :=
    Grammar.isPiece_drop hv.spelled (by simpa using hgap) hgapBlank (by simpa using hafter) hafterBlank
  rw [← htext, String.ofList_toList] at hpiece
  have hparse := parse_single_drop hpiece rfl
  simpa [Grammar.delimiterAt, PrintContext.stringQuote] using hparse

def Token.isLoneValue : List Token → Bool
  | [.drop _ _ (.value _)] => true
  | _ => false

/-- A drop with a lookup, a range and a filter, where each part takes a line of its own. -/
theorem narrow_drop_read_again :
    ∃ (origin : Delimiter) (written : String) (v : Filtered),
      (Token.drop origin written (.value v)).StandsIn "\x7b\x7b a['b'] | f: (1..c), d: 'e' \x7d\x7d" ∧
      ∃ s, ((printDrop ⟨[], {}⟩ (.value v) ⟨⟨0, 0⟩, true, false⟩).renderOn
          (Options.pageStyle { printWidth := 4 }) 0 false (fun _ => true) {}).out = "" ++ s ∧
        Document.parse s .strict = .ok (.ofNodes s
          [{ info := (), span := ⟨0, Text.byteSize s.toList⟩,
             kind := .drop s (.value (v.norm .double)) ⟨⟨0, Text.byteSize s.toList⟩, true, false⟩ }]) := by
  obtain ⟨tokens, htokens, hlone⟩ :=
    @exists_eq_ok _ _ (Token.ofSource "\x7b\x7b a['b'] | f: (1..c), d: 'e' \x7d\x7d")
      Token.isLoneValue (by decide +kernel)
  unfold Token.isLoneValue at hlone
  split at hlone
  next origin written v =>
    have hv : (Token.drop origin written (.value v)).StandsIn "\x7b\x7b a['b'] | f: (1..c), d: 'e' \x7d\x7d" :=
      ⟨_, htokens, _, List.mem_singleton.2 rfl, .here _⟩
    exact ⟨origin, written, v, hv, drop_read_again hv _ _ _ _ _ _ _⟩
  next => cases hlone

end LiquidTemplate
