import LiquidTemplate.Code.Dedent
import LiquidTemplate.Proofs.Layout.LineEnds
import Mathlib.Data.List.TakeWhile

/-!
# Indentation by spaces or by tabs

Two pages with the same measures, of which one is indented by spaces and the other one by tabs, are written in step: at
each place the column is the same, so the same groups are flat, and the lines differ in nothing but the spaces and tabs
at their start (`Doc.renderOn_useTabs`). What is written after such lines goes to both in the same way
(`Text.unindented_append_congr`), also where a line has only been indented so far.
-/

namespace LiquidTemplate

namespace Text

/-- The lines of a text without the spaces and tabs at their start. -/
def unindented (cs : List Char) : List (List Char) :=
  (splitChars (· == '\n') cs).map (List.dropWhile isIndent)

/-- Of two texts one after the other, the last piece of the first one and the first piece of the second one are one. -/
theorem splitChars_append_pieces {sep : Char → Bool} {a b last first : List Char} {before after : List (List Char)}
    (ha : splitChars sep a = before ++ [last]) (hb : splitChars sep b = first :: after) :
    splitChars sep (a ++ b) = before ++ (last ++ first) :: after := by
  induction a generalizing before last with
  | nil =>
    obtain ⟨rfl, rfl⟩ : before = [] ∧ last = [] := by
      have hlength := congrArg List.length ha
      cases before with
      | nil => simpa [splitChars] using ha.symm
      | cons => simp [splitChars] at hlength
    simpa using hb
  | cons c a ih =>
    rw [splitChars] at ha
    rw [List.cons_append, splitChars]
    split at ha
    next hc =>
      rw [if_pos hc]
      cases before with
      | nil =>
        obtain ⟨piece, pieces, hpieces, -⟩ := exists_splitChars sep a
        simp [hpieces] at ha
      | cons piece before =>
        rw [List.cons_append, List.cons.injEq] at ha
        rw [ih ha.2, ← ha.1]
        rfl
    next hc =>
      rw [if_neg hc]
      obtain ⟨piece, pieces, hpieces, -⟩ := exists_splitChars sep a
      rw [hpieces] at ha
      cases before with
      | nil =>
        obtain ⟨rfl, rfl⟩ : last = c :: piece ∧ pieces = [] := by simpa using ha.symm
        rw [@ih _ [] hpieces]
        rfl
      | cons piece' before =>
        obtain ⟨rfl, rfl⟩ := List.cons.inj ha
        rw [@ih _ (piece :: before) hpieces]
        rfl

theorem exists_splitChars_concat (sep : Char → Bool) (cs : List Char) :
    ∃ before last, splitChars sep cs = before ++ [last] := by
  obtain ⟨first, rest, hpieces, -⟩ := exists_splitChars sep cs
  obtain hnil | ⟨before, last, hsplit⟩ := List.eq_nil_or_concat' (splitChars sep cs)
  · rw [hpieces] at hnil
    cases hnil
  · exact ⟨before, last, hsplit⟩

/-- **What follows two texts with the same lines** is added to the lines of both. -/
theorem unindented_append_congr {a b : List Char} (h : unindented a = unindented b) (c : List Char) :
    unindented (a ++ c) = unindented (b ++ c) := by
  obtain ⟨before, last, ha⟩ := exists_splitChars_concat (· == '\n') a
  obtain ⟨before', last', hb⟩ := exists_splitChars_concat (· == '\n') b
  obtain ⟨first, after, hc, -⟩ := exists_splitChars (· == '\n') c
  simp only [unindented, ha, hb, List.map_append, List.map_cons, List.map_nil] at h
  obtain ⟨hbefore, hlast⟩ := List.append_inj' h rfl
  simp only [unindented, splitChars_append_pieces ha hc, splitChars_append_pieces hb hc, List.map_append, List.map_cons,
    hbefore, List.dropWhile_append, (List.cons.inj hlast).1]

theorem unindented_append_indent (a : List Char) {w : List Char} (hw : ∀ c ∈ w, isIndent c = true) :
    unindented (a ++ ['\n'] ++ w) = unindented (a ++ ['\n']) := by
  have hfeed : splitChars (· == '\n') ['\n'] = [[], []] := by decide
  have hclean : splitChars (· == '\n') w = [w] := splitChars_of_notMem fun hmem => absurd (hw _ hmem) (by decide)
  have hempty : w.dropWhile isIndent = [] := List.dropWhile_eq_nil_iff.2 hw
  obtain ⟨before, last, ha⟩ := exists_splitChars_concat (· == '\n') a
  have hline : splitChars (· == '\n') (a ++ ['\n']) = (before ++ [last ++ []]) ++ [[]] := by
    rw [splitChars_append_pieces ha hfeed, List.append_assoc]
    rfl
  simp only [unindented, splitChars_append_pieces hline hclean, hline]
  simp [hempty]

end Text

/-! ## Pages -/

theorem PageStyle.isIndent_of_mem_indentation (style : PageStyle) (columns : Nat) :
    ∀ c ∈ (style.indentation columns).toList, isIndent c = true := by
  intro c hc
  rcases eq_of_mem_indentation hc with rfl | rfl <;> decide

/-- Two pages end at the same column, and their lines differ in nothing but their indentation. -/
structure Page.InStep (p q : Page) : Prop where
  column : p.column = q.column
  lines : Text.unindented p.out.toList = Text.unindented q.out.toList

namespace Page.InStep

variable {p q : Page}

theorem refl (p : Page) : p.InStep p :=
  ⟨rfl, rfl⟩

theorem write (h : p.InStep q) (s : String) : (p.write s).InStep (q.write s) where
  column := congrArg (· + Text.width s) h.column
  lines := by
    simp only [Page.write, String.toList_append]
    exact Text.unindented_append_congr h.lines _

theorem spaces (h : p.InStep q) (n : Nat) : (p.spaces n).InStep (q.spaces n) where
  column := congrArg (· + n) h.column
  lines := by
    simp only [Page.spaces, String.toList_append]
    exact Text.unindented_append_congr h.lines _

theorem emptyLine (h : p.InStep q) (style : PageStyle) (tabs : Bool) :
    (p.emptyLine style).InStep (q.emptyLine { style with useTabs := tabs }) where
  column := h.column
  lines := by
    simp only [Page.emptyLine, String.toList_append]
    exact Text.unindented_append_congr h.lines _

theorem newLine (h : p.InStep q) (style : PageStyle) (tabs : Bool) (indent : Nat) :
    (p.newLine style indent).InStep (q.newLine { style with useTabs := tabs } indent) where
  column := rfl
  lines := by
    obtain ⟨w, hw⟩ : ∃ w, style.lineBreak.text.toList = w ++ ['\n'] := by
      cases style.lineBreak with
      | lf => exact ⟨[], rfl⟩
      | crlf => exact ⟨['\r'], rfl⟩
    have hnewLine (style' : PageStyle) (hbreak : style'.lineBreak = style.lineBreak) (page : Page) :
        Text.unindented (page.newLine style' indent).out.toList = Text.unindented (page.out.toList ++ w ++ ['\n']) := by
      rw [Page.newLine, String.toList_append, String.toList_append, hbreak, hw, ← List.append_assoc]
      exact Text.unindented_append_indent _ (style'.isIndent_of_mem_indentation indent)
    rw [hnewLine style rfl, hnewLine { style with useTabs := tabs } rfl, List.append_assoc, List.append_assoc]
    exact Text.unindented_append_congr h.lines _

end Page.InStep

/-- **Two pages that differ in the kind of indentation are written in step.** -/
theorem Doc.renderOn_useTabs (d : Doc) (style : PageStyle) (tabs : Bool) (indent : Nat) (flat : Bool)
    (rest : Nat → Bool) {p q : Page} (h : p.InStep q) :
    (d.renderOn style indent flat rest p).InStep (d.renderOn { style with useTabs := tabs } indent flat rest q) := by
  induction d generalizing indent flat rest p q with
  | nil => exact h
  | text s => exact h.write s
  | hardLine => exact h.newLine style tabs indent
  | emptyLine => exact h.emptyLine style tabs
  | line n =>
    cases flat with
    | true => exact h.spaces n
    | false => exact h.newLine style tabs indent
  | append a b iha ihb => exact ihb indent flat rest (iha indent flat _ h)
  | group d ih =>
    simp only [renderOn, h.column]
    split
    · exact ih indent true rest h
    · exact ih indent _ rest h
  | nest columns d ih => exact ih (indent + columns) flat rest h
  | choice a b iha ihb =>
    cases flat with
    | true => exact iha indent true rest h
    | false => exact ihb indent false rest h

theorem Doc.unindented_render (d : Doc) (style : PageStyle) (tabs : Bool) :
    Text.unindented (d.render style).toList = Text.unindented (d.render { style with useTabs := tabs }).toList :=
  (d.renderOn_useTabs style tabs 0 false (fun _ => true) (.refl _)).lines

end LiquidTemplate
