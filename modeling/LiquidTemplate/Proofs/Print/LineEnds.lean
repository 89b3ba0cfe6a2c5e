import LiquidTemplate.Proofs.Layout.LineEnds
import LiquidTemplate.Proofs.Print.Broken

/-!
# How the lines of printed nodes end

Printing takes texts from a template in two ways: it writes them as a whole, or it cuts them into lines and writes these
(`Copied`). A text that is cut ends its lines as asked, except that two carriage returns at the end of a line leave one;
a text that is written as a whole keeps the line ends that it has. What is printed around these texts always has the
line ends that the page asks for, so the lines of a printed part end as asked exactly if those of the texts in it do.
-/

namespace LiquidTemplate

/-! ## Copied texts -/

/-- A text of a template as printing takes it over. -/
inductive Copied where
  /-- As a whole. -/
  | whole (text : String)
  /-- Line by line. -/
  | cut (text : String)
deriving DecidableEq, Repr, Inhabited

namespace Copied

def text : Copied → String
  | whole text | cut text => text

def doc : Copied → Doc
  | whole text => .text text
  | cut text => verbatim text

/-- The lines of the text end as asked once it is printed. -/
def BreaksAs (b : LineBreak) : Copied → Prop
  | whole text => Text.BreaksAs b text.toList
  | cut text => b = .lf → ¬ ['\r', '\r', '\n'] <:+: text.toList

def AllBreakAs (b : LineBreak) (cs : List Copied) : Prop :=
  ∀ c ∈ cs, c.BreaksAs b

/-- No text of a list ends with a carriage return. -/
def AllEndClean (cs : List Copied) : Prop :=
  ∀ c ∈ cs, Text.EndsClean c.text.toList

@[simp] theorem allBreakAs_nil (b : LineBreak) : AllBreakAs b [] ↔ True := by
  simp [AllBreakAs]

@[simp] theorem allBreakAs_cons (b : LineBreak) (c : Copied) (cs : List Copied) :
    AllBreakAs b (c :: cs) ↔ c.BreaksAs b ∧ AllBreakAs b cs := by
  simp [AllBreakAs]

@[simp] theorem allBreakAs_append (b : LineBreak) (cs ds : List Copied) :
    AllBreakAs b (cs ++ ds) ↔ AllBreakAs b cs ∧ AllBreakAs b ds :=
  List.forall_mem_append

end Copied

section

variable {style : PageStyle} {ctx : PrintContext} {C D : Prop}

theorem breaksIf_verbatim (style : PageStyle) (s : String) :
    (verbatim s).BreaksIf style ((Copied.cut s).BreaksAs style.lineBreak) := by
  intro indent flat t ht
  rw [layout_lines ht]
  exact breaksAs_joinLines style.lineBreak s

theorem breaks_verbatim (style : PageStyle) {s : String} (h : Text.EndsClean s.toList) :
    (verbatim s).Breaks style ((Copied.cut s).BreaksAs style.lineBreak) := by
  refine ⟨breaksIf_verbatim style s, fun indent flat t ht => ?_⟩
  rw [layout_lines ht]
  exact endsClean_joinLines style.lineBreak h

theorem Copied.breaks (style : PageStyle) {c : Copied} (h : Text.EndsClean c.text.toList) :
    c.doc.Breaks style (c.BreaksAs style.lineBreak) := by
  cases c with
  | whole text => exact Doc.breaks_text style h
  | cut text => exact breaks_verbatim style h

/-- A text without line feeds and carriage returns. -/
def Text.isInLine (s : String) : Bool :=
  s.toList.all fun c => c != '\n' && c != '\r'

theorem Text.notMem_of_isInLine {s : String} (h : isInLine s = true) : '\n' ∉ s.toList ∧ '\r' ∉ s.toList := by
  rw [isInLine, List.all_eq_true] at h
  exact ⟨fun hmem => by simpa using h _ hmem, fun hmem => by simpa using h _ hmem⟩

theorem breaks_inLine (style : PageStyle) {s : String} (h : Text.isInLine s = true) : (Doc.text s).Breaks style True :=
  have hclean := Text.notMem_of_isInLine h
  Doc.breaks_line_text style hclean.1 (Text.endsClean_of_notMem hclean.2)

theorem breaks_between (style : PageStyle) (before text after : String)
    (hbefore : Text.isInLine before = true) (hafter : Text.isInLine after = true) (hne : after.toList ≠ []) :
    (Doc.text (before ++ text ++ after)).Breaks style (Text.BreaksAs style.lineBreak text.toList) := by
  obtain ⟨hfeed, hreturn⟩ := Text.notMem_of_isInLine hbefore
  obtain ⟨hfeed', hreturn'⟩ := Text.notMem_of_isInLine hafter
  have hstart : after.toList.head? ≠ some '\n' := fun hhead => hfeed' (List.mem_of_mem_head? hhead)
  refine (Doc.breaks_text style ?_).congr ?_
  · rw [String.toList_append]
    exact (Text.endsClean_of_notMem hreturn').of_ne_nil hne _
  · rw [String.toList_append, Text.breaksAs_append_iff (.inr hstart), String.toList_append,
      Text.breaksAs_append_iff (.inl (Text.endsClean_of_notMem hreturn))]
    simp [Text.breaksAs_of_notMem hfeed, Text.breaksAs_of_notMem hfeed']

theorem startsInLine_word {s : String} (h : s.toList.head?.any (· != '\n') = true) : (Doc.text s).StartsInLine := by
  cases hs : s.toList with
  | nil => simp [hs] at h
  | cons x w => exact ⟨s, .refl, x, w, hs, by simpa [hs] using h⟩

theorem Doc.StartsInLine.left {a : Doc} (h : a.StartsInLine) (b : Doc) : (a ++ b).StartsInLine := by
  obtain ⟨t, ht, hfirst⟩ := h
  exact ⟨t, .left ht, hfirst⟩

/-! ## Texts and Liquid -/

/-- Blanks and words do not mix in a run. -/
theorem Text.notMem_of_mem_runs {cs run : List Char} (h : run ∈ runs cs) (hword : run.all isBlank = false) {x : Char}
    (hx : isBlank x = true) : x ∉ run := by
  have hclass : ∀ run ∈ runs cs, ∃ blank, ∀ c ∈ run, isBlank c = blank := by
    clear h hword
    induction cs with
    | nil => simp [runs]
    | cons c cs ih =>
      rw [runs]
      split
      next d ds rest hr =>
        rw [hr] at ih
        obtain ⟨⟨blank, hfirst⟩, hrest⟩ := List.forall_mem_cons.1 ih
        split
        next hsame =>
          refine List.forall_mem_cons.2 ⟨⟨blank, List.forall_mem_cons.2 ⟨?_, hfirst⟩⟩, hrest⟩
          rw [beq_iff_eq.1 hsame]
          exact hfirst d List.mem_cons_self
        · exact List.forall_mem_cons.2 ⟨⟨isBlank c, by simp⟩, ih⟩
      next => exact List.forall_mem_cons.2 ⟨⟨isBlank c, by simp⟩, by simp⟩
  obtain ⟨blank, hclass⟩ := hclass run h
  obtain ⟨y, hy, hyword⟩ := List.all_eq_false.1 hword
  intro hmem
  rw [hclass y hy, ← hclass x hmem] at hyword
  exact hyword hx

theorem breaks_fill (style : PageStyle) {rs : List (List Char)}
    (h : ∀ run ∈ rs, run.all Text.isBlank = false → '\n' ∉ run ∧ '\r' ∉ run) : (fill rs).Breaks style True := by
  have hword {run : List Char} (hrun : '\n' ∉ run ∧ '\r' ∉ run) : (Doc.text (String.ofList run)).Breaks style True :=
    Doc.breaks_line_text style (by simpa using hrun.1) (Text.endsClean_of_notMem (by simpa using hrun.2))
  have hsoft : Doc.softLine.Breaks style True := (Doc.breaks_line style 1).group
  have hblank : Doc.blankLine.Breaks style True := (Doc.breaks_emptyLine style).left (Doc.breaks_hardLine style)
  induction rs with
  | nil => exact Doc.breaks_nil style
  | cons run rs ih =>
    obtain ⟨hrun, hrs⟩ := List.forall_mem_cons.1 h
    cases rs with
    | nil =>
      rw [fill]
      split
      · exact Doc.breaks_nil style
      next hnot => exact hword (hrun (Bool.eq_false_iff.2 hnot))
    | cons next rs =>
      simp only [fill]
      refine (ih hrs).right ?_
      split
      · split
        · exact hblank
        · exact hsoft
      next hnot => exact hword (hrun (Bool.eq_false_iff.2 hnot))

theorem breaks_printText (style : PageStyle) (value : String) : (printText value).Breaks style True :=
  breaks_fill style fun _ hrun hword =>
    ⟨Text.notMem_of_mem_runs hrun hword (by decide), Text.notMem_of_mem_runs hrun hword (by decide)⟩

theorem breaks_printDoctype (style : PageStyle) (legacy : String) :
    (printDoctype legacy).Breaks style (Text.BreaksAs style.lineBreak legacy.toList) := by
  have hdoc := breaks_between style "<!DOCTYPE " (if Text.eqIgnoringCase legacy "html" then "html" else legacy) ">"
    (by decide) (by decide) (by decide)
  refine hdoc.congr ?_
  split
  next hname =>
    -- a name that is spelled in another way has no line feed either
    have hlegacy : '\n' ∉ legacy.toList := by
      intro hmem
      have hlower : '\n' ∈ "html".toList.map Char.toLower := by
        rw [← beq_iff_eq.1 hname]
        exact List.mem_map.2 ⟨'\n', hmem, by decide⟩
      exact absurd hlower (by decide)
    exact iff_of_true (Text.breaksAs_of_notMem (by decide)) (Text.breaksAs_of_notMem hlegacy)
  · rfl

theorem breaks_trimMarker (style : PageStyle) (inSource : Bool) (added : AddedTrim) :
    (trimMarker inSource added).Breaks style True := by
  have hdash : (Doc.text "-").Breaks style True := breaks_inLine style (by decide)
  cases inSource with
  | true => exact hdash
  | false =>
    cases added with
    | never => exact Doc.breaks_nil style
    | onBreak => exact (Doc.breaks_nil style).choice hdash
    | always => exact hdash

theorem breaks_printHead (style : PageStyle) (head : String) :
    (printHead head).Breaks style ((Copied.cut head).BreaksAs style.lineBreak) := by
  have hspace : (Doc.text " ").Breaks style True := breaks_inLine style (by decide)
  exact (hspace.around (breaksIf_verbatim style head) hspace (startsInLine_word (by decide))).congr (by simp)

theorem breaks_tagOpen (style : PageStyle) : (Doc.text tagOpen).Breaks style True :=
  breaks_inLine style (by decide)

theorem breaks_tagClose (style : PageStyle) : (Doc.text tagClose).Breaks style True :=
  breaks_inLine style (by decide)

theorem breaks_opener {head : Doc} (h : head.Breaks style C) (opener : Delimiter) (added : AddedTrim) :
    (.text tagOpen ++ trimMarker opener.trimLeft .never ++ head ++ trimMarker opener.trimRight added ++
      .text tagClose : Doc).Breaks style C :=
  ((h.right ((breaks_tagOpen style).left (breaks_trimMarker style _ _))).left (breaks_trimMarker style _ _)).left
    (breaks_tagClose style)

theorem breaks_endName (style : PageStyle) (name : String) :
    (Doc.text (" end" ++ name ++ " ")).Breaks style (Text.BreaksAs style.lineBreak name.toList) :=
  breaks_between style " end" name " " (by decide) (by decide) (by decide)

theorem breaks_printEnd (style : PageStyle) (name : String) (d : Delimiter) :
    (printEnd name d).Breaks style (Text.BreaksAs style.lineBreak name.toList) :=
  breaks_opener (breaks_endName style name) d .never

theorem startsInLine_printEnd (name : String) (d : Delimiter) : (printEnd name d).StartsInLine :=
  ((((startsInLine_word (by decide)).left _).left _).left _).left _

theorem breaks_concat {α : Type} {f : α → Doc} {P : α → Prop} {xs : List α} (h : ∀ x ∈ xs, (f x).Breaks style (P x)) :
    (Doc.concat (xs.map f)).Breaks style (∀ x ∈ xs, P x) := by
  induction xs with
  | nil => exact (Doc.breaks_nil style).congr (by simp)
  | cons x xs ih =>
    obtain ⟨hx, hxs⟩ := List.forall_mem_cons.1 h
    exact (hx.append (ih hxs)).congr List.forall_mem_cons.symm

def DropMarkup.copied (q : Quote) : DropMarkup → List Copied
  | .plain text => [.cut text]
  | .value v => .whole (v.subject.render q) :: v.filters.map fun f => .whole (f.render q)

theorem breaks_printDrop {markup : DropMarkup} (d : Delimiter)
    (h : ∀ v, markup = .value v → Copied.AllEndClean (markup.copied (ctx.stringQuote none))) :
    (printDrop ctx markup d).Breaks style
      (Copied.AllBreakAs style.lineBreak (markup.copied (ctx.stringQuote none))) := by
  have hstart : (Doc.text d.dropStart).Breaks style True := by
    unfold Delimiter.dropStart
    split <;> exact breaks_inLine style (by decide)
  have hstop : (Doc.text d.dropStop).Breaks style True := by
    unfold Delimiter.dropStop
    split <;> exact breaks_inLine style (by decide)
  unfold printDrop
  refine Doc.Breaks.left (Doc.Breaks.right ?_ hstart) hstop
  cases markup with
  | plain text =>
    have hspace : (Doc.text " ").Breaks style True := breaks_inLine style (by decide)
    dsimp only
    split
    next hempty =>
      refine hspace.congr (iff_of_true trivial ?_)
      simp [DropMarkup.copied, Copied.BreaksAs, String.isEmpty_iff.1 hempty]
    next =>
      refine (hspace.around (breaksIf_verbatim style text) hspace (startsInLine_word (by decide))).congr ?_
      simp [DropMarkup.copied]
  | value v =>
    obtain ⟨hsubject, hfilters⟩ := List.forall_mem_cons.1 (h v rfl)
    have hline := Doc.breaks_line style 1
    have hfirst := (Doc.breaks_text style hsubject).right hline
    have hrest : ∀ f ∈ v.filters, (Doc.line 1 ++ .text (f.render (ctx.stringQuote none))).Breaks style
        (Text.BreaksAs style.lineBreak (f.render (ctx.stringQuote none)).toList) := by
      intro f hf
      have hclean : Text.EndsClean (f.render (ctx.stringQuote none)).toList := hfilters _ (List.mem_map.2 ⟨f, hf, rfl⟩)
      exact (Doc.breaks_text style hclean).right hline
    refine (((hfirst.append (breaks_concat hrest)).nest ctx.options.indentWidth).left hline).group.congr ?_
    simp [DropMarkup.copied, Copied.AllBreakAs, Copied.BreaksAs, Copied.text]

theorem IsStatement.endsClean {line : String} (h : IsStatement line) : Text.EndsClean line.toList := by
  intro hlast
  have hwhite := h.last
  rw [hlast] at hwhite
  exact absurd hwhite (by decide)

theorem breaks_printStatements (style : PageStyle) (indentWidth depth : Nat) {lines : List String}
    (h : ∀ line ∈ lines, IsStatement line) : (printStatements indentWidth depth lines).Breaks style True := by
  induction lines generalizing depth with
  | nil => exact Doc.breaks_nil style
  | cons line lines ih =>
    obtain ⟨hline, hlines⟩ := List.forall_mem_cons.1 h
    have hfirst : (Doc.text line).Breaks style True := Doc.breaks_line_text style hline.oneLine hline.endsClean
    exact (ih _ hlines).right ((hfirst.right (Doc.breaks_hardLine style)).nest _)

/-! ## Gaps and bodies -/

theorem breaks_gap (style : PageStyle) (g : Gap) : g.doc.Breaks style True := by
  cases g with
  | glue => exact Doc.breaks_nil style
  | nil => exact Doc.breaks_line style 0
  | space => exact (Doc.breaks_line style 1).group
  | hard => exact Doc.breaks_hardLine style
  | blank => exact (Doc.breaks_emptyLine style).left (Doc.breaks_hardLine style)

theorem breaks_boundary (style : PageStyle) (matters hasBlank forced : Bool) :
    (boundary matters hasBlank forced).1.Breaks style True := by
  cases matters <;> cases hasBlank <;> cases forced <;>
    first | exact Doc.breaks_hardLine style | exact Doc.breaks_line style _

theorem breaks_printDangling (style : PageStyle) (facts : Facts) : (printDangling facts).Breaks style True := by
  unfold printDangling
  split
  · exact Doc.breaks_line style 1
  · exact Doc.breaks_nil style

theorem breaks_printBracketLine (style : PageStyle) (forced : Bool) : (printBracketLine forced).Breaks style True := by
  cases forced
  · exact Doc.breaks_line style 0
  · exact Doc.breaks_hardLine style

/-- The two parts of a body: its children, and what comes after them. -/
structure Body.Breaks (style : PageStyle) (C : Prop) (b : Body) : Prop where
  doc : b.doc.Breaks style C
  after : b.after.Breaks style True

theorem breaks_bodyOf (ctx : PrintContext) {inner : Doc} (forced : Bool) (container : Facts)
    {children : List (Node Facts)}
    (h : inner.Breaks style C) (hempty : children = [] → C) :
    (bodyOf ctx forced container children inner).Breaks style C := by
  cases children with
  | nil => exact ⟨(breaks_printDangling style container).congr (iff_of_true trivial (hempty rfl)), Doc.breaks_nil style⟩
  | cons first rest =>
    rw [bodyOf, List.head?_cons, List.getLast?_cons]
    exact ⟨(h.right (breaks_boundary style _ _ _)).nest _, breaks_boundary style _ _ _⟩

theorem breaks_branchBody (ctx : PrintContext) {inner : Doc} (forced skipped : Bool) {b : Node Facts}
    (h : inner.Breaks style C)
    (hempty : b.children = [] → C) : (branchBody ctx forced skipped b inner).Breaks style C := by
  unfold branchBody
  split
  next hskipped =>
    have hnil := List.isEmpty_iff.1 (Bool.and_eq_true_iff.1 hskipped).2
    exact ⟨(Doc.breaks_nil style).congr (iff_of_true trivial (hempty hnil)), Doc.breaks_hardLine style⟩
  · exact breaks_bodyOf ctx forced b.info h hempty

def Part.copied (p : Part) : List Copied :=
  (p.delimiter.map fun d => .cut d.1).toList

theorem breaks_printParts_cons {part : Part} {parts : List Part} (close : AddedTrim) (hbody : part.body.Breaks style C)
    (hparts : (printParts part.body.closeTrim parts).1.Breaks style D) :
    (printParts close (part :: parts)).1.Breaks style
      (Copied.AllBreakAs style.lineBreak part.copied ∧ C ∧ D) := by
  obtain ⟨delimiter, body⟩ := part
  cases delimiter with
  | none =>
    refine (((hbody.doc.right (Doc.breaks_nil style)).left hbody.after).append hparts).congr ?_
    simp [Part.copied]
  | some d =>
    have hhead := ((((breaks_printHead style d.1).right ((breaks_tagOpen style).left
      (breaks_trimMarker style d.2.trimLeft close))).left (breaks_trimMarker style d.2.trimRight body.openTrim)).left
      (breaks_tagClose style))
    refine (((hhead.append hbody.doc).left hbody.after).append hparts).congr ?_
    simp [Part.copied, and_assoc]

theorem breaks_printParts_single {body : Body} (close : AddedTrim) (hbody : body.Breaks style C) :
    (printParts close [⟨none, body⟩]).1.Breaks style C :=
  (@breaks_printParts_cons style C True ⟨none, body⟩ [] close hbody (Doc.breaks_nil style)).congr
    (by simp [Part.copied])

theorem breaks_printBlock {name head : String} (opener : Delimiter) (closer : Option Delimiter) {parts : List Part}
    (hname : '\n' ∉ name.toList) (h : (printParts .never parts).1.Breaks style C) :
    (printBlock name head opener closer parts).Breaks style ((Copied.cut head).BreaksAs style.lineBreak ∧ C) := by
  have hstart := (breaks_tagOpen style).left (breaks_trimMarker style opener.trimLeft .never)
  have hinside := ((((breaks_printHead style head).left (breaks_trimMarker style opener.trimRight
    ((parts.head?.map (·.body.openTrim)).getD .never))).left (breaks_tagClose style)).append h)
  have hend := (breaks_endName style name).congr (iff_true_intro (Text.breaksAs_of_notMem hname))
  cases closer with
  | some d =>
    exact (((((hinside.left (breaks_tagOpen style)).left (breaks_trimMarker style d.trimLeft _)).left hend).group.right
      hstart).left (breaks_trimMarker style d.trimRight .never)).left (breaks_tagClose style)
  | none => exact hinside.group.right hstart

/-! ## Elements -/

/-- An item of an attribute list as printing takes it over, after another one. -/
def Node.copiedItem (ctx : PrintContext) (prev : Option (Node Facts)) (n : Node Facts) : Copied :=
  if n.isAttribute then .cut (if isIgnored ctx prev then Text.slice ctx.source n.span else n.inline ctx none)
  else .whole (n.inline ctx none)

def copiedItems (ctx : PrintContext) : Option (Node Facts) → List (Node Facts) → List Copied
  | _, [] => []
  | prev, n :: ns => n.copiedItem ctx prev :: copiedItems ctx (some n) ns

theorem breaks_separator (style : PageStyle) (layout : AttributeLayout) : layout.separator.Breaks style True := by
  cases layout with
  | fill => exact Doc.breaks_line style 1
  | onePerLine => exact Doc.breaks_hardLine style
  | singleLine => exact breaks_inLine style (by decide)

theorem breaks_beforeClose (style : PageStyle) (slash : Bool) (layout : AttributeLayout) :
    (layout.beforeClose slash).Breaks style True := by
  cases layout with
  | fill => exact Doc.breaks_line style _
  | onePerLine => exact Doc.breaks_hardLine style
  | singleLine =>
    cases slash
    · exact Doc.breaks_nil style
    · exact breaks_inLine style (by decide)

theorem breaks_printAttributeItems (layout : AttributeLayout) {prev : Option (Node Facts)} {ns : List (Node Facts)}
    (h : Copied.AllEndClean (copiedItems ctx prev ns)) : (printAttributeItems ctx layout prev ns).Breaks style
      (Copied.AllBreakAs style.lineBreak (copiedItems ctx prev ns)) := by
  induction ns generalizing prev with
  | nil => exact (Doc.breaks_nil style).congr (by simp [copiedItems])
  | cons n ns ih =>
    obtain ⟨hn, hns⟩ := List.forall_mem_cons.1 h
    have hitem := Copied.breaks style hn
    have hdoc : (n.copiedItem ctx prev).doc = (if n.isAttribute then
        verbatim (if isIgnored ctx prev then Text.slice ctx.source n.span else n.inline ctx none)
      else .text (n.inline ctx none)) := by
      unfold Node.copiedItem
      split <;> rfl
    rw [hdoc] at hitem
    exact ((hitem.right (breaks_separator style layout)).append (ih hns)).congr (by simp [copiedItems])

/-- The texts of an opening tag: its name and the items of its attribute list. -/
def copiedTag (ctx : PrintContext) (name : String) (attributes : List (Node Facts)) : List Copied :=
  .whole name :: copiedItems ctx none attributes

theorem breaks_printOpening (style : PageStyle) {name : String} {attributes : List (Node Facts)}
    (h : Copied.AllEndClean (copiedTag ctx name attributes)) : (printOpening ctx name attributes).1.Breaks style
      (Copied.AllBreakAs style.lineBreak (copiedTag ctx name attributes)) := by
  obtain ⟨hname, hitems⟩ := List.forall_mem_cons.1 h
  have hname : Text.EndsClean name.toList := hname
  have hstart := (Doc.breaks_text style hname).right (breaks_inLine style (s := "<") (by decide))
  refine (hstart.append ((breaks_printAttributeItems _ hitems).nest ctx.options.indentWidth)).congr ?_
  simp [copiedTag, Copied.BreaksAs]

section

variable {opening : Doc × AttributeLayout} {name : String}

theorem breaks_closeName (style : PageStyle) (hname : Text.EndsClean name.toList) :
    (Doc.text ("</" ++ name)).Breaks style (Text.BreaksAs style.lineBreak name.toList) := by
  have hmark : Text.EndsClean "</".toList := Text.endsClean_of_notMem (by decide)
  refine (Doc.breaks_text style ?_).congr ?_
  · rw [String.toList_append]
    exact hmark.append hname
  · rw [String.toList_append, Text.breaksAs_append_iff (.inl hmark)]
    exact and_iff_right (Text.breaksAs_of_notMem (by decide))

theorem breaks_opened (hopening : opening.1.Breaks style C) :
    (opening.1 ++ opening.2.beforeClose false ++ .text ">" : Doc).Breaks style C :=
  (hopening.left (breaks_beforeClose style _ _)).left (breaks_inLine style (by decide))

theorem breaks_printChildless (hopening : opening.1.Breaks style C) (slash : Bool) :
    (printChildless opening slash).Breaks style C := by
  have hend : (Doc.text (if slash then "/>" else ">")).Breaks style True := by
    cases slash <;> exact breaks_inLine style (by decide)
  exact ((hopening.left (breaks_beforeClose style _ _)).left hend).group

theorem breaks_printKept (hopening : opening.1.Breaks style C) (hname : Text.EndsClean name.toList)
    (himp : C → Text.BreaksAs style.lineBreak name.toList) (body : String) :
    (printKept opening name body).Breaks style (C ∧ (Copied.cut body).BreaksAs style.lineBreak) := by
  have hclose := breaks_closeName style hname
  have hstart : (Doc.text ("</" ++ name)).StartsInLine :=
    ⟨_, .refl, '<', '/' :: name.toList, by simp, by decide⟩
  refine (((breaks_opened hopening).group.around (breaksIf_verbatim style body) hclose hstart).left
    (breaks_inLine style (s := ">") (by decide))).congr ?_
  exact ⟨fun h => ⟨h.1, h.2.1⟩, fun h => ⟨h.1, h.2, himp h.1⟩⟩

theorem breaks_printElement (ctx : PrintContext) {inner : Doc} (hopening : opening.1.Breaks style C)
    (hname : Text.EndsClean name.toList)
    (himp : C → Text.BreaksAs style.lineBreak name.toList) (forced : Bool) (container : Facts)
    {children : List (Node Facts)} (hinner : inner.Breaks style D) (hempty : children = [] → D) :
    (printElement ctx opening name forced container children inner).Breaks style (C ∧ D) := by
  have hopened := breaks_opened hopening
  have hclose := breaks_closeName style hname
  have hend : (Doc.text ">").Breaks style True := breaks_inLine style (by decide)
  cases children with
  | nil =>
    refine (((hopened.group.left (breaks_printDangling style container)).append hclose).left hend).group.congr ?_
    exact ⟨fun h => ⟨h.1, hempty rfl⟩, fun h => ⟨h.1, himp h.1⟩⟩
  | cons first rest =>
    rw [printElement, List.head?_cons, List.getLast?_cons]
    dsimp only
    generalize (first.info.leadingMatters && !first.info.hasLeading) = sticksOpen
    generalize rest.getLast?.getD first = last
    have hbracket := (breaks_printBracketLine style forced).left hend
    have hstart : (if sticksOpen then opening.1 else opening.1 ++ opening.2.beforeClose false ++ .text ">").Breaks style
        C := by
      split
      · exact hopening
      · exact hopened
    have hbefore (matters hasBlank : Bool) : (if sticksOpen then printBracketLine forced ++ .text ">"
        else (boundary matters hasBlank forced).1).Breaks style True := by
      split
      · exact hbracket
      · exact breaks_boundary style _ _ _
    have hiff : C ∧ D ∧ Text.BreaksAs style.lineBreak name.toList ↔ C ∧ D :=
      ⟨fun h => ⟨h.1, h.2.1⟩, fun h => ⟨h.1, h.2, himp h.1⟩⟩
    -- the name of the closing tag stands before the last line break or after it
    cases (last.info.trailingMatters && !last.info.hasTrailing) with
    | true =>
      have hbody := (hinner.right (hbefore first.info.leadingMatters first.info.hasLeading)).append hclose
      exact ((hstart.group.append (hbody.nest ctx.options.indentWidth)).left hbracket).group.congr hiff
    | false =>
      have hbody := (hinner.right (hbefore first.info.leadingMatters first.info.hasLeading)).left (Doc.breaks_nil style)
      have hboundary := breaks_boundary style last.info.trailingMatters last.info.hasTrailing forced
      have hafter := (hclose.right hboundary).left hend
      exact ((hstart.group.append (hbody.nest ctx.options.indentWidth)).append hafter).group.congr
        (and_assoc.trans hiff)

end

/-! ## Code -/

theorem mem_of_mem_trimLines {lines : List (List Char)} {line : List Char} (h : line ∈ trimLines lines) :
    line ∈ lines := by
  have hmem := (List.dropWhile_sublist _).subset (List.mem_reverse.1 h)
  exact (List.dropWhile_sublist _).subset (List.mem_reverse.1 hmem)

theorem endsClean_of_mem_dedent {code line : String} (h : line ∈ dedent code) :
    '\n' ∉ line.toList ∧ Text.EndsClean line.toList := by
  obtain ⟨trimmed, hmem, rfl⟩ := List.mem_map.1 h
  obtain ⟨full, hfull, rfl⟩ := List.mem_map.1 (mem_of_mem_trimLines hmem)
  rw [String.toList_ofList]
  constructor
  · intro hfeed
    exact (mem_lines hfull).2 ((Text.trimEndChars_prefix _).subset (List.mem_of_mem_drop hfeed))
  · have hclean : Text.EndsClean (Text.trimEndChars full.toList) := by
      intro hlast
      have hwhite := Text.getLast?_trimEndChars full.toList
      rw [hlast] at hwhite
      exact absurd hwhite (by decide)
    rw [← List.take_append_drop (commonIndent _) (Text.trimEndChars full.toList)] at hclean
    exact hclean.of_append

theorem breaks_printCodeLines (style : PageStyle) (code : String) :
    (printCodeLines (dedent code)).Breaks style True := by
  have hline : ∀ line ∈ dedent code,
      (if line.isEmpty then Doc.emptyLine else Doc.hardLine ++ .text line).Breaks style True := by
    intro line hmem
    split
    · exact Doc.breaks_emptyLine style
    · obtain ⟨hfeed, hclean⟩ := endsClean_of_mem_dedent hmem
      exact (Doc.breaks_line_text style hfeed hclean).right (Doc.breaks_hardLine style)
  exact (breaks_concat hline).congr (by simp)

/-- Code that is copied keeps its line ends, and code that was formatted has those that are asked for. -/
theorem breaksIf_printCode {formatter : CodeFormatter} (body : RawBody) (level : Nat) (indents : Bool)
    (session : Session) : ((printCode ctx formatter level indents body).run session).1.BreaksIf style
      ((!Text.isAllWhiteSpace body.slice.text && body.isVerbatim) = true →
        (Copied.cut body.slice.text).BreaksAs style.lineBreak) := by
  unfold printCode
  by_cases hblank : Text.isAllWhiteSpace body.slice.text = true
  · rw [if_pos hblank]
    exact ((Doc.breaks_nil style).congr (by simp [hblank])).breaks
  by_cases hverbatim : body.isVerbatim = true
  · rw [if_neg hblank, if_pos hverbatim]
    exact fun indent flat s hs => (breaksIf_verbatim style _ indent flat s hs).trans (by simp [hblank, hverbatim])
  · rw [if_neg hblank, if_neg hverbatim]
    have hiff : True ↔ ((!Text.isAllWhiteSpace body.slice.text && body.isVerbatim) = true →
        (Copied.cut body.slice.text).BreaksAs style.lineBreak) := by simp [hverbatim]
    cases indents with
    | true => exact ((((breaks_printCodeLines style _).nest _).left (Doc.breaks_hardLine style)).congr hiff).breaks
    | false => exact (((breaks_printCodeLines style _).left (Doc.breaks_hardLine style)).congr hiff).breaks

end

end LiquidTemplate
