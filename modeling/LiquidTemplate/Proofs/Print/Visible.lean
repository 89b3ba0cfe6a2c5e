import LiquidTemplate.Format
import LiquidTemplate.Proofs.Nesting.Pieces
import LiquidTemplate.Proofs.Print.Placed
import LiquidTemplate.Proofs.Print.TrimMarkers

/-!
# White space that is seen

Templates made of texts, drops and assignments. An assignment shows nothing, so what is seen around it are its
neighbours and the white space between them (`Node.shown`). Formatting writes the nodes one after the other with
blanks between them (`Written`). White space stays white space. Where there was none, two nodes that are seen and
touch each other still touch, but when the nodes do not fit on one line, white space comes in next to assignments.
So what is seen stays the same wherever it does not depend on white space next to assignments. The main statement
is `format_shown`.
-/

namespace LiquidTemplate

/-! ## What is seen -/

/-- Something that is seen on the page. -/
inductive Sight where
  | word (chars : List Char)
  /-- A drop, by what is written in it. -/
  | drop (written : String)
deriving DecidableEq

/-- The sights with whether a space stands before each. Several spaces are one. -/
def spaced : (space : Bool) → List (Option Sight) → List (Bool × Sight)
  | _, [] => []
  | _, none :: rest => spaced true rest
  | space, some s :: rest => (space, s) :: spaced false rest

namespace Node

variable {α : Type}

def isPlain (n : Node α) : Bool :=
  match n.kind with
  | .text _ | .drop _ _ _ => true
  | .tag name _ _ => name == "assign"
  | _ => false

def isUnseen (n : Node α) : Bool :=
  match n.kind with
  | .tag _ _ _ => true
  | _ => false

/-- The sights of a node and the spaces between them. -/
def sights (n : Node α) : List (Option Sight) :=
  match n.kind with
  | .text value => (Text.runs value.toList).map fun run => if run.all Text.isBlank then none else some (.word run)
  | .drop written _ _ => [some (.drop written)]
  | _ => []

/-- The sights of nodes, where `gaps` tells between which of them white space stands. A trim marker removes it. -/
def sightsOf : List (Node α) → (gaps : List Bool) → List (Option Sight)
  | [], _ => []
  | n :: ns, gaps =>
    n.sights ++ (if gaps.headD false && !(n.trimsAfter || ns.head?.any trimsBefore) then [none] else []) ++
      sightsOf ns gaps.tail

/-- What is seen of nodes. White space before the first sight and after the last one is not. -/
def shown (ns : List (Node α)) (gaps : List Bool) : List (Bool × Sight) :=
  match spaced false (sightsOf ns gaps) with
  | [] => []
  | (_, s) :: rest => (false, s) :: rest

/-- White space between two neighbours matters: both are seen, and no trim marker stands between them. -/
def sticks (n m : Node α) : Bool :=
  !(n.trimsAfter || m.trimsBefore) && !n.isUnseen && !m.isUnseen

/-- Where white space stands between nodes: where the template has some, and if the nodes are `broken` over lines,
then also wherever it does not matter between the two neighbours. -/
def gapsBetween (broken : Bool) : List (Node α) → List Bool
  | n :: m :: ns => (decide (n.span.stop < m.span.start) || broken && !n.sticks m) :: gapsBetween broken (m :: ns)
  | _ => []

end Node

def Document.shown {α : Type} (d : Document α) : List (Bool × Sight) :=
  Node.shown d.root.children (Node.gapsBetween false d.root.children)

/-! ## Blanks on the page -/

def IsBlankText (s : String) : Prop :=
  s.toList.all Text.isBlank = true

section

variable {style : PageStyle} {indent : Nat} {flat : Bool} {s : String}

theorem isBlankText_append {s t : String} : IsBlankText (s ++ t) ↔ IsBlankText s ∧ IsBlankText t := by
  simp [IsBlankText]

theorem isBlankText_lineBreak (style : PageStyle) : IsBlankText style.lineBreak.text := by
  unfold IsBlankText
  cases style.lineBreak <;> decide

theorem isBlankText_newLine (style : PageStyle) (columns : Nat) : IsBlankText (style.newLine columns) := by
  refine isBlankText_append.2 ⟨isBlankText_lineBreak style, ?_⟩
  unfold PageStyle.indentation
  split <;> simp [IsBlankText, Text.isBlank]

theorem newLine_ne_empty (style : PageStyle) (columns : Nat) : style.newLine columns ≠ "" :=
  fun h => not_isNewLine_empty (h ▸ isNewLine_newLine columns)

theorem lineBreak_ne_empty (style : PageStyle) : style.lineBreak.text ≠ "" := by
  cases style.lineBreak <;> decide

theorem layout_softLine (h : Doc.Layout style indent flat .softLine s) : IsBlankText s ∧ s ≠ "" := by
  obtain ⟨inner, -, h⟩ := Doc.layout_group.1 h
  rw [Doc.layout_line] at h
  subst h
  cases inner with
  | false => exact ⟨isBlankText_newLine style indent, newLine_ne_empty style indent⟩
  | true =>
    rw [if_pos rfl]
    exact ⟨by simp [IsBlankText, Text.isBlank], by decide⟩

theorem layout_blankLine (h : Doc.Layout style indent flat .blankLine s) : IsBlankText s ∧ s ≠ "" := by
  obtain ⟨t, u, rfl, ht, hu⟩ := Doc.layout_append.1 h
  rw [Doc.layout_emptyLine.1 ht, Doc.layout_hardLine.1 hu]
  refine ⟨isBlankText_append.2 ⟨isBlankText_lineBreak style, isBlankText_newLine style indent⟩, fun hempty => ?_⟩
  exact lineBreak_ne_empty style (String.append_eq_empty_iff.1 hempty).1

/-- A gap is blank. Glue is empty, and so is on one line what may become nothing. -/
theorem layout_gap {gap : Gap} (h : Doc.Layout style indent flat gap.doc s) :
    IsBlankText s ∧ (s ≠ "" ↔ gap ≠ .glue ∧ (gap = .nil → flat = false)) := by
  cases gap with
  | glue =>
    rw [Doc.layout_nil.1 h]
    exact ⟨rfl, by simp⟩
  | nil =>
    rw [Doc.layout_line.1 h]
    cases flat with
    | false => exact ⟨isBlankText_newLine style indent, by simp [newLine_ne_empty]⟩
    | true => exact ⟨rfl, by simp⟩
  | space =>
    obtain ⟨hblank, hne⟩ := layout_softLine h
    exact ⟨hblank, by simp [hne]⟩
  | hard =>
    rw [Doc.layout_hardLine.1 h]
    exact ⟨isBlankText_newLine style indent, by simp [newLine_ne_empty]⟩
  | blank =>
    obtain ⟨hblank, hne⟩ := layout_blankLine h
    exact ⟨hblank, by simp [hne]⟩

/-! ## Texts -/

/-- A run of characters as printed: words stay, and blanks become other blanks. -/
def RunWritten (run chars : List Char) : Prop :=
  if run.all Text.isBlank then chars ≠ [] ∧ chars.all Text.isBlank = true else chars = run

theorem layout_fill {rs : List (List Char)} (hlast : ∀ r, rs.getLast? = some r → r.all Text.isBlank = false)
    (h : Doc.Layout style indent flat (fill rs) s) : ∃ ss, s.toList = ss.flatten ∧ List.Forall₂ RunWritten rs ss := by
  induction rs generalizing s with
  | nil =>
    rw [Doc.layout_nil.1 h]
    exact ⟨[], rfl, .nil⟩
  | cons r rs ih =>
    cases rs with
    | nil =>
      have hr := hlast r rfl
      rw [fill, hr, if_neg (by simp), Doc.layout_text] at h
      subst h
      exact ⟨[r], by simp, .cons (by simp [RunWritten, hr]) .nil⟩
    | cons r' rs =>
      obtain ⟨t, u, rfl, ht, hu⟩ := Doc.layout_append.1 h
      obtain ⟨us, hus, hruns⟩ := ih (fun q hq => hlast q (by rwa [List.getLast?_cons_cons])) hu
      refine ⟨t.toList :: us, by rw [String.toList_append, hus, List.flatten_cons], .cons ?_ hruns⟩
      unfold RunWritten
      split at ht
      next hblank =>
        rw [if_pos hblank]
        have hgap : IsBlankText t ∧ t ≠ "" := by
          split at ht
          · exact layout_blankLine ht
          · exact layout_softLine ht
        exact ⟨by simpa using hgap.2, hgap.1⟩
      next hblank =>
        rw [if_neg hblank, Doc.layout_text.1 ht]
        simp

theorem getLast?_runs {cs v : List Char} {x : Char} (hcs : cs = v ++ [x]) (hx : Text.isBlank x = false) :
    ∀ r, (Text.runs cs).getLast? = some r → r.all Text.isBlank = false := by
  intro r hr
  obtain ⟨init, hinit⟩ := List.getLast?_eq_some_iff.1 hr
  have hflat : init.flatten ++ r = v ++ [x] := by
    rw [← hcs, ← Text.flatten_runs cs, hinit]
    simp
  have hne : r ≠ [] := Text.ne_nil_of_mem_runs (List.mem_of_getLast? hr)
  have hlast : r.getLast? = some x := by
    rw [← List.getLast?_append_of_ne_nil _ hne, hflat, List.getLast?_concat]
  rw [List.all_eq_false]
  exact ⟨x, List.mem_of_getLast? hlast, by simp [hx]⟩

end

/-! ## Nodes one after the other -/

def tagInside (ctx : PrintContext) (name : String) : Markup → Doc
  | .statements lines => .text " liquid" ++ printStatements ctx.options.indentWidth 0 lines ++ .hardLine
  | markup => printHead (tagHead (ctx.stringQuote none) name markup)

/-- A text that a node is printed as. In a text the words stay; a drop or an assignment is printed from its markup
and keeps its trim markers. -/
def Node.WrittenAs (style : PageStyle) (ctx : PrintContext) (n : Node Unit) (s : String) : Prop :=
  match n.kind with
  | .text value => ∃ ss, s.toList = ss.flatten ∧ List.Forall₂ RunWritten (Text.runs value.toList) ss
  | .drop _ markup d => ∃ indent flat, Doc.Layout style indent flat (printDrop ctx markup d) s
  | .tag name markup d => ∃ indent flat body, Doc.Layout style indent flat (tagInside ctx name markup) body ∧
    s = d.tagStart ++ body ++ d.tagStop
  | _ => False

/-- A text that nodes are printed as, one after the other with blanks between them. -/
inductive Written (style : PageStyle) (ctx : PrintContext) :
    List (Node Unit) → (gaps : List String) → String → Prop where
  | nil : Written style ctx [] [] ""
  | single {n : Node Unit} {s : String} (node : n.WrittenAs style ctx s) : Written style ctx [n] [] s
  | cons {n m : Node Unit} {ns : List (Node Unit)} {gap s t : String} {gaps : List String}
      (node : n.WrittenAs style ctx s) (blank : IsBlankText gap) (rest : Written style ctx (m :: ns) gaps t) :
      Written style ctx (n :: m :: ns) (gap :: gaps) (s ++ gap ++ t)

def whiteGaps (gaps : List String) : List Bool :=
  gaps.map fun gap => decide (gap ≠ "")

/-! ## Facts about neighbours -/

namespace Node

def plainDisplay {α : Type} (n : Node α) : Display :=
  if n.isUnseen then .hidden else .inline

theorem isPlain_cases {α : Type} {n : Node α} (h : n.isPlain = true) :
    (∃ value, n.kind = .text value) ∨ (∃ written markup d, n.kind = .drop written markup d) ∨
      ∃ markup d, n.kind = .tag "assign" markup d := by
  unfold isPlain at h
  split at h
  next value hkind => exact .inl ⟨value, hkind⟩
  next written markup d hkind => exact .inr (.inl ⟨written, markup, d, hkind⟩)
  next name markup d hkind =>
    obtain rfl : name = "assign" := by simpa using h
    exact .inr (.inr ⟨markup, d, hkind⟩)
  · cases h

theorem remark?_plain {α : Type} {n : Node α} (h : n.isPlain = true) : n.remark? = none := by
  unfold remark?
  obtain ⟨value, hkind⟩ | ⟨written, markup, d, hkind⟩ | ⟨markup, d, hkind⟩ := isPlain_cases h <;> rw [hkind]
  simp

theorem displayAfter_plain {before : Option (Node Unit)} {n : Node Unit} (hn : n.isPlain = true)
    (hbefore : ∀ p, before = some p → p.isPlain = true) : displayAfter .css before n = n.plainDisplay := by
  have hremark : before.bind remark? = none := by
    cases before with
    | none => rfl
    | some p => exact remark?_plain (hbefore p rfl)
  unfold displayAfter plainDisplay isUnseen
  rw [hremark]
  obtain ⟨value, hkind⟩ | ⟨written, markup, d, hkind⟩ | ⟨markup, d, hkind⟩ := isPlain_cases hn <;> rw [hkind] <;> rfl

theorem sideMatters_plain {e : Enclosure} (he : e.keepsLayout = false) {n m : Node Display} (hn : n.isPlain = true)
    (hn' : n.info = n.plainDisplay) (hm : m.info = m.plainDisplay) (trimmed inside : Bool) :
    sideMatters (some e) (some m) trimmed inside n = (!trimmed && !n.isUnseen && !m.isUnseen) := by
  have hscript : n.isScriptLike = false := by
    unfold isScriptLike
    obtain ⟨value, hkind⟩ | ⟨written, markup, d, hkind⟩ | ⟨markup, d, hkind⟩ := isPlain_cases hn <;> rw [hkind]
  simp only [sideMatters, isOpenTo, hn', hm, plainDisplay, hscript, he]
  cases trimmed <;> cases n.isUnseen <;> cases m.isUnseen <;> rfl

theorem trailingMatters_plain {e : Enclosure} (he : e.keepsLayout = false) {n m : Node Display} (hn : n.isPlain = true)
    (hn' : n.info = n.plainDisplay) (hm : m.info = m.plainDisplay) :
    trailingMatters (some e) (some m) n = sticks n m := by
  have hbreak : n.isLineBreak = false := by
    unfold isLineBreak
    obtain ⟨value, hkind⟩ | ⟨written, markup, d, hkind⟩ | ⟨markup, d, hkind⟩ := isPlain_cases hn <;> rw [hkind]
  rw [trailingMatters, hbreak, sideMatters_plain he hn hn' hm]
  rfl

theorem leadingMatters_plain {e : Enclosure} (he : e.keepsLayout = false) {n m : Node Display} (hm : m.isPlain = true)
    (hn : n.info = n.plainDisplay) (hm' : m.info = m.plainDisplay) :
    leadingMatters (some e) (some n) m = sticks n m := by
  rw [leadingMatters, sideMatters_plain he hm hm' hn, sticks, Bool.or_comm]
  simp only [Option.any_some, Bool.and_assoc, Bool.and_comm (!m.isUnseen)]

end Node

/-! ## Printing in turn -/

def plainDoc (ctx : PrintContext) : Kind → Doc
  | .text value => printText value
  | .drop _ markup d => printDrop ctx markup d
  | .tag name markup d =>
    .text tagOpen ++ trimMarker d.trimLeft .never ++ tagInside ctx name markup ++
      trimMarker d.trimRight .never ++ .text tagClose
  | _ => .nil

section

variable {ctx : PrintContext} {formatter : CodeFormatter} {level : Nat} {style : PageStyle} {indent : Nat} {flat : Bool}

theorem isIgnored_plain {prev : Option (Node Facts)} (hprev : ∀ p, prev = some p → p.isPlain = true) :
    isIgnored ctx prev = false := by
  cases prev with
  | none => rfl
  | some p => rw [isIgnored, Option.bind_some, Node.remark?_plain (hprev p rfl), Option.any_none]

theorem run_printNode_tag {prev : Option (Node Facts)} {n : Node Facts} {name : String}
    {markup : Markup} {d : Delimiter}
    (hn : n.kind = .tag name markup d) (hprev : isIgnored ctx prev = false) (session : Session) :
    (printNode ctx formatter level prev n).run session = (plainDoc ctx n.kind, session) := by
  obtain ⟨info, span, kind, name, attributes, value, children⟩ := n
  simp only at hn
  subst hn
  unfold printNode
  simp only [hprev, Bool.false_eq_true, if_false]
  rfl

theorem run_printNode_plain {prev : Option (Node Facts)} {n : Node Facts} (hn : n.isPlain = true)
    (hprev : ∀ p, prev = some p → p.isPlain = true) (session : Session) :
    (printNode ctx formatter level prev n).run session = (plainDoc ctx n.kind, session) := by
  obtain ⟨info, span, kind, name, attributes, value, children⟩ := n
  have hignored := @isIgnored_plain ctx prev hprev
  unfold printNode
  simp only [hignored, Bool.false_eq_true, if_false]
  obtain ⟨value, hkind⟩ | ⟨written, markup, d, hkind⟩ | ⟨markup, d, hkind⟩ := Node.isPlain_cases hn <;>
  · simp only at hkind
    subst hkind
    rfl

theorem run_printSiblings_plain {prev : Option (Node Facts)} {n : Node Facts} (hn : n.isPlain = true)
    (hprev : ∀ p, prev = some p → p.isPlain = true) (ns : List (Node Facts)) (session : Session) :
    (printSiblings ctx formatter level false prev (n :: ns)).run session =
      ((match prev with
        | some p => (Gap.between ctx.source false p n).doc
        | none => .nil) ++ plainDoc ctx n.kind ++
        ((printSiblings ctx formatter level false (some n) ns).run session).1,
      ((printSiblings ctx formatter level false (some n) ns).run session).2) := by
  have hnode := @run_printNode_plain ctx formatter level prev n hn hprev session
  cases prev <;>
  · rw [printSiblings]
    simp only [StateT.run_bind, hnode]
    rfl

theorem layout_plainTag {name : String} {markup : Markup} {d : Delimiter} {s : String}
    (h : Doc.Layout style indent flat (plainDoc ctx (.tag name markup d)) s) :
    ∃ body, Doc.Layout style indent flat (tagInside ctx name markup) body ∧ s = d.tagStart ++ body ++ d.tagStop := by
  obtain ⟨t, stop, rfl, ht, hstop⟩ := Doc.layout_append.1 h
  obtain ⟨t, right, rfl, ht, hright⟩ := Doc.layout_append.1 ht
  obtain ⟨t, body, rfl, ht, hbody⟩ := Doc.layout_append.1 ht
  obtain ⟨start, left, rfl, hstart, hleft⟩ := Doc.layout_append.1 ht
  rw [Doc.layout_text.1 hstart, layout_trimMarker hleft, layout_trimMarker hright, Doc.layout_text.1 hstop]
  refine ⟨body, hbody, ?_⟩
  unfold Delimiter.tagStart Delimiter.tagStop
  cases d.trimLeft <;> cases d.trimRight <;> simp [AddedTrim.isShown, dash, String.append_assoc]

def Node.EndsInWord (n : Node Unit) : Prop :=
  ∀ value, n.kind = .text value → ∃ v x, value.toList = v ++ [x] ∧ Text.isBlank x = false

theorem writtenAs_plainDoc {n : Node Unit} (hn : n.isPlain = true) (hends : n.EndsInWord) {s : String}
    (h : Doc.Layout style indent flat (plainDoc ctx n.kind) s) : n.WrittenAs style ctx s := by
  unfold Node.WrittenAs
  obtain ⟨value, hkind⟩ | ⟨written, markup, d, hkind⟩ | ⟨markup, d, hkind⟩ := Node.isPlain_cases hn
  · rw [hkind] at h ⊢
    obtain ⟨v, x, hvalue, hx⟩ := hends value hkind
    exact layout_fill (getLast?_runs hvalue hx) h
  · rw [hkind] at h ⊢
    exact ⟨indent, flat, h⟩
  · rw [hkind] at h ⊢
    obtain ⟨body, hbody, rfl⟩ := layout_plainTag h
    exact ⟨indent, flat, body, hbody, rfl⟩

theorem plain_gap {source : List Char} {a b : Node Facts} (ha : a.info.display.isBlockLike = false)
    (hb : b.info.display.isBlockLike = false) :
    (Gap.plain source a b ≠ .glue ∧ (Gap.plain source a b = .nil → flat = false)) ↔
      (Text.sliceChars source ⟨a.span.stop, b.span.start⟩ ≠ [] ∨
        flat = false ∧ (a.info.trailingMatters && b.info.leadingMatters) = false) := by
  unfold Gap.plain
  simp only [ha, hb, Bool.false_or]
  cases hslice : Text.sliceChars source ⟨a.span.stop, b.span.start⟩ with
  | nil =>
    cases hmatters : a.info.trailingMatters && b.info.leadingMatters <;> simp [Text.countLineFeeds]
  | cons c cs =>
    split
    · simp
    · split <;> simp

/-- Whether the template has white space between two nodes can be read off their ranges. -/
def GapInSource (source : List Char) (n m : Node Unit) : Prop :=
  Text.sliceChars source ⟨n.span.stop, m.span.start⟩ = [] ↔ ¬ n.span.stop < m.span.start

theorem Node.info_withDisplay_of_isPlain {before : Option (Node Unit)} {n : Node Unit} (hn : n.isPlain = true)
    (hbefore : ∀ p, before = some p → p.isPlain = true) :
    (n.withDisplay .css before).info = (n.withDisplay .css before).plainDisplay := by
  have hdisplay := displayAfter_plain hn hbefore
  obtain ⟨info, span, kind, name, attributes, value, children⟩ := n
  exact hdisplay

theorem Node.isBlockLike_plainDisplay {α : Type} (n : Node α) : n.plainDisplay.isBlockLike = false := by
  unfold plainDisplay
  split <;> rfl

/-- The facts that decide about the gap between two neighbours. -/
structure Neighbours (n m : Node Unit) (f f' : Node Facts) : Prop where
  first : f.span = n.span ∧ f.info.display.isBlockLike = false
  second : f'.span = m.span ∧ f'.info.display.isBlockLike = false
  matters : (f.info.trailingMatters && f'.info.leadingMatters) = n.sticks m

theorem neighbours_withFacts {source : List Char} {e : Enclosure} (he : e.keepsLayout = false) {n m : Node Unit}
    (hn : n.isPlain = true) (hm : m.isPlain = true) {before : Option (Node Unit)}
    (hbefore : ∀ p, before = some p → p.isPlain = true) (prev next : Option (Node Display)) :
    Neighbours n m ((n.withDisplay .css before).withFacts source (some e) prev (some (m.withDisplay .css (some n))))
      ((m.withDisplay .css (some n)).withFacts source (some e) (some (n.withDisplay .css before)) next) := by
  have hn' := Node.info_withDisplay_of_isPlain hn hbefore
  have hm' := @Node.info_withDisplay_of_isPlain (some n) m hm fun p hp => by cases hp; exact hn
  have hsticks : (n.withDisplay .css before).sticks (m.withDisplay .css (some n)) = n.sticks m := by
    simp [Node.sticks, Node.trimsAfter, Node.trimsBefore, Node.isUnseen]
  have hkind : (n.withDisplay .css before).isPlain = true := by simpa [Node.isPlain] using hn
  have hkind' : (m.withDisplay .css (some n)).isPlain = true := by simpa [Node.isPlain] using hm
  refine ⟨⟨by simp, ?_⟩, ⟨by simp, ?_⟩, ?_⟩
  · rw [Node.info_withFacts, Node.factsOf, hn']
    exact Node.isBlockLike_plainDisplay _
  · rw [Node.info_withFacts, Node.factsOf, hm']
    exact Node.isBlockLike_plainDisplay _
  · rw [Node.info_withFacts, Node.info_withFacts, Node.factsOf, Node.factsOf,
      Node.trailingMatters_plain he hkind hn' hm', Node.leadingMatters_plain he hkind' hn' hm', Bool.and_self, hsticks]

theorem Neighbours.layout_gap {source : List Char} {n m : Node Unit} {f f' : Node Facts} (hfacts : Neighbours n m f f')
    (hgap : GapInSource source n m) {s : String}
    (h : Doc.Layout style indent flat (Gap.between source false f f').doc s) :
    IsBlankText s ∧ decide (s ≠ "") = (decide (n.span.stop < m.span.start) || !flat && !n.sticks m) := by
  obtain ⟨⟨hspan, hblock⟩, ⟨hspan', hblock'⟩, hmatters⟩ := hfacts
  have hbetween : Gap.between source false f f' = Gap.plain source f f' := by
    unfold Gap.between
    split <;> simp_all
  rw [hbetween] at h
  obtain ⟨hblank, hwhite⟩ := LiquidTemplate.layout_gap h
  rw [plain_gap hblock hblock', hspan, hspan', hmatters] at hwhite
  unfold GapInSource at hgap
  refine ⟨hblank, Bool.eq_iff_iff.2 ?_⟩
  rw [decide_eq_true_iff, hwhite, ne_eq, hgap, not_not]
  simp

/-- The siblings after a node, with the text of that node before them. -/
theorem written_siblings {e : Enclosure} (he : e.keepsLayout = false) (ns : List (Node Unit)) {n : Node Unit}
    {before : Option (Node Unit)} {prev : Option (Node Display)} (hplain : ∀ m ∈ n :: ns, m.isPlain = true)
    (hbefore : ∀ p, before = some p → p.isPlain = true) (hends : ∀ m ∈ n :: ns, m.EndsInWord)
    (hgaps : (n :: ns).IsChain (GapInSource ctx.source)) (session : Session) :
    let displays := Node.withDisplays .css (some n) ns
    let d := n.withDisplay .css before
    let printed := (printSiblings ctx formatter level false (some (d.withFacts ctx.source (some e) prev displays.head?))
      (Node.withAllFacts ctx.source e (some d) displays)).run session
    printed.2 = session ∧ ∀ {s t : String}, n.WrittenAs style ctx s → Doc.Layout style indent flat printed.1 t →
      ∃ gaps, Written style ctx (n :: ns) gaps (s ++ t) ∧ whiteGaps gaps = Node.gapsBetween (!flat) (n :: ns) := by
  induction ns generalizing n before prev with
  | nil =>
    refine ⟨rfl, fun {s t} hs ht => ⟨[], ?_, rfl⟩⟩
    rw [Doc.layout_nil.1 ht, String.append_empty]
    exact .single hs
  | cons m ns ih =>
    obtain ⟨hn, hplain⟩ := List.forall_mem_cons.1 hplain
    obtain ⟨-, hends⟩ := List.forall_mem_cons.1 hends
    obtain ⟨hgap, hgaps⟩ := List.isChain_cons_cons.1 hgaps
    have hm := hplain m List.mem_cons_self
    have hfirst : ∀ p, some n = some p → p.isPlain = true := fun p hp => by cases hp; exact hn
    obtain ⟨hsession, hrest⟩ := @ih m (some n) (some (n.withDisplay .css before)) hplain hfirst hends hgaps
    intro displays d printed
    have hkind : ∀ p, some (d.withFacts ctx.source (some e) prev displays.head?) = some p → p.isPlain = true := by
      rintro p ⟨⟩
      simpa [d, Node.isPlain] using hn
    have hprinted : printed = _ := run_printSiblings_plain (by simpa [Node.isPlain] using hm) hkind _ session
    rw [hprinted]
    refine ⟨hsession, fun {s t} hs ht => ?_⟩
    obtain ⟨t, u, rfl, ht, hu⟩ := Doc.layout_append.1 ht
    obtain ⟨gap, t, rfl, hgapText, ht⟩ := Doc.layout_append.1 ht
    obtain ⟨hblank, hwhite⟩ := (neighbours_withFacts he hn hm hbefore _ _).layout_gap hgap hgapText
    rw [Node.kind_withFacts, Node.kind_withDisplay] at ht
    obtain ⟨gaps, hwritten, hgaps⟩ := hrest (writtenAs_plainDoc hm (hends m List.mem_cons_self) ht) hu
    refine ⟨gap :: gaps, ?_, ?_⟩
    · have hcons := Written.cons hs hblank hwritten
      simpa only [String.append_assoc] using hcons
    · rw [whiteGaps, List.map_cons, hwhite, Node.gapsBetween, ← hgaps, whiteGaps]

theorem written_root {e : Enclosure} (he : e.keepsLayout = false) {ns : List (Node Unit)}
    (hplain : ∀ n ∈ ns, n.isPlain = true) (hends : ∀ n ∈ ns, n.EndsInWord)
    (hgaps : ns.IsChain (GapInSource ctx.source)) (session : Session) :
    let printed := (printSiblings ctx formatter level false none
      (Node.withAllFacts ctx.source e none (Node.withDisplays .css none ns))).run session
    printed.2 = session ∧ ∀ {t : String}, Doc.Layout style indent flat printed.1 t →
      ∃ gaps, Written style ctx ns gaps t ∧ whiteGaps gaps = Node.gapsBetween (!flat) ns := by
  cases ns with
  | nil =>
    refine ⟨rfl, fun {t} ht => ⟨[], ?_, rfl⟩⟩
    rw [Doc.layout_nil.1 ht]
    exact .nil
  | cons n ns =>
    have hn := hplain n List.mem_cons_self
    obtain ⟨hsession, hrest⟩ := @written_siblings ctx formatter level style indent flat e he ns n none none hplain
      (by simp) hends hgaps session
    intro printed
    have hprinted : printed = _ := run_printSiblings_plain (by simpa [Node.isPlain] using hn) (by simp) _ session
    rw [hprinted]
    refine ⟨hsession, fun {t} ht => ?_⟩
    obtain ⟨t, u, rfl, ht, hu⟩ := Doc.layout_append.1 ht
    obtain ⟨nothing, t, rfl, hnothing, ht⟩ := Doc.layout_append.1 ht
    rw [Node.kind_withFacts, Node.kind_withDisplay] at ht
    rw [Doc.layout_nil.1 hnothing, String.empty_append]
    exact hrest (writtenAs_plainDoc hn (hends n List.mem_cons_self) ht) hu

end

/-! ## Templates -/

theorem Derives.tokens_plain {ts : List Token} {ns : List (Node Unit)} (h : Derives .sequence ts ns)
    (hplain : ∀ n ∈ ns, n.isPlain = true) :
    ns.map Node.span = ts.map Token.span ∧ ∀ n ∈ ns, ∃ t ∈ ts, t.leafKind? = some n.kind := by
  generalize hp : Phrase.sequence = p at h
  induction h with
  | nil => exact ⟨rfl, by simp⟩
  | cons first _ _ ih =>
    obtain ⟨hn, hrest⟩ := List.forall_mem_cons.1 hplain
    obtain ⟨hspans, hkinds⟩ := ih hrest hp
    cases first with
    | @leaf t _ _ _ _ isLeaf =>
      refine ⟨by simp [hspans], List.forall_mem_cons.2 ⟨⟨t, List.mem_cons_self, isLeaf⟩, fun m hm => ?_⟩⟩
      obtain ⟨u, hu, hkind⟩ := hkinds m hm
      exact ⟨u, List.mem_cons_of_mem _ hu, hkind⟩
    | element | block | branched => cases hn
  | leaf | element | block | branched | lastBranch | nextBranch => cases hp

theorem Tiles.isChain_gap {offset : Nat} {chars tail : List Char} {ts : List Token} (h : Tiles offset chars tail ts)
    {before : List Char} (hbefore : Text.byteSize before = offset) :
    (ts.map Token.span).IsChain fun s t => ∃ v gap rest, before ++ chars = v ++ (gap ++ rest) ∧
      s.stop = Text.byteSize v ∧ t.start = Text.byteSize v + Text.byteSize gap := by
  induction h generalizing before with
  | nil => exact .nil
  | @cons offset start gap w rest tail t ts _ starts place _ _ more ih =>
    have hrest := @ih (before ++ gap ++ w) (by simp only [Text.byteSize_append]; omega)
    simp only [List.append_assoc] at hrest
    cases more with
    | nil => exact .singleton _
    | @cons _ start' gap' w' rest' _ u us _ starts' place' _ _ _ =>
      refine .cons_cons ⟨before ++ gap ++ w, gap', w' ++ rest', by simp only [List.append_assoc], ?_, ?_⟩ hrest
      · rw [place.1]
        simp only [Text.byteSize_append]
        omega
      · rw [place'.1]
        simp only [Text.byteSize_append]
        omega

theorem gapInSource_of_append {n m : Node Unit} {v gap rest : List Char} (hstop : n.span.stop = Text.byteSize v)
    (hstart : m.span.start = Text.byteSize v + Text.byteSize gap) : GapInSource (v ++ (gap ++ rest)) n m := by
  have hslice : Text.sliceChars (v ++ (gap ++ rest)) ⟨n.span.stop, m.span.start⟩ = gap := by
    rw [Text.sliceChars, hstop, hstart, Text.slice?_append, Option.getD_some]
  rw [GapInSource, hslice, hstop, hstart]
  cases gap with
  | nil => simp [Text.byteSize]
  | cons c cs =>
    obtain ⟨k, hk⟩ := Text.exists_byteSize_cons c cs
    simp only [hk, reduceCtorEq, false_iff, not_not]
    omega

theorem text_of_leafKind? {t : Token} {value : String} (h : t.leafKind? = some (.text value)) :
    ∃ slice, t = .text slice ∧ slice.text = value := by
  cases Token.isLeaf_of_leafKind? h with
  | text slice => exact ⟨slice, rfl, rfl⟩

theorem endsInWord_of_ofSource {source : String} {tokens : List Token} {slice : Slice}
    (h : Token.ofSource source = .ok tokens) (ht : .text slice ∈ tokens) :
    ∃ v x, slice.text.toList = v ++ [x] ∧ Text.isBlank x = false := by
  obtain ⟨-, w, rest, -, hbefore, -⟩ := (Token.ofSource_tiles h).textBefore ht rfl
  obtain ⟨v, x, rfl, hx⟩ := hbefore.ends
  have htext : slice.text = String.ofList (v ++ [x]) := hbefore.spelled
  exact ⟨v, x, by rw [htext, String.toList_ofList], hx⟩

theorem plain_of_parse {source : String} {d : Document Unit} (hparse : Document.parse source = .ok d)
    (hplain : ∀ n ∈ d.root.children, n.isPlain = true) :
    ∃ nodes, d = .ofNodes source nodes ∧ (∀ n ∈ nodes, n.EndsInWord) ∧ nodes.IsChain (GapInSource source.toList) := by
  obtain ⟨tokens, htokens⟩ := ofSource_of_parse hparse
  obtain ⟨nodes, hderives, rfl⟩ := derives_of_parse htokens hparse
  have htiles := Token.ofSource_tiles htokens
  obtain ⟨hspans, hkinds⟩ := hderives.tokens_plain hplain
  refine ⟨nodes, rfl, fun n hn value hvalue => ?_, ?_⟩
  · obtain ⟨t, ht, hkind⟩ := hkinds n hn
    rw [hvalue] at hkind
    obtain ⟨slice, rfl, rfl⟩ := text_of_leafKind? hkind
    exact endsInWord_of_ofSource htokens ht
  · have hchain := @Tiles.isChain_gap _ _ _ _ htiles [] rfl
    rw [← hspans, List.isChain_map] at hchain
    refine hchain.imp ?_
    rintro n m ⟨v, gap, rest, hsource, hstop, hstart⟩
    rw [List.nil_append] at hsource
    rw [hsource]
    exact gapInSource_of_append hstop hstart

theorem isIgnored_of_plain {o : Options} {d : Document Unit} (hplain : ∀ n ∈ d.root.children, n.isPlain = true) :
    d.isIgnored o = false := by
  unfold Document.isIgnored
  cases hfirst : d.root.children.head? with
  | none => rfl
  | some n =>
    have hn := hplain n (List.mem_of_head? hfirst)
    have hremark : fileRemark? n = none := by
      have hnone := n.remark?_plain hn
      unfold fileRemark?
      obtain ⟨value, hkind⟩ | ⟨written, markup, opener, hkind⟩ | ⟨markup, opener, hkind⟩ := Node.isPlain_cases hn <;>
        rw [hkind] <;> exact hnone
    rw [Option.bind_some, hremark, Option.any_none]

theorem written_document {source : String} {nodes : List (Node Unit)} {o : Options} (formatter : CodeFormatter)
    (hplain : ∀ n ∈ nodes, n.isPlain = true) (hends : ∀ n ∈ nodes, n.EndsInWord)
    (hgaps : nodes.IsChain (GapInSource source.toList)) :
    ∃ doc, (((Document.ofNodes source nodes).annotate .css).print o formatter).run {} = (doc, {}) ∧
      ∀ {style : PageStyle} {s : String}, Doc.Layout style 0 false doc s → ∃ broken gaps text tail, s = text ++ tail ∧
        IsBlankText tail ∧ Written style ⟨source.toList, o⟩ nodes gaps text ∧
          whiteGaps gaps = Node.gapsBetween broken nodes := by
  have hroot := fun style flat => @written_root ⟨source.toList, o⟩ formatter 0 style 0 flat
    (Node.enclosure none none ((Document.ofNodes source nodes).root.withDisplay .css none)) rfl nodes hplain hends
    hgaps {}
  cases nodes with
  | nil =>
    refine ⟨.nil, rfl, fun {style s} hs => ⟨false, [], "", "", ?_, rfl, .nil, rfl⟩⟩
    rw [Doc.layout_nil.1 hs, String.append_empty]
  | cons n ns =>
    refine ⟨.group ((printSiblings ⟨source.toList, o⟩ formatter 0 false none
      (Node.withAllFacts source.toList _ none (Node.withDisplays .css none (n :: ns)))).run {}).1 ++ .hardLine,
      Prod.ext rfl (hroot o.pageStyle true).1, fun {style s} hs => ?_⟩
    obtain ⟨text, tail, rfl, htext, htail⟩ := Doc.layout_append.1 hs
    obtain ⟨flat, -, htext⟩ := Doc.layout_group.1 htext
    obtain ⟨gaps, hwritten, hwhite⟩ := (hroot style flat).2 htext
    rw [Doc.layout_hardLine.1 htail]
    exact ⟨!flat, gaps, text, style.newLine 0, rfl, isBlankText_newLine style 0, hwritten, hwhite⟩

/-- **Formatting keeps what is seen** of a template of texts, drops and assignments, as far as white space next to
assignments does not matter. The nodes are written one after the other with blanks between them, either with white
space where the template has some, or also next to every assignment and trim marker. So if white space in all these
places shows the same as the template does, then so does the formatted text. -/
theorem format_shown {source : String} {d : Document Unit} {o : Options} (formatter : CodeFormatter)
    (hparse : Document.parse source = .ok d) (hplain : ∀ n ∈ d.root.children, n.isPlain = true)
    (hsensitivity : o.sensitivity = .css) (hindent : o.indentWidth ≠ 0) :
    ∃ (broken : Bool) (gaps : List String) (text tail : String), format o formatter source = (.ok (text ++ tail), []) ∧
      IsBlankText tail ∧ Written o.pageStyle ⟨source.toList, o⟩ d.root.children gaps text ∧
      whiteGaps gaps = Node.gapsBetween broken d.root.children ∧
      (Node.shown d.root.children (Node.gapsBetween true d.root.children) = d.shown →
        Node.shown d.root.children (whiteGaps gaps) = d.shown) := by
  obtain ⟨nodes, rfl, hends, hgaps⟩ := plain_of_parse hparse hplain
  obtain ⟨doc, hrun, hlayouts⟩ := @written_document source nodes o formatter hplain hends hgaps
  obtain ⟨s, hlayout, hout⟩ := doc.renderOn_layout o.pageStyle 0 false (fun _ => true) {}
  obtain ⟨broken, gaps, text, tail, rfl, hblank, hwritten, hwhite⟩ := hlayouts hlayout
  refine ⟨broken, gaps, text, tail, ?_, hblank, hwritten, hwhite, fun hsame => ?_⟩
  · unfold format
    rw [hparse]
    simp only [Document.format, isIgnored_of_plain hplain, Bool.false_eq_true, if_false, hsensitivity, hrun, hindent]
    rw [Doc.render, hout, String.empty_append]
  · rw [hwhite]
    cases broken with
    | false => rfl
    | true => exact hsame

/-- The space before the assignment is seen wherever the lines are broken. -/
theorem shown_around_assignment :
    ∃ (d : Document Unit) (gaps : List String) (text tail : String),
      Document.parse "a \x7b% assign x = 1 %\x7d\x7b\x7b y \x7d\x7d" = .ok d ∧ d.root.children.length = 3 ∧
      format { printWidth := 10 } .identity "a \x7b% assign x = 1 %\x7d\x7b\x7b y \x7d\x7d" = (.ok (text ++ tail), []) ∧
      text ++ tail = "a\n\x7b% assign x = 1 %\x7d\n\x7b\x7b y \x7d\x7d\n" ∧
      Written (Options.pageStyle { printWidth := 10 })
        ⟨"a \x7b% assign x = 1 %\x7d\x7b\x7b y \x7d\x7d".toList, { printWidth := 10 }⟩ d.root.children gaps text ∧
      Node.shown d.root.children (whiteGaps gaps) = d.shown := by
  have heval : (Document.parse "a \x7b% assign x = 1 %\x7d\x7b\x7b y \x7d\x7d").toOption.any
        (fun d => d.root.children.length = 3 ∧ (∀ n ∈ d.root.children, n.isPlain = true) ∧
          Node.shown d.root.children (Node.gapsBetween true d.root.children) = d.shown) = true ∧
      (format { printWidth := 10 } .identity "a \x7b% assign x = 1 %\x7d\x7b\x7b y \x7d\x7d").1.toOption.any
        (· == "a\n\x7b% assign x = 1 %\x7d\n\x7b\x7b y \x7d\x7d\n") = true := by decide +kernel
  obtain ⟨d, hparse, hd⟩ := exists_eq_ok heval.1
  obtain ⟨t, hformat, ht⟩ := exists_eq_ok heval.2
  obtain ⟨hlength, hplain, hsame⟩ := of_decide_eq_true hd
  obtain ⟨broken, gaps, text, tail, hout, -, hwritten, -, hshown⟩ :=
    @format_shown _ d { printWidth := 10 } .identity hparse hplain rfl (by decide)
  rw [hout] at hformat
  cases hformat
  exact ⟨d, gaps, text, tail, hparse, hlength, hout, eq_of_beq ht, hwritten, hshown hsame⟩

/-- Two words that an assignment stands between, without white space, are taken apart. -/
theorem assignment_parts_words :
    ∃ d d' : Document Unit, Document.parse "a\x7b% assign x = 1 %\x7db" = .ok d ∧
      (format { printWidth := 10 } .identity "a\x7b% assign x = 1 %\x7db").1 = .ok "a\n\x7b% assign x = 1 %\x7d\nb\n" ∧
      Document.parse "a\n\x7b% assign x = 1 %\x7d\nb\n" = .ok d' ∧
      d.shown = [(false, .word ['a']), (false, .word ['b'])] ∧
      d'.shown = [(false, .word ['a']), (true, .word ['b'])] := by
  have heval : (format { printWidth := 10 } .identity "a\x7b% assign x = 1 %\x7db").1.toOption.any
        (· == "a\n\x7b% assign x = 1 %\x7d\nb\n") = true ∧
      (Document.parse "a\x7b% assign x = 1 %\x7db").toOption.any
        (fun d => d.shown = [(false, .word ['a']), (false, .word ['b'])]) = true ∧
      (Document.parse "a\n\x7b% assign x = 1 %\x7d\nb\n").toOption.any
        (fun d => d.shown = [(false, .word ['a']), (true, .word ['b'])]) = true := by decide +kernel
  obtain ⟨t, hformat, ht⟩ := exists_eq_ok heval.1
  obtain ⟨d, hparse, hd⟩ := exists_eq_ok heval.2.1
  obtain ⟨d', hparse', hd'⟩ := exists_eq_ok heval.2.2
  refine ⟨d, d', hparse, ?_, hparse', of_decide_eq_true hd, of_decide_eq_true hd'⟩
  rw [hformat, eq_of_beq ht]

end LiquidTemplate
