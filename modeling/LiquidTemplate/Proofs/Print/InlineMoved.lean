import LiquidTemplate.Print.Inline
import LiquidTemplate.Proofs.Nesting.Formed
import LiquidTemplate.Proofs.Whitespace.Twins

/-!
# One line, wherever it stands

What is printed on one line does not read the facts of nodes (`inline_annotated`). It reads their offsets, but only to
tell whether there is something between two items, and to cut items out of the source. So a name, an attribute or a
value that is moved as a whole is printed as before (`inline_moved`).
-/

namespace LiquidTemplate

/-- From one source to another, some offsets are moved as a whole: they keep their order, and what is between them is
the same text. -/
structure Rigid (a b : List Char) (f : Nat → Nat) (B : Nat → Prop) : Prop where
  lt_iff : ∀ i j, B i → B j → (f i < f j ↔ i < j)
  text : ∀ i j, B i → B j → Text.sliceChars b ⟨f i, f j⟩ = Text.sliceChars a ⟨i, j⟩

namespace Node

variable {ctx : PrintContext} {s : Sensitivity} {source : List Char}

/-! ## Annotated nodes -/

theorem span_annotated (m : Node Unit) (before : Option (Node Unit)) (around : Option Enclosure)
    (prev next : Option (Node Display)) : ((m.withDisplay s before).withFacts source around prev next).span = m.span :=
  Annotates.span ⟨before, around, prev, next, rfl⟩

theorem head?_annotated (ms : List (Node Unit)) (before : Option (Node Unit)) (around : Enclosure)
    (prev : Option (Node Display)) :
    (withAllFacts source around prev (withDisplays s before ms)).head?.map (·.span.start) =
      ms.head?.map (·.span.start) := by
  cases ms with
  | nil => rfl
  | cons m ms => simp only [withDisplays, withAllFacts, List.head?_cons, Option.map_some, span_annotated]

theorem all_isText_annotated (ms : List (Node Unit)) (before : Option (Node Unit)) (around : Enclosure)
    (prev : Option (Node Display)) :
    (withAllFacts source around prev (withDisplays s before ms)).all isText = ms.all isText := by
  induction ms generalizing before prev with
  | nil => rfl
  | cons m ms ih =>
    have hkind : ((m.withDisplay s before).withFacts source (some around) prev
        (withDisplays s (some m) ms).head?).kind = m.kind := Annotates.kind ⟨before, some around, prev, _, rfl⟩
    simp only [withDisplays, withAllFacts, List.all_cons, ih, isText, hkind]

mutual

theorem inline_annotated (m : Node Unit) (before : Option (Node Unit)) (around : Option Enclosure)
    (prev next : Option (Node Display)) (q : Option Quote) :
    ((m.withDisplay s before).withFacts source around prev next).inline ctx q = m.inline ctx q := by
  obtain ⟨info, span, kind, name, attributes, value, children⟩ := m
  simp only [withDisplay, withFacts]
  cases kind with
  | block tagName markup opener closer => simp only [inline, inlineBranches_annotated children]
  | attr style =>
    cases style <;> simp only [inline, inlineItems_annotated name, inlineValue_annotated value, head?_annotated]
  | _ => rfl

theorem inlineValue_annotated (ms : List (Node Unit)) (before : Option (Node Unit)) (around : Enclosure)
    (prev : Option (Node Display)) (nameText : String) (mark : Option Quote) :
    inlineValue ctx nameText mark (withAllFacts source around prev (withDisplays s before ms)) =
      inlineValue ctx nameText mark ms := by
  have htext := @all_isText_annotated s source ms before around prev
  have hwritten := Annotates.map_written (@forall₂_withAllFacts s source ms before around prev)
  cases ms with
  | nil => rfl
  | cons m ms =>
    simp only [withDisplays, withAllFacts] at htext hwritten
    simp only [withDisplays, withAllFacts, inlineValue, htext, hwritten, span_annotated, inline_annotated m,
      inlineItems_annotated ms]

theorem inlineItems_annotated (ms : List (Node Unit)) (before : Option (Node Unit)) (around : Enclosure)
    (prev : Option (Node Display)) (q : Option Quote) (stop : Nat) :
    inlineItems ctx q stop (withAllFacts source around prev (withDisplays s before ms)) =
      inlineItems ctx q stop ms := by
  cases ms with
  | nil => rfl
  | cons m ms =>
    simp only [withDisplays, withAllFacts, inlineItems, span_annotated, inline_annotated m, inlineItems_annotated ms]

theorem inlineBranches_annotated (ms : List (Node Unit)) (before : Option (Node Unit)) (around : Enclosure)
    (prev : Option (Node Display)) (q : Option Quote) (stop : Nat) :
    inlineBranches ctx q stop (withAllFacts source around prev (withDisplays s before ms)) =
      inlineBranches ctx q stop ms := by
  cases ms with
  | nil => rfl
  | cons m ms =>
    have hinline := inline_annotated m before (some around) prev (withDisplays s (some m) ms).head? q
    obtain ⟨info, span, kind, name, attributes, value, children⟩ := m
    simp only [withDisplay, withFacts] at hinline
    cases kind with
    | branch branchName markup opener =>
      cases branchName <;> simp only [withDisplays, withAllFacts, withDisplay, withFacts, inlineBranches,
        inlineItems_annotated children, inlineBranches_annotated ms]
    | _ => simp only [withDisplays, withAllFacts, withDisplay, withFacts, inlineBranches, hinline,
        inlineBranches_annotated ms]

end

theorem Annotates.inline_eq {m : Node Unit} {n : Node Facts} (h : m.Annotates s source n) (q : Option Quote) :
    n.inline ctx q = m.inline ctx q := by
  obtain ⟨before, around, prev, next, rfl⟩ := h
  exact inline_annotated m before around prev next q

theorem Annotates.inlineList_name {m : Node Unit} {n : Node Facts} (h : m.Annotates s source n) (q : Option Quote) :
    inlineList ctx q n.name = inlineList ctx q m.name := by
  obtain ⟨before, around, prev, next, rfl⟩ := h
  cases m
  simp only [withDisplay, withFacts, inlineList, head?_annotated, inlineItems_annotated]

/-! ## Tags of nodes -/

end Node

def Kind.tags : Kind → List Span
  | element opener closer => [opener, closer]
  | block _ _ opener closer => opener.span :: (closer.map (·.span)).toList
  | branch _ _ opener => [opener.span]
  | _ => []

theorem tags_of_leafKind? {t : Token} {kind : Kind} (h : t.leafKind? = some kind) : kind.tags = [] := by
  cases Token.isLeaf_of_leafKind? h <;> rfl

namespace Node

theorem Formed.tags {P : Token → Prop} {B : Nat → Prop} {n : Node Unit} (h : n.Formed P B) :
    ∀ span ∈ n.kind.tags, span.EndsIn B := by
  cases h with
  | leaf _ isLeaf => simp [tags_of_leafKind? isLeaf]
  | element _ opens closes => simp [Kind.tags, opens, closes]
  | block _ opens closes => simpa [Kind.tags, opens] using closes
  | branched _ opens closes => simpa [Kind.tags, opens] using closes
  | branch _ opens => simp [Kind.tags, opens]
  | document => simp [Kind.tags]

theorem allFormed_members {P : Token → Prop} {B : Nat → Prop} {n : Node Unit} (h : ∀ m ∈ n.preorder, m.Formed P B) :
    AllFormed P B n.members :=
  fun c hc m hm => h m (mem_preorder.2 (.inr ⟨c, hc, hm⟩))

/-! ## Moved nodes -/

section

variable {a b : List Char} {f : Nat → Nat} {B : Nat → Prop} {o : Options} {P : Token → Prop}

theorem gapText_moved (hrigid : Rigid a b f B) {i j : Nat} (hi : B i) (hj : B j) :
    gapText (f i) (f j) = gapText i j := by
  rw [gapText, gapText]
  congr 1
  exact propext (hrigid.lt_iff i j hi hj)

theorem start_moved {ms : List (Node Unit)} (hms : AllFormed P B ms) :
    ms = [] ∨ B ((ms.head?.map (·.span.start)).getD 0) ∧
      ((allMoved f ms).head?.map (·.span.start)).getD 0 = f ((ms.head?.map (·.span.start)).getD 0) := by
  cases ms with
  | nil => exact .inl rfl
  | cons m ms =>
    refine .inr ⟨(hms.formed List.mem_cons_self).ends.1, ?_⟩
    simp only [allMoved, List.head?_cons, Option.map_some, Option.getD_some, span_moved, Span.moved]

theorem all_isText_allMoved (ms : List (Node Unit)) : (allMoved f ms).all isText = ms.all isText := by
  simp [allMoved_eq_map, Function.comp_def]

mutual

/-- **What is moved as a whole is printed on one line as before.** -/
theorem inline_moved (hrigid : Rigid a b f B) (m : Node Unit) (hm : ∀ k ∈ m.preorder, k.Formed P B)
    (q : Option Quote) :
    (m.moved f).inline ⟨b, o⟩ q = m.inline ⟨a, o⟩ q := by
  have hown := hm m (mem_preorder.2 (.inl rfl))
  have hmembers := allFormed_members hm
  obtain ⟨info, span, kind, name, attributes, value, children⟩ := m
  have hspan : Text.slice b (span.moved f) = Text.slice a span :=
    congrArg String.ofList (hrigid.text _ _ hown.ends.1 hown.ends.2)
  have htags := hown.tags
  simp only [members, AllFormed, List.forall_mem_append] at hmembers
  obtain ⟨⟨⟨hname, -⟩, hvalue⟩, hchildren⟩ := hmembers
  rw [moved]
  cases kind with
  | block tagName markup opener closer =>
    have hopener : opener.span.EndsIn B := htags _ List.mem_cons_self
    obtain ⟨hbranches, hstop⟩ := inlineBranches_moved hrigid children hchildren q hopener.2
    cases closer with
    | none => simp only [Kind.moved, inline, Delimiter.moved, Span.moved, hbranches, Option.map_none]; rfl
    | some d =>
      have hcloser : d.span.EndsIn B := htags _ (by simp [Kind.tags])
      simp only [Kind.moved, inline, Delimiter.moved, Span.moved, hbranches, Option.map_some,
        gapText_moved hrigid hstop hcloser.1]
      rfl
  | attr style =>
    have hnameText : (inlineItems ⟨b, o⟩ q (((allMoved f name).head?.map (·.span.start)).getD 0) (allMoved f name)).1 =
        (inlineItems ⟨a, o⟩ q ((name.head?.map (·.span.start)).getD 0) name).1 := by
      rcases @start_moved f B P name hname with rfl | ⟨hstart, hmove⟩
      · rfl
      · rw [hmove, (inlineItems_moved hrigid name hname q hstart).1]
    cases style <;> simp only [Kind.moved, inline, hnameText, inlineValue_moved hrigid value hvalue]
  | text | drop | tag => rfl
  | _ => exact hspan

theorem inlineValue_moved (hrigid : Rigid a b f B) (ms : List (Node Unit)) (hms : AllFormed P B ms)
    (nameText : String) (mark : Option Quote) :
    inlineValue ⟨b, o⟩ nameText mark (allMoved f ms) = inlineValue ⟨a, o⟩ nameText mark ms := by
  have htext := @all_isText_allMoved f ms
  have hwritten : (allMoved f ms).map written = ms.map written := by
    simp [allMoved_eq_map, Function.comp_def]
  cases ms with
  | nil => rfl
  | cons m ms =>
    obtain ⟨hfirst, hrest⟩ := List.forall_mem_cons.1 hms
    have hspan := (hfirst m (mem_preorder.2 (.inl rfl))).ends
    simp only [allMoved] at htext hwritten
    simp only [allMoved, inlineValue, htext, hwritten, span_moved, Span.moved, inline_moved hrigid m hfirst,
      (inlineItems_moved hrigid ms hrest _ hspan.2).1]

theorem inlineItems_moved (hrigid : Rigid a b f B) (ms : List (Node Unit)) (hms : AllFormed P B ms)
    (q : Option Quote) {stop : Nat} (hstop : B stop) :
    inlineItems ⟨b, o⟩ q (f stop) (allMoved f ms) =
        ((inlineItems ⟨a, o⟩ q stop ms).1, f (inlineItems ⟨a, o⟩ q stop ms).2) ∧
      B (inlineItems ⟨a, o⟩ q stop ms).2 := by
  cases ms with
  | nil => exact ⟨rfl, hstop⟩
  | cons m ms =>
    obtain ⟨hfirst, hrest⟩ := List.forall_mem_cons.1 hms
    have hspan := (hfirst m (mem_preorder.2 (.inl rfl))).ends
    obtain ⟨hitems, hend⟩ := inlineItems_moved hrigid ms hrest q hspan.2
    refine ⟨?_, hend⟩
    simp only [allMoved, inlineItems, span_moved, Span.moved, inline_moved hrigid m hfirst, hitems,
      gapText_moved hrigid hstop hspan.1]

theorem inlineBranches_moved (hrigid : Rigid a b f B) (ms : List (Node Unit)) (hms : AllFormed P B ms)
    (q : Option Quote) {stop : Nat} (hstop : B stop) :
    inlineBranches ⟨b, o⟩ q (f stop) (allMoved f ms) =
        ((inlineBranches ⟨a, o⟩ q stop ms).1, f (inlineBranches ⟨a, o⟩ q stop ms).2) ∧
      B (inlineBranches ⟨a, o⟩ q stop ms).2 := by
  cases ms with
  | nil => exact ⟨rfl, hstop⟩
  | cons m ms =>
    obtain ⟨hfirst, hrest⟩ := List.forall_mem_cons.1 hms
    have hown := hfirst m (mem_preorder.2 (.inl rfl))
    have hinline := inline_moved hrigid m hfirst q
    have hmembers := allFormed_members hfirst
    obtain ⟨info, span, kind, name, attributes, value, children⟩ := m
    have hends := hown.ends
    have htags := hown.tags
    simp only [members, AllFormed, List.forall_mem_append] at hmembers
    obtain ⟨-, hchildren⟩ := hmembers
    rw [moved] at hinline
    cases kind with
    | branch branchName markup opener =>
      have hopener : opener.span.EndsIn B := htags _ List.mem_cons_self
      cases branchName with
      | none =>
        obtain ⟨hitems, hend⟩ := inlineItems_moved hrigid children hchildren q hstop
        obtain ⟨hbranches, hend'⟩ := inlineBranches_moved hrigid ms hrest q hend
        refine ⟨?_, hend'⟩
        simp only [allMoved, moved, Kind.moved, inlineBranches, hitems, hbranches]
      | some branchName =>
        obtain ⟨hitems, hend⟩ := inlineItems_moved hrigid children hchildren q hopener.2
        obtain ⟨hbranches, hend'⟩ := inlineBranches_moved hrigid ms hrest q hend
        refine ⟨?_, hend'⟩
        simp only [allMoved, moved, Kind.moved, inlineBranches, Delimiter.moved, Span.moved, hitems, hbranches,
          gapText_moved hrigid hstop hopener.1]
        rfl
    | _ =>
      obtain ⟨hbranches, hend⟩ := inlineBranches_moved hrigid ms hrest q hends.2
      refine ⟨?_, hend⟩
      simp only [Kind.moved, Span.moved] at hinline
      simp only [allMoved, moved, Kind.moved, inlineBranches, hinline, Span.moved, hbranches,
        gapText_moved hrigid hstop hends.1]

end

theorem inlineList_moved (hrigid : Rigid a b f B) {ms : List (Node Unit)} (hms : AllFormed P B ms)
    (q : Option Quote) :
    inlineList ⟨b, o⟩ q (ms.map (moved f)) = inlineList ⟨a, o⟩ q ms := by
  rw [← allMoved_eq_map, inlineList, inlineList]
  rcases @start_moved f B P ms hms with rfl | ⟨hstart, hmove⟩
  · rfl
  · rw [hmove, (inlineItems_moved hrigid ms hms q hstart).1]

end

end Node

end LiquidTemplate
