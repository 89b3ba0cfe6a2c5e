import LiquidTemplate.Proofs.Nesting.Preorder
import LiquidTemplate.Whitespace.Facts
import Mathlib.Data.List.Forall2

/-!
# Annotated trees

Annotating a tree keeps its shape: `Node.Annotates` relates a node to what it becomes, and relates their
children one by one (`Node.Annotates.children`). The facts of an annotated node tell where the source has
white space around it.
-/

namespace LiquidTemplate

namespace Node

section

variable {α : Type} (s : Sensitivity) (before : Option (Node α)) (n : Node α)

@[simp] theorem kind_withDisplay : (n.withDisplay s before).kind = n.kind := by
  cases n
  rfl

@[simp] theorem span_withDisplay : (n.withDisplay s before).span = n.span := by
  cases n
  rfl

theorem info_withDisplay : (n.withDisplay s before).info = n.displayAfter s before := by
  cases n
  rfl

end

section

variable (source : List Char) (around : Option Enclosure) (prev next : Option (Node Display)) (n : Node Display)

@[simp] theorem kind_withFacts : (n.withFacts source around prev next).kind = n.kind := by
  cases n
  rfl

@[simp] theorem span_withFacts : (n.withFacts source around prev next).span = n.span := by
  cases n
  rfl

@[simp] theorem info_withFacts : (n.withFacts source around prev next).info = n.factsOf source around prev next := by
  cases n
  rfl

end

end Node

/-- The facts about a node tell where the source has white space around it. -/
def Node.KnowsSource (source : List Char) (n : Node Facts) : Prop :=
  n.info.hasLeading = n.hasLeadingIn source ∧ n.info.hasTrailing = n.hasTrailingIn source

/-- A node with facts is another one as annotated somewhere in a tree. -/
def Node.Annotates (s : Sensitivity) (source : List Char) (m : Node Unit) (n : Node Facts) : Prop :=
  ∃ (before : Option (Node Unit)) (around : Option Enclosure) (prev next : Option (Node Display)),
    n = (m.withDisplay s before).withFacts source around prev next

namespace Node

variable {s : Sensitivity} {source : List Char}

theorem forall₂_withAllFacts (ms : List (Node Unit)) (before : Option (Node Unit)) (around : Enclosure)
    (prev : Option (Node Display)) :
    List.Forall₂ (Annotates s source) ms (withAllFacts source around prev (withDisplays s before ms)) := by
  induction ms generalizing before prev with
  | nil => exact .nil
  | cons m ms ih => exact .cons ⟨before, some around, prev, _, rfl⟩ (ih (some m) _)

namespace Annotates

variable {m : Node Unit} {n : Node Facts}

theorem kind (h : m.Annotates s source n) : n.kind = m.kind := by
  obtain ⟨before, around, prev, next, rfl⟩ := h
  rw [kind_withFacts, kind_withDisplay]

theorem span (h : m.Annotates s source n) : n.span = m.span := by
  obtain ⟨before, around, prev, next, rfl⟩ := h
  rw [span_withFacts, span_withDisplay]

theorem knowsSource (h : m.Annotates s source n) : n.KnowsSource source := by
  obtain ⟨before, around, prev, next, rfl⟩ := h
  cases m
  exact ⟨rfl, rfl⟩

theorem children (h : m.Annotates s source n) : List.Forall₂ (Annotates s source) m.children n.children := by
  obtain ⟨before, around, prev, next, rfl⟩ := h
  cases m with
  | mk info span kind name attributes value children => exact forall₂_withAllFacts children none _ none

theorem exists_of_mem {ms : List (Node Unit)} {ns : List (Node Facts)}
    (h : List.Forall₂ (Annotates s source) ms ns) (hn : n ∈ ns) : ∃ m ∈ ms, m.Annotates s source n := by
  induction h with
  | nil => cases hn
  | cons first _ ih =>
    rcases List.mem_cons.1 hn with rfl | hn
    · exact ⟨_, List.mem_cons_self, first⟩
    · obtain ⟨m, hm, hannotates⟩ := ih hn
      exact ⟨m, List.mem_cons_of_mem _ hm, hannotates⟩

end Annotates

mutual

theorem exists_of_mem_preorder_withFacts (m : Node Unit) (before : Option (Node Unit)) (around : Option Enclosure)
    (prev next : Option (Node Display)) {n : Node Facts}
    (h : n ∈ ((m.withDisplay s before).withFacts source around prev next).preorder) :
    ∃ m' ∈ m.preorder, m'.Annotates s source n := by
  obtain ⟨info, span, kind, name, attributes, value, children⟩ := m
  simp only [withDisplay, withFacts, preorder, List.mem_cons, List.mem_append] at h
  simp only [preorder, List.mem_cons, List.mem_append]
  rcases h with rfl | ((h | h) | h) | h
  · exact ⟨_, .inl rfl, before, around, prev, next, rfl⟩
  · obtain ⟨m', hm', hannotates⟩ := exists_of_mem_preorderOf_withAllFacts name none _ none h
    exact ⟨m', .inr (.inl (.inl (.inl hm'))), hannotates⟩
  · obtain ⟨m', hm', hannotates⟩ := exists_of_mem_preorderOf_withAllFacts attributes none _ none h
    exact ⟨m', .inr (.inl (.inl (.inr hm'))), hannotates⟩
  · obtain ⟨m', hm', hannotates⟩ := exists_of_mem_preorderOf_withAllFacts value none _ none h
    exact ⟨m', .inr (.inl (.inr hm')), hannotates⟩
  · obtain ⟨m', hm', hannotates⟩ := exists_of_mem_preorderOf_withAllFacts children none _ none h
    exact ⟨m', .inr (.inr hm'), hannotates⟩

theorem exists_of_mem_preorderOf_withAllFacts (ms : List (Node Unit)) (before : Option (Node Unit))
    (around : Enclosure) (prev : Option (Node Display)) {n : Node Facts}
    (h : n ∈ preorderOf (withAllFacts source around prev (withDisplays s before ms))) :
    ∃ m' ∈ preorderOf ms, m'.Annotates s source n := by
  cases ms with
  | nil => cases h
  | cons m ms =>
    simp only [withDisplays, withAllFacts, preorderOf, List.mem_append] at h ⊢
    rcases h with h | h
    · obtain ⟨m', hm', hannotates⟩ := exists_of_mem_preorder_withFacts m before _ prev _ h
      exact ⟨m', .inl hm', hannotates⟩
    · obtain ⟨m', hm', hannotates⟩ := exists_of_mem_preorderOf_withAllFacts ms (some m) around _ h
      exact ⟨m', .inr hm', hannotates⟩

end

end Node

theorem Document.annotates_root (s : Sensitivity) (d : Document Unit) :
    d.root.Annotates s d.source.toList (d.annotate s).root :=
  ⟨none, none, none, none, rfl⟩

end LiquidTemplate
