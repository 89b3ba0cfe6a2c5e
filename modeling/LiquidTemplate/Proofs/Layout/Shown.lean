import LiquidTemplate.Proofs.Layout.Modes

/-!
# Texts that a document shows

`Text.StandIn vs w` says that the texts `vs` stand in `w`, in this order and apart from each other. A document shows
texts if they stand in it however it is laid out (`Doc.Shows`), and then they stand in what is rendered at any width
(`Doc.Shows.render`).
-/

namespace LiquidTemplate

/-- Texts stand in another one, in this order and apart from each other. -/
inductive Text.StandIn : List String → String → Prop where
  | nil {w : String} : StandIn [] w
  | cons {before v w : String} {vs : List String} (rest : StandIn vs w) : StandIn (v :: vs) (before ++ v ++ w)

namespace Text.StandIn

variable {vs us : List String} {w x : String}

theorem after (h : StandIn vs w) (x : String) : StandIn vs (x ++ w) := by
  cases h with
  | nil => exact .nil
  | cons rest =>
    rw [← String.append_assoc, ← String.append_assoc]
    exact .cons rest

theorem append (h : StandIn vs w) (h' : StandIn us x) : StandIn (vs ++ us) (w ++ x) := by
  induction h with
  | nil => exact h'.after _
  | cons _ ih =>
    rw [String.append_assoc]
    exact .cons ih

end Text.StandIn

namespace Doc

/-- Texts stand in a document, however it is laid out. -/
def Shows (style : PageStyle) (vs : List String) (d : Doc) : Prop :=
  ∀ indent flat s, d.Layout style indent flat s → Text.StandIn vs s

variable {style : PageStyle} {vs us : List String} {a b d : Doc}

theorem shows_nil (style : PageStyle) (d : Doc) : d.Shows style [] :=
  fun _ _ _ _ => .nil

theorem Shows.append (h : a.Shows style vs) (h' : b.Shows style us) : (a ++ b).Shows style (vs ++ us) := by
  intro indent flat s hs
  obtain ⟨t, u, rfl, ht, hu⟩ := layout_append.1 hs
  exact (h indent flat t ht).append (h' indent flat u hu)

theorem Shows.left (h : a.Shows style vs) (b : Doc) : (a ++ b).Shows style vs := by
  simpa using h.append (shows_nil style b)

theorem Shows.right (h : b.Shows style vs) (a : Doc) : (a ++ b).Shows style vs :=
  (shows_nil style a).append h

theorem Shows.group (h : d.Shows style vs) : (Doc.group d).Shows style vs := by
  intro indent flat s hs
  obtain ⟨inner, -, hs⟩ := layout_group.1 hs
  exact h indent inner s hs

theorem Shows.nest (h : d.Shows style vs) (columns : Nat) : (Doc.nest columns d).Shows style vs :=
  fun _ flat s hs => h _ flat s (layout_nest.1 hs)

/-- **What a document shows stands in its text**, at every width. -/
theorem Shows.render (h : d.Shows style vs) : Text.StandIn vs (d.render style) := by
  obtain ⟨s, hs, hout⟩ := d.renderOn_layout style 0 false (fun _ => true) {}
  rw [Doc.render, hout]
  exact (h 0 false s hs).after _

end Doc

end LiquidTemplate
