import LiquidTemplate.Proofs.Layout.Modes
import LiquidTemplate.Proofs.Text.LineEnds

/-!
# How the lines of a document end

The line breaks that laying out a document adds are always those that the page asks for. So whether the lines of its
text end as asked depends on the texts in it alone, and not on the width: `Doc.Breaks style C d` says that they do
exactly if `C` holds, however the document is laid out, and that there is no carriage return at its end. Without the
latter (`Doc.BreaksIf`) something that does not start with a line feed has to follow (`Doc.Breaks.around`).
-/

namespace LiquidTemplate

namespace PageStyle

theorem eq_of_mem_indentation {style : PageStyle} {columns : Nat} {c : Char}
    (h : c ∈ (style.indentation columns).toList) : c = ' ' ∨ c = '\t' := by
  unfold indentation at h
  split at h
  · rw [String.toList_ofList] at h
    exact (List.mem_append.1 h).symm.imp List.eq_of_mem_replicate List.eq_of_mem_replicate
  · rw [String.toList_ofList] at h
    exact .inl (List.eq_of_mem_replicate h)

theorem notMem_indentation (style : PageStyle) (columns : Nat) {c : Char} (hspace : c ≠ ' ') (htab : c ≠ '\t') :
    c ∉ (style.indentation columns).toList :=
  fun h => (eq_of_mem_indentation h).elim hspace htab

theorem breaksAs_newLine (style : PageStyle) (columns : Nat) :
    Text.BreaksAs style.lineBreak (style.newLine columns).toList := by
  rw [newLine, String.toList_append, Text.breaksAs_append_iff (.inl (Text.endsClean_lineBreak _))]
  exact ⟨Text.breaksAs_lineBreak _, Text.breaksAs_of_notMem (style.notMem_indentation _ (by decide) (by decide))⟩

theorem endsClean_newLine (style : PageStyle) (columns : Nat) : Text.EndsClean (style.newLine columns).toList := by
  rw [newLine, String.toList_append]
  exact (Text.endsClean_lineBreak _).append
    (Text.endsClean_of_notMem (style.notMem_indentation _ (by decide) (by decide)))

end PageStyle

namespace Doc

/-- However a document is laid out, its lines end as asked exactly if `C` holds. -/
def BreaksIf (style : PageStyle) (C : Prop) (d : Doc) : Prop :=
  ∀ indent flat s, d.Layout style indent flat s → (Text.BreaksAs style.lineBreak s.toList ↔ C)

/-- However a document is laid out, its lines end as asked exactly if `C` holds, and there is no carriage return at its
end. -/
structure Breaks (style : PageStyle) (C : Prop) (d : Doc) : Prop where
  breaks : d.BreaksIf style C
  ends : ∀ indent flat s, d.Layout style indent flat s → Text.EndsClean s.toList

variable {style : PageStyle} {C D E : Prop} {a b d : Doc}

theorem Breaks.congr (h : d.Breaks style C) (hiff : C ↔ D) : d.Breaks style D :=
  ⟨fun indent flat s hs => (h.breaks indent flat s hs).trans hiff, h.ends⟩

/-! ## Texts and line breaks -/

theorem breaks_of_layout (text : Nat → Bool → String) (hlayout : ∀ indent flat s, d.Layout style indent flat s →
      s = text indent flat)
    (hbreaks : ∀ indent flat, Text.BreaksAs style.lineBreak (text indent flat).toList ↔ C)
    (hends : ∀ indent flat, Text.EndsClean (text indent flat).toList) : d.Breaks style C := by
  refine ⟨fun indent flat s hs => ?_, fun indent flat s hs => ?_⟩
  · rw [hlayout indent flat s hs]
    exact hbreaks indent flat
  · rw [hlayout indent flat s hs]
    exact hends indent flat

theorem breaks_text (style : PageStyle) {t : String} (h : Text.EndsClean t.toList) :
    (Doc.text t).Breaks style (Text.BreaksAs style.lineBreak t.toList) :=
  breaks_of_layout (fun _ _ => t) (fun _ _ _ => layout_text.1) (fun _ _ => .rfl) fun _ _ => h

theorem breaks_line_text (style : PageStyle) {t : String} (hline : '\n' ∉ t.toList) (hends : Text.EndsClean t.toList) :
    (Doc.text t).Breaks style True :=
  (breaks_text style hends).congr (iff_true_intro (Text.breaksAs_of_notMem hline))

theorem breaks_nil (style : PageStyle) : Doc.nil.Breaks style True :=
  breaks_of_layout (fun _ _ => "") (fun _ _ _ => layout_nil.1)
    (fun _ _ => iff_true_intro (Text.breaksAs_of_notMem (by simp))) fun _ _ => Text.endsClean_nil

theorem breaks_hardLine (style : PageStyle) : Doc.hardLine.Breaks style True :=
  breaks_of_layout (fun indent _ => style.newLine indent) (fun _ _ _ => layout_hardLine.1)
    (fun indent _ => iff_true_intro (style.breaksAs_newLine indent)) fun indent _ => style.endsClean_newLine indent

theorem breaks_emptyLine (style : PageStyle) : Doc.emptyLine.Breaks style True :=
  breaks_of_layout (fun _ _ => style.lineBreak.text) (fun _ _ _ => layout_emptyLine.1)
    (fun _ _ => iff_true_intro (Text.breaksAs_lineBreak _)) fun _ _ => Text.endsClean_lineBreak _

theorem breaks_line (style : PageStyle) (n : Nat) : (Doc.line n).Breaks style True := by
  refine breaks_of_layout (fun indent flat =>
    if flat then String.ofList (List.replicate n ' ') else style.newLine indent) (fun _ _ _ => layout_line.1) ?_ ?_
  · intro indent flat
    cases flat with
    | true => exact iff_true_intro (Text.breaksAs_of_notMem (by simp))
    | false => exact iff_true_intro (style.breaksAs_newLine indent)
  · intro indent flat
    cases flat with
    | true => exact Text.endsClean_of_notMem (by simp)
    | false => exact style.endsClean_newLine indent

/-! ## Composition -/

theorem Breaks.append_if (ha : a.Breaks style C) (hb : b.BreaksIf style D) : (a ++ b).BreaksIf style (C ∧ D) := by
  intro indent flat s hs
  obtain ⟨t, u, rfl, ht, hu⟩ := layout_append.1 hs
  rw [String.toList_append, Text.breaksAs_append_iff (.inl (ha.ends indent flat t ht)), ha.breaks indent flat t ht,
    hb indent flat u hu]

theorem Breaks.append (ha : a.Breaks style C) (hb : b.Breaks style D) : (a ++ b).Breaks style (C ∧ D) := by
  refine ⟨ha.append_if hb.breaks, fun indent flat s hs => ?_⟩
  obtain ⟨t, u, rfl, ht, hu⟩ := layout_append.1 hs
  rw [String.toList_append]
  exact (ha.ends indent flat t ht).append (hb.ends indent flat u hu)

theorem Breaks.left (ha : a.Breaks style C) (hb : b.Breaks style True) : (a ++ b).Breaks style C :=
  (ha.append hb).congr (and_iff_left trivial)

theorem Breaks.right (hb : b.Breaks style C) (ha : a.Breaks style True) : (a ++ b).Breaks style C :=
  (ha.append hb).congr (and_iff_right trivial)

theorem Breaks.group (h : d.Breaks style C) : (Doc.group d).Breaks style C := by
  refine ⟨fun indent flat s hs => ?_, fun indent flat s hs => ?_⟩ <;> obtain ⟨inner, -, hs⟩ := layout_group.1 hs
  · exact h.breaks indent inner s hs
  · exact h.ends indent inner s hs

theorem Breaks.nest (h : d.Breaks style C) (columns : Nat) : (Doc.nest columns d).Breaks style C :=
  ⟨fun _ flat s hs => h.breaks _ flat s (layout_nest.1 hs), fun _ flat s hs => h.ends _ flat s (layout_nest.1 hs)⟩

theorem Breaks.choice (ha : a.Breaks style C) (hb : b.Breaks style C) : (Doc.choice a b).Breaks style C := by
  refine ⟨fun indent flat s hs => ?_, fun indent flat s hs => ?_⟩ <;> have hs := layout_choice.1 hs <;> cases flat
  · exact hb.breaks indent false s hs
  · exact ha.breaks indent true s hs
  · exact hb.ends indent false s hs
  · exact ha.ends indent true s hs

/-- A document starts with a character that is no line feed. -/
def StartsInLine (d : Doc) : Prop :=
  ∃ t, d.Starts (.text t) ∧ ∃ x w, t.toList = x :: w ∧ x ≠ '\n'

/-- **What stands between two documents** may end with a carriage return if no line feed follows it. -/
theorem Breaks.around (ha : a.Breaks style C) (hd : d.BreaksIf style D) (hb : b.Breaks style E)
    (hstart : b.StartsInLine) :
    (a ++ d ++ b).Breaks style (C ∧ D ∧ E) := by
  have hsplit {indent flat s} (hs : (a ++ d ++ b).Layout style indent flat s) : ∃ t u, s = t ++ u ∧
      (a ++ d).Layout style indent flat t ∧ b.Layout style indent flat u ∧ ∃ x w, u.toList = x :: w ∧ x ≠ '\n' := by
    obtain ⟨t, u, rfl, ht, hu⟩ := layout_append.1 hs
    obtain ⟨v, hv, x, w, hx, hfeed⟩ := hstart
    obtain ⟨_, v', u', rfl, hv'⟩ := hv.layout hu
    rw [layout_text.1 hv'] at hu ⊢
    exact ⟨t, v ++ u', rfl, ht, hu, x, w ++ u'.toList, by simp [hx], hfeed⟩
  refine ⟨fun indent flat s hs => ?_, fun indent flat s hs => ?_⟩ <;>
    obtain ⟨t, u, rfl, ht, hu, x, w, hx, hfeed⟩ := hsplit hs
  · rw [String.toList_append, Text.breaksAs_append_iff (.inr (by simpa [hx] using hfeed)),
      (ha.append_if hd) indent flat t ht, hb.breaks indent flat u hu, and_assoc]
  · rw [String.toList_append]
    exact (hb.ends indent flat u hu).of_ne_nil (by simp [hx]) _

/-- The lines of what is rendered end as asked exactly if `C` holds. -/
theorem Breaks.render (h : d.Breaks style C) : Text.BreaksAs style.lineBreak (d.render style).toList ↔ C := by
  obtain ⟨s, hs, hout⟩ := d.renderOn_layout style 0 false (fun _ => true) {}
  rw [Doc.render, hout]
  simpa using h.breaks 0 false s hs

end Doc

end LiquidTemplate
