import LiquidTemplate.Proofs.Grammar.Everywhere

/-!
# Bodies that are not read

Comments, front matter, raw elements and raw tags hold texts that are taken from the template as they stand. Their
characters are characters of the template (`subset_of_mem_bodies`).
-/

namespace LiquidTemplate

/-- The texts in a token that are not read any further. -/
def Token.bodies : Token → List String
  | comment _ body | frontMatter _ body => [body]
  | rawElement _ _ _ body _ _ | rawTag _ _ _ body _ _ => [body.text]
  | _ => []

namespace Grammar

open Peg

variable {s : List Char}

/-- The characters that are left all belong to a text. -/
def Within (s : List Char) (c : Cursor) : Prop :=
  c.rest ⊆ s

/-- The bodies of a token are made of characters of a text. -/
def Borrows (s : List Char) (t : Token) : Prop :=
  ∀ body ∈ t.bodies, body.toList ⊆ s

theorem tracks_within (s : List Char) : Tracks (Forward (ρ := Expression)) (Within s) := by
  refine ⟨fun _ h => h, ?_⟩
  rintro c d hc ⟨w, hw, -⟩ x hx
  exact hc (by rw [hw]; exact List.mem_append_right _ hx)

theorem yields_sliceText {α : Type} (p : Grammar α) :
    (Peg.slice p).Yields Forward (Within s) fun x => x.1.text.toList ⊆ s := by
  refine yields_slice (((tracks_within s).yields_true p).imp fun x _ c d hc _ => ?_)
  rw [Cursor.sliceTo, String.toList_ofList]
  exact fun y hy => hc (List.mem_of_mem_take hy)

theorem yields_covered {α : Type} (p : Grammar α) : (covered p).Yields Forward (Within s) fun text => text.toList ⊆ s :=
  yields_map (yields_sliceText p) fun _ h => h

theorem borrows_of_bodies_nil {t : Token} (h : t.bodies = []) : Borrows s t := by
  simp [Borrows, h]

theorem yields_bodiless {α : Type} {p : Grammar α} {f : α → Token} (h : ∀ x, (f x).bodies = []) :
    (f <$> p).Yields Forward (Within s) (Borrows s) :=
  yields_map ((tracks_within s).yields_true p) fun x _ => borrows_of_bodies_nil (h x)

theorem borrows_between {α β γ : Type} {opening : Grammar α} {body : Grammar β} {closing : Grammar γ} {rule : Rule}
    {f : α → Slice → γ → Span → Token} (hf : ∀ x slice y span, (f x slice y span).bodies = [slice.text]) :
    (spanned (f <$> opening <*> atom rule (Prod.fst <$> .slice body) <*> closing)).Yields Forward (Within s)
      (Borrows s) := by
  have htrue {α : Type} (p : Grammar α) := (tracks_within s).yields_true p
  have hbody : (Prod.fst <$> .slice body : Grammar Slice).Yields Forward (Within s)
      fun slice => slice.text.toList ⊆ s :=
    yields_map (yields_sliceText body) fun _ h => h
  refine yields_spanned (yields_seq (yields_seq (yields_map (htrue _) ?_) (yields_atom hbody)) (htrue _))
  intro x _ slice hslice y _ c d _ _ text htext
  rw [hf, List.mem_singleton] at htext
  rw [htext]
  exact hslice

theorem borrows_within {α β : Type} {opening : Grammar α} {body : Grammar String} {closing : Grammar β}
    {f : String → Span → Token} (hf : ∀ text span, (f text span).bodies = [text])
    (hbody : body.Yields Forward (Within s) fun text => text.toList ⊆ s) :
    (spanned (f <$> (opening *> body <* closing))).Yields Forward (Within s) (Borrows s) := by
  have htracks := tracks_within s
  refine yields_spanned (yields_map (yields_seqLeft (yields_seqRight htracks _ hbody) htracks _) ?_)
  intro body hbody c d _ _ text htext
  rw [hf, List.mem_singleton] at htext
  rw [htext]
  exact hbody

theorem bodies_ofOpening (span : Span) (name attributes : List Token) (slash : Bool) :
    (Token.ofOpening span name attributes slash).bodies = [] := by
  unfold Token.ofOpening
  split
  · rfl
  · split
    · split <;> rfl
    · rfl

theorem borrows_html : html.Yields Forward (Within s) (Borrows s) := by
  have htrue {α : Type} (p : Grammar α) := (tracks_within s).yields_true p
  refine yields_orElse (yields_named (borrows_within (fun _ _ => rfl) (yields_atom (yields_covered _))))
    (yields_orElse ?_ (yields_orElse (yields_named (borrows_between fun _ _ _ _ => rfl)) (yields_orElse ?_ ?_)))
  · exact yields_named (yields_spanned (yields_map (htrue _) fun _ _ _ _ _ _ => borrows_of_bodies_nil rfl))
  · exact yields_named (yields_spanned (yields_map (htrue _) fun _ _ _ _ _ _ => borrows_of_bodies_nil rfl))
  · refine yields_named (yields_spanned (yields_seq (yields_seq (yields_map (htrue _) ?_) (htrue _)) (htrue _)))
    exact fun _ _ _ _ _ _ _ _ _ _ => borrows_of_bodies_nil (bodies_ofOpening _ _ _ _)

theorem borrows_node : node.Yields Forward (Within s) (Borrows s) := by
  refine yields_orElse (yields_orElse ?_ ?_) (yields_orElse borrows_html ?_)
  · refine yields_orElse (yields_named (borrows_between fun _ _ _ _ => rfl)) (yields_orElse ?_ (yields_orElse ?_ ?_))
    all_goals exact yields_named (yields_bodiless fun _ => rfl)
  · exact yields_named (yields_bodiless fun _ => rfl)
  · exact yields_atom (yields_bodiless fun _ => rfl)

theorem borrows_frontMatter : frontMatter.Yields Forward (Within s) (Borrows s) :=
  yields_named (borrows_within (fun _ _ => rfl) (yields_named (yields_covered _)))

theorem borrows_document : document.Yields Forward (Within s) fun ts => ∀ t ∈ ts, Borrows s t := by
  have htracks := tracks_within s
  have hfront := yields_seqLeft (yields_seqRight htracks blanks (yields_opt borrows_frontMatter)) htracks blanks
  have hnodes := yields_many (yields_seqLeft borrows_node htracks blanks)
  refine yields_named (yields_seq (yields_map hfront ?_) (yields_seqLeft hnodes htracks _))
  intro front hfront nodes hnodes t ht
  rcases List.mem_append.1 ht with ht | ht
  · exact hfront t (Option.mem_toList.1 ht)
  · exact hnodes t ht

end Grammar

/-- **The bodies of the tokens of a template are made of its characters.** -/
theorem subset_of_mem_bodies {source : String} {tokens : List Token} (h : Token.ofSource source = .ok tokens) :
    ∀ t ∈ tokens, ∀ body ∈ t.bodies, body.toList ⊆ source.toList := by
  unfold Token.ofSource at h
  split at h
  next ts d a hrun =>
    cases h
    exact (Grammar.borrows_document.of_run (Peg.forward_readNested _) hrun (List.Subset.refl _)).1
  · cases h

end LiquidTemplate
