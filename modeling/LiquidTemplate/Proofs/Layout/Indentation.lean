import LiquidTemplate.Layout.Render

/-!
# Bounded indentation

`Doc.indentation` is the deepest indentation inside of a document. Rendering can be watched: `Doc.renderOn?` gives up
where a line would be indented by more than a limit, or by levels of no width. As long as the deepest indentation is
within the limit, it gives the same page as rendering does (`Doc.render?_eq`).
-/

namespace LiquidTemplate.Doc

/-! ## Deepest indentation -/

/-- The deepest indentation inside of a document, however its groups are laid out. -/
def indentation : Doc → Nat
  | .append a b | .choice a b => max a.indentation b.indentation
  | .group d => d.indentation
  | .nest columns d => columns + d.indentation
  | .nil | .text _ | .hardLine | .emptyLine | .line _ => 0

@[simp] theorem indentation_nil : nil.indentation = 0 := rfl

@[simp] theorem indentation_text (s : String) : (text s).indentation = 0 := rfl

@[simp] theorem indentation_hardLine : hardLine.indentation = 0 := rfl

@[simp] theorem indentation_emptyLine : emptyLine.indentation = 0 := rfl

@[simp] theorem indentation_line (spaces : Nat) : (line spaces).indentation = 0 := rfl

@[simp] theorem indentation_append (a b : Doc) : (a ++ b).indentation = max a.indentation b.indentation := rfl

@[simp] theorem indentation_choice (a b : Doc) : (choice a b).indentation = max a.indentation b.indentation := rfl

@[simp] theorem indentation_group (d : Doc) : (group d).indentation = d.indentation := rfl

@[simp] theorem indentation_nest (columns : Nat) (d : Doc) :
    (nest columns d).indentation = columns + d.indentation := rfl

@[simp] theorem indentation_softLine : softLine.indentation = 0 := rfl

@[simp] theorem indentation_blankLine : blankLine.indentation = 0 := rfl

theorem indentation_concat {ds : List Doc} (h : ∀ d ∈ ds, d.indentation = 0) : (concat ds).indentation = 0 := by
  induction ds with
  | nil => rfl
  | cons d ds ih =>
    obtain ⟨hd, hds⟩ := List.forall_mem_cons.1 h
    rw [concat, indentation_append, hd, ih hds, Nat.max_self]

theorem indentation_separated {separator : Doc} (hseparator : separator.indentation = 0) {ds : List Doc}
    (h : ∀ d ∈ ds, d.indentation = 0) : (separated separator ds).indentation = 0 := by
  induction ds with
  | nil => rfl
  | cons d ds ih =>
    obtain ⟨hd, hds⟩ := List.forall_mem_cons.1 h
    cases ds with
    | nil => exact hd
    | cons e es =>
      rw [separated, indentation_append, indentation_append, hd, hseparator, ih hds, Nat.max_self, Nat.max_self]
      exact nofun

/-! ## Rendering within a limit -/

/-- Write a document as `renderOn` does, as long as no indentation is beyond the limit. -/
def renderOn? (limit : Nat) (style : PageStyle) :
    Doc → (indent : Nat) → (flat : Bool) → (rest : Nat → Bool) → Page → Option Page
  | .append a b, indent, flat, rest, p => do
    b.renderOn? limit style indent flat rest (← a.renderOn? limit style indent flat (b.fits style.width flat rest) p)
  | .group d, indent, flat, rest, p =>
    if flat then d.renderOn? limit style indent true rest p
    else d.renderOn? limit style indent (p.column ≤ style.width && d.fits style.width true rest p.column) rest p
  | .nest columns d, indent, flat, rest, p =>
    if indent + columns ≤ limit then d.renderOn? limit style (indent + columns) flat rest p else none
  | .choice a b, indent, flat, rest, p =>
    if flat then a.renderOn? limit style indent flat rest p else b.renderOn? limit style indent flat rest p
  | d, indent, flat, rest, p => some (d.renderOn style indent flat rest p)

/-- The text of a document, as long as no indentation is beyond the limit and its levels have a width. -/
def render? (limit : Nat) (style : PageStyle) (d : Doc) : Option String :=
  if style.indentWidth = 0 then none
  else (d.renderOn? limit style 0 false (fun _ => true) {}).map Page.out

variable {limit : Nat} {style : PageStyle}

theorem renderOn?_eq (d : Doc) {indent : Nat} (h : indent + d.indentation ≤ limit) (flat : Bool) (rest : Nat → Bool)
    (p : Page) : d.renderOn? limit style indent flat rest p = some (d.renderOn style indent flat rest p) := by
  induction d generalizing indent flat rest p with
  | nil | text | hardLine | emptyLine | line => rfl
  | append a b iha ihb =>
    rw [indentation] at h
    have ha : indent + a.indentation ≤ limit := by omega
    have hb : indent + b.indentation ≤ limit := by omega
    rw [renderOn?, iha ha, Option.bind_eq_bind, Option.bind_some, ihb hb, renderOn]
  | group d ih =>
    rw [renderOn?, renderOn]
    split
    · exact ih h ..
    · exact ih h ..
  | nest columns d ih =>
    rw [indentation] at h
    rw [renderOn?, if_pos (by omega), renderOn]
    exact ih (by omega) ..
  | choice a b iha ihb =>
    rw [indentation] at h
    rw [renderOn?, renderOn]
    split
    · exact iha (by omega) ..
    · exact ihb (by omega) ..

/-- **Within the limit, nothing is in the way of rendering.** -/
theorem render?_eq {d : Doc} (hstyle : 0 < style.indentWidth) (h : d.indentation ≤ limit) :
    d.render? limit style = some (d.render style) := by
  rw [render?, if_neg (Nat.ne_of_gt hstyle), renderOn?_eq d (by omega), render, Option.map_some]

end LiquidTemplate.Doc
