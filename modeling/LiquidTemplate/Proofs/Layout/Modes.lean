import LiquidTemplate.Layout.Render

/-!
# Flat and broken groups

What a document may be laid out as if each group is free to be flat or broken: `Doc.Layout` fixes nothing but
that lines and choices follow the group around them. Rendering is one such layout (`Doc.renderOn_layout`), so
what holds of every layout holds at every width. `Doc.Contains` follows a part of a document to the place
where its text is written (`Doc.Contains.renderOn`).
-/

namespace LiquidTemplate

def PageStyle.newLine (style : PageStyle) (indent : Nat) : String :=
  style.lineBreak.text ++ style.indentation indent

namespace Doc

/-! ## Layouts -/

/-- A text that a document may be laid out as, at an indentation and in a group that is flat or broken. -/
inductive Layout (style : PageStyle) : (indent : Nat) → (flat : Bool) → Doc → String → Prop where
  | nil {indent : Nat} {flat : Bool} : Layout style indent flat .nil ""
  | text {indent : Nat} {flat : Bool} {s : String} : Layout style indent flat (.text s) s
  | hardLine {indent : Nat} {flat : Bool} : Layout style indent flat .hardLine (style.newLine indent)
  | emptyLine {indent : Nat} {flat : Bool} : Layout style indent flat .emptyLine style.lineBreak.text
  | spaces {indent n : Nat} : Layout style indent true (.line n) (String.ofList (List.replicate n ' '))
  | line {indent n : Nat} : Layout style indent false (.line n) (style.newLine indent)
  | append {indent : Nat} {flat : Bool} {a b : Doc} {s t : String} (first : Layout style indent flat a s)
      (second : Layout style indent flat b t) : Layout style indent flat (.append a b) (s ++ t)
  /-- A group inside a flat one is flat. -/
  | group {indent : Nat} {flat inner : Bool} {d : Doc} {s : String} (mode : flat = true → inner = true)
      (inside : Layout style indent inner d s) : Layout style indent flat (.group d) s
  | nest {indent columns : Nat} {flat : Bool} {d : Doc} {s : String}
      (inside : Layout style (indent + columns) flat d s) : Layout style indent flat (.nest columns d) s
  | choiceFlat {indent : Nat} {a b : Doc} {s : String} (inside : Layout style indent true a s) :
      Layout style indent true (.choice a b) s
  | choiceBroken {indent : Nat} {a b : Doc} {s : String} (inside : Layout style indent false b s) :
      Layout style indent false (.choice a b) s

variable {style : PageStyle} {indent : Nat} {flat : Bool} {s : String}

theorem layout_nil : Layout style indent flat .nil s ↔ s = "" :=
  ⟨fun h => by cases h; rfl, fun h => h ▸ .nil⟩

theorem layout_text {t : String} : Layout style indent flat (.text t) s ↔ s = t :=
  ⟨fun h => by cases h; rfl, fun h => h ▸ .text⟩

theorem layout_hardLine : Layout style indent flat .hardLine s ↔ s = style.newLine indent :=
  ⟨fun h => by cases h; rfl, fun h => h ▸ .hardLine⟩

theorem layout_emptyLine : Layout style indent flat .emptyLine s ↔ s = style.lineBreak.text :=
  ⟨fun h => by cases h; rfl, fun h => h ▸ .emptyLine⟩

theorem layout_line {n : Nat} : Layout style indent flat (.line n) s ↔
    s = if flat then String.ofList (List.replicate n ' ') else style.newLine indent := by
  constructor
  · intro h
    cases h <;> rfl
  · rintro rfl
    cases flat
    · exact .line
    · exact .spaces

theorem layout_append {a b : Doc} : Layout style indent flat (a ++ b) s ↔
    ∃ t u, s = t ++ u ∧ Layout style indent flat a t ∧ Layout style indent flat b u := by
  constructor
  · intro h
    cases h with
    | append first second => exact ⟨_, _, rfl, first, second⟩
  · rintro ⟨t, u, rfl, first, second⟩
    exact .append first second

theorem layout_nest {columns : Nat} {d : Doc} :
    Layout style indent flat (.nest columns d) s ↔ Layout style (indent + columns) flat d s :=
  ⟨fun h => by cases h; assumption, .nest⟩

theorem layout_group {d : Doc} : Layout style indent flat (.group d) s ↔
    ∃ inner : Bool, (flat = true → inner = true) ∧ Layout style indent inner d s := by
  constructor
  · intro h
    cases h with
    | group mode inside => exact ⟨_, mode, inside⟩
  · rintro ⟨inner, mode, inside⟩
    exact .group mode inside

theorem layout_choice {a b : Doc} : Layout style indent flat (.choice a b) s ↔
    Layout style indent flat (if flat then a else b) s := by
  constructor
  · intro h
    cases h <;> assumption
  · intro h
    cases flat
    · exact .choiceBroken h
    · exact .choiceFlat h

/-- **Rendering is a layout**: it adds to the page one of the texts that the document may be laid out as. -/
theorem renderOn_layout (d : Doc) (style : PageStyle) (indent : Nat) (flat : Bool) (rest : Nat → Bool)
    (p : Page) : ∃ s, d.Layout style indent flat s ∧ (d.renderOn style indent flat rest p).out = p.out ++ s := by
  induction d generalizing indent flat rest p with
  | nil => exact ⟨"", .nil, by simp [renderOn]⟩
  | text s => exact ⟨s, .text, rfl⟩
  | hardLine => exact ⟨_, .hardLine, String.append_assoc⟩
  | emptyLine => exact ⟨_, .emptyLine, rfl⟩
  | line n =>
    cases flat with
    | false => exact ⟨_, .line, String.append_assoc⟩
    | true => exact ⟨_, .spaces, rfl⟩
  | append a b iha ihb =>
    obtain ⟨s, hs, houts⟩ := iha indent flat (b.fits style.width flat rest) p
    obtain ⟨t, ht, houtt⟩ := ihb indent flat rest (a.renderOn style indent flat (b.fits style.width flat rest) p)
    refine ⟨s ++ t, .append hs ht, ?_⟩
    rw [renderOn, houtt, houts, String.append_assoc]
  | group d ih =>
    cases flat with
    | false =>
      obtain ⟨s, hs, hout⟩ := ih indent (p.column ≤ style.width && d.fits style.width true rest p.column) rest p
      exact ⟨s, .group (by simp) hs, hout⟩
    | true =>
      obtain ⟨s, hs, hout⟩ := ih indent true rest p
      exact ⟨s, .group (fun _ => rfl) hs, hout⟩
  | nest columns d ih =>
    obtain ⟨s, hs, hout⟩ := ih (indent + columns) flat rest p
    exact ⟨s, .nest hs, hout⟩
  | choice a b iha ihb =>
    cases flat with
    | false =>
      obtain ⟨s, hs, hout⟩ := ihb indent false rest p
      exact ⟨s, .choiceBroken hs, hout⟩
    | true =>
      obtain ⟨s, hs, hout⟩ := iha indent true rest p
      exact ⟨s, .choiceFlat hs, hout⟩

/-! ## Parts of a document -/

/-- A document is a part of another one, and no choice decides whether it is laid out. -/
inductive Contains : Doc → Doc → Prop where
  | refl {d : Doc} : Contains d d
  | left {a b e : Doc} (h : Contains a e) : Contains (.append a b) e
  | right {a b e : Doc} (h : Contains b e) : Contains (.append a b) e
  | group {d e : Doc} (h : Contains d e) : Contains (.group d) e
  | nest {columns : Nat} {d e : Doc} (h : Contains d e) : Contains (.nest columns d) e

theorem Contains.trans {d e f : Doc} (h : d.Contains e) (h' : e.Contains f) : d.Contains f := by
  induction h with
  | refl => exact h'
  | left _ ih => exact .left (ih h')
  | right _ ih => exact .right (ih h')
  | group _ ih => exact .group (ih h')
  | nest _ ih => exact .nest (ih h')

/-- The text of a part stands in the text of the whole, at the place where rendering comes to the part. -/
theorem Contains.renderOn {d e : Doc} (h : d.Contains e) (style : PageStyle) (indent : Nat) (flat : Bool)
    (rest : Nat → Bool) (p : Page) : ∃ (indent' : Nat) (flat' : Bool) (rest' : Nat → Bool) (p' : Page) (after : String),
      (d.renderOn style indent flat rest p).out = (e.renderOn style indent' flat' rest' p').out ++ after := by
  induction h generalizing indent flat rest p with
  | refl => exact ⟨indent, flat, rest, p, "", by simp⟩
  | @left a b e _ ih =>
    obtain ⟨i, f, r, q, after, hout⟩ := ih indent flat (b.fits style.width flat rest) p
    obtain ⟨s, -, hs⟩ :=
      b.renderOn_layout style indent flat rest (a.renderOn style indent flat (b.fits style.width flat rest) p)
    refine ⟨i, f, r, q, after ++ s, ?_⟩
    rw [Doc.renderOn, hs, hout, String.append_assoc]
  | right _ ih => exact ih indent flat rest _
  | group _ ih =>
    cases flat with
    | false => exact ih indent _ rest p
    | true => exact ih indent true rest p
  | nest _ ih => exact ih _ flat rest p

/-! ## Where a document starts -/

inductive Starts : Doc → Doc → Prop where
  | refl {d : Doc} : Starts d d
  | left {a b e : Doc} (h : Starts a e) : Starts (a ++ b) e
  | group {d e : Doc} (h : Starts d e) : Starts (.group d) e

theorem Starts.layout {d e : Doc} (h : d.Starts e) (hs : d.Layout style indent flat s) :
    ∃ flat' t u, s = t ++ u ∧ e.Layout style indent flat' t := by
  induction h generalizing flat s with
  | refl => exact ⟨flat, s, "", by simp, hs⟩
  | left _ ih =>
    obtain ⟨t, u, rfl, ht, -⟩ := layout_append.1 hs
    obtain ⟨flat', v, w, rfl, hv⟩ := ih ht
    exact ⟨flat', v, w ++ u, String.append_assoc, hv⟩
  | group _ ih =>
    obtain ⟨inner, -, hs⟩ := layout_group.1 hs
    exact ih hs

end Doc

end LiquidTemplate
