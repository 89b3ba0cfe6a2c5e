import LiquidTemplate.Proofs.Format.Broken

/-!
# Attribute lists in a formatted template

The items of an attribute list are printed after the name of the element, each after the same gap, a space or a line
break (`layout_printAttributeItems`). The gap does not depend on what stands between the items in the source. So a
Liquid tag right after an attribute, whose text goes on with the name or the value of that attribute, is taken apart
from it (`format_attributes`).
-/

namespace LiquidTemplate

/-! ## Items -/

/-- The text of an item of an attribute list after another one. -/
def Node.itemText (ctx : PrintContext) (style : PageStyle) (prev : Option (Node Facts)) (n : Node Facts) : String :=
  if n.isAttribute then
    style.lineBreak.text.intercalate
      (Text.rawLines (if isIgnored ctx prev then Text.slice ctx.source n.span else n.inline ctx none))
  else n.inline ctx none

def itemTexts (ctx : PrintContext) (style : PageStyle) : Option (Node Facts) → List (Node Facts) → List String
  | _, [] => []
  | prev, n :: ns => n.itemText ctx style prev :: itemTexts ctx style (some n) ns

/-- What stands before each item. -/
def AttributeLayout.gap (style : PageStyle) (indent : Nat) (flat : Bool) : AttributeLayout → String
  | .fill => if flat then " " else style.newLine indent
  | .onePerLine => style.newLine indent
  | .singleLine => " "

section

variable {ctx : PrintContext} {style : PageStyle} {indent : Nat} {flat : Bool} {s : String}

theorem layout_separator {layout : AttributeLayout} (h : layout.separator.Layout style indent flat s) :
    s = layout.gap style indent flat := by
  cases layout with
  | fill =>
    have hs := Doc.layout_line.1 h
    cases flat <;> exact hs
  | onePerLine => exact Doc.layout_hardLine.1 h
  | singleLine => exact Doc.layout_text.1 h

/-- **All items stand after the same gap**, whatever stands between them in the source. -/
theorem layout_printAttributeItems {layout : AttributeLayout} {prev : Option (Node Facts)} {ns : List (Node Facts)}
    (h : (printAttributeItems ctx layout prev ns).Layout style indent flat s) :
    s = String.join ((itemTexts ctx style prev ns).map (layout.gap style indent flat ++ ·)) := by
  induction ns generalizing prev s with
  | nil => exact Doc.layout_nil.1 h
  | cons n ns ih =>
    rw [printAttributeItems] at h
    obtain ⟨t, u, rfl, ht, hu⟩ := Doc.layout_append.1 h
    obtain ⟨v, w, rfl, hv, hw⟩ := Doc.layout_append.1 ht
    have hitem : w = n.itemText ctx style prev := by
      unfold Node.itemText
      split at hw
      next hattribute => rw [if_pos hattribute, layout_lines hw]
      next hattribute => rw [if_neg hattribute, Doc.layout_text.1 hw]
    rw [layout_separator hv, hitem, ih hu]
    simp [itemTexts]

/-! ## Elements -/

/-- The name that an element is printed with. -/
def Node.printedName? (ctx : PrintContext) (n : Node Facts) : Option String :=
  match n.kind with
  | .element _ _ | .selfClosing => some (printName ctx n.name)
  | .voidElement name | .rawElement name _ _ _ => some (Text.lower name)
  | _ => none

theorem starts_printElement (opening : Doc × AttributeLayout) (name : String) (forced : Bool) (container : Facts)
    (children : List (Node Facts)) (inner : Doc) :
    (printElement ctx opening name forced container children inner).Starts opening.1 := by
  unfold printElement
  split
  · refine .group (.left (.left (.group ?_)))
    split
    · exact .refl
    · exact .left (.left .refl)
  · exact .group (.left (.left (.left (.group (.left (.left .refl))))))

theorem starts_printNode {prev : Option (Node Facts)} {n : Node Facts} {name : String}
    (hname : n.printedName? ctx = some name) (hignored : isIgnored ctx prev = false) (formatter : CodeFormatter)
    (level : Nat) (session : Session) :
    (((printNode ctx formatter level prev n).run session).1).Starts (printOpening ctx name n.attributes).1 := by
  obtain ⟨info, span, kind, fragments, attributes, value, children⟩ := n
  cases kind with
  | element opener closer =>
    cases hname
    unfold printNode
    simp only [hignored, Bool.false_eq_true, if_false]
    split
    · exact .left (.left (.left (.group (.left (.left .refl)))))
    · exact starts_printElement _ _ _ _ _ _
  | voidElement elementName =>
    cases hname
    unfold printNode
    simp only [hignored, Bool.false_eq_true, if_false]
    exact .group (.left (.left .refl))
  | selfClosing =>
    cases hname
    unfold printNode
    simp only [hignored, Bool.false_eq_true, if_false]
    exact .group (.left (.left .refl))
  | rawElement elementName body opener closer =>
    cases hname
    unfold printNode
    simp only [hignored, Bool.false_eq_true, if_false]
    exact .left (.left (.group (.left (.left .refl))))
  | _ => cases hname

theorem layout_printOpening {name : String} {attributes : List (Node Facts)}
    (h : (printOpening ctx name attributes).1.Layout style indent flat s) : ∃ gap, (gap = " " ∨ style.IsNewLine gap) ∧
      s = "<" ++ name ++ String.join ((itemTexts ctx style none attributes).map (gap ++ ·)) := by
  obtain ⟨t, u, rfl, ht, hu⟩ := Doc.layout_append.1 h
  obtain ⟨v, w, rfl, hv, hw⟩ := Doc.layout_append.1 ht
  refine ⟨(AttributeLayout.choose ctx.options name attributes.length).gap style (indent + ctx.options.indentWidth) flat,
    ?_, ?_⟩
  · cases AttributeLayout.choose ctx.options name attributes.length with
    | fill => cases flat with
      | true => exact .inl rfl
      | false => exact .inr ⟨_, rfl⟩
    | onePerLine => exact .inr ⟨_, rfl⟩
    | singleLine => exact .inl rfl
  · rw [Doc.layout_text.1 hv, Doc.layout_text.1 hw, layout_printAttributeItems (Doc.layout_nest.1 hu)]

end

/-! ## Formatted templates -/

/-- **The items of an attribute list are always taken apart.** The text of an element in a formatted template starts
with its name and the texts of the items, and there is white space before each of them, the same for all. This does
not depend on the source, so there is white space between two items also where the source has none. -/
theorem format_attributes {o : Options} {formatter : CodeFormatter} {source t : String} {d : Document Unit}
    (hparse : Document.parse source = .ok d) (hfile : d.isIgnored o = false)
    (hformat : (format o formatter source).1 = .ok t) {prev : Option (Node Facts)} {n : Node Facts}
    (hlaid : LaidOut ⟨source.toList, o⟩ (d.annotate o.sensitivity).root prev n)
    (hignored : isIgnored ⟨source.toList, o⟩ prev = false) {name : String}
    (hname : n.printedName? ⟨source.toList, o⟩ = some name) :
    ∃ (level : Nat) (session : Session) (gap after : String), (gap = " " ∨ o.pageStyle.IsNewLine gap) ∧
      (((printNode ⟨source.toList, o⟩ formatter level prev n).run session).1).PrintedAs o.pageStyle t
        ("<" ++ name ++ String.join ((itemTexts ⟨source.toList, o⟩ o.pageStyle none n.attributes).map (gap ++ ·)) ++
          after) := by
  have hpage : t = (((printNode ⟨source.toList, o⟩ formatter 0 none (d.annotate o.sensitivity).root).run {}).1).render
      o.pageStyle := by
    rw [format_eq_ok hparse hfile hformat, Document.print, Document.annotate, source_of_parse hparse]
  obtain ⟨level, session, hcontains⟩ := hlaid.contains formatter {}
  obtain ⟨text, indent, flat, hprinted, hlayout⟩ := hcontains.exists_layout o.pageStyle
  obtain ⟨inner, opening, after, rfl, hopening⟩ :=
    (starts_printNode hname hignored formatter level session).layout hlayout
  obtain ⟨gap, hgap, rfl⟩ := layout_printOpening hopening
  rw [hpage]
  exact ⟨level, session, gap, after, hgap, hprinted⟩

/-- An attribute without marks and a Liquid tag that touch in the source. -/
def areGlued (a b : Node Facts) : Bool :=
  a.span.stop == b.span.start &&
    match a.kind, b.kind with
    | .attr (.quoted _), _ => false
    | .attr _, .tag _ _ _ | .attr _, .block _ _ _ _ => true
    | _, _ => false

/-- The two items of the only node of a document, if they are glued. -/
def gluedItems? (o : Options) (d : Document Unit) : Option (Node Facts × Node Facts) :=
  match (d.annotate o.sensitivity).root.children with
  | [n] =>
    match n.attributes with
    | [a, b] => if areGlued a b && n.printedName? ⟨d.source.toList, o⟩ == some "br" then some (a, b) else none
    | _ => none
  | _ => none

theorem exists_of_gluedItems? {o : Options} {d : Document Unit} {a b : Node Facts}
    (h : gluedItems? o d = some (a, b)) : ∃ n, (d.annotate o.sensitivity).root.children = [n] ∧ n.attributes = [a, b] ∧
      areGlued a b = true ∧ n.printedName? ⟨d.source.toList, o⟩ = some "br" := by
  unfold gluedItems? at h
  split at h
  next n hchildren =>
    split at h
    next a' b' hattributes =>
      obtain ⟨hglued, hpair⟩ := Option.ite_none_right_eq_some.1 h
      cases hpair
      rw [Bool.and_eq_true, beq_iff_eq] at hglued
      exact ⟨n, hchildren, hattributes, hglued⟩
    next => cases h
  next => cases h

/-- A tag that goes on with the name of an attribute, in an element that is printed on one line. -/
theorem attribute_before_tag :
    ∃ (d : Document Unit) (t : String) (n a b : Node Facts) (level : Nat) (session : Session) (gap after : String),
      Document.parse "<br data-\x7b% if a %\x7dx\x7b% endif %\x7d>" = .ok d ∧
      t = "<br data- \x7b% if a %\x7dx\x7b% endif %\x7d>\n" ∧
      LaidOut ⟨d.source.toList, {}⟩ (d.annotate .css).root none n ∧ n.attributes = [a, b] ∧ areGlued a b = true ∧
      (gap = " " ∨ (Options.pageStyle {}).IsNewLine gap) ∧
      (((printNode ⟨d.source.toList, {}⟩ .identity level none n).run session).1).PrintedAs (Options.pageStyle {}) t
        ("<" ++ "br" ++
          String.join ((itemTexts ⟨d.source.toList, {}⟩ (Options.pageStyle {}) none [a, b]).map (gap ++ ·)) ++
          after) := by
  obtain ⟨t, hformat, ht⟩ :=
    @exists_eq_ok _ _ (format {} .identity "<br data-\x7b% if a %\x7dx\x7b% endif %\x7d>").1
      (fun t => t = "<br data- \x7b% if a %\x7dx\x7b% endif %\x7d>\n") (by decide +kernel)
  obtain ⟨d, hparse, hd⟩ :=
    @exists_eq_ok _ _ (Document.parse "<br data-\x7b% if a %\x7dx\x7b% endif %\x7d>")
      (fun d => !d.isIgnored {} && (gluedItems? {} d).isSome) (by decide +kernel)
  simp only [Bool.and_eq_true, Bool.not_eq_true'] at hd
  obtain ⟨hfile, hitems⟩ := hd
  obtain ⟨⟨a, b⟩, hitems⟩ := Option.isSome_iff_exists.1 hitems
  obtain ⟨n, hchildren, hattributes, hglued, hname⟩ := exists_of_gluedItems? hitems
  have hsource := source_of_parse hparse
  have hlaid := @LaidOut.top _ d hparse .css ⟨d.source.toList, {}⟩ [] [] n hchildren
  obtain ⟨level, session, gap, after, hgap, hprinted⟩ :=
    format_attributes (hsource.symm ▸ hparse) hfile (hsource.symm ▸ hformat) hlaid rfl hname
  rw [hattributes] at hprinted
  exact ⟨d, t, n, a, b, level, session, gap, after, hparse, of_decide_eq_true ht, hlaid, hattributes, hglued, hgap,
    hprinted⟩

/-- The name `data-x`, which a tag completes, is printed with a space in it. -/
theorem space_inside_name :
    ∃ (d : Document Unit) (a b : Node Facts),
      Document.parse "<br data-\x7b% if a %\x7dx\x7b% endif %\x7d>" = .ok d ∧ gluedItems? {} d = some (a, b) ∧
      itemTexts ⟨d.source.toList, {}⟩ (Options.pageStyle {}) none [a, b] =
        ["data-", "\x7b% if a %\x7dx\x7b% endif %\x7d"] ∧
      (format {} .identity "<br data-\x7b% if a %\x7dx\x7b% endif %\x7d>").1 =
        .ok "<br data- \x7b% if a %\x7dx\x7b% endif %\x7d>\n" := by
  obtain ⟨t, hformat, ht⟩ :=
    @exists_eq_ok _ _ (format {} .identity "<br data-\x7b% if a %\x7dx\x7b% endif %\x7d>").1
      (fun t => t = "<br data- \x7b% if a %\x7dx\x7b% endif %\x7d>\n") (by decide +kernel)
  obtain ⟨d, hparse, hd⟩ :=
    @exists_eq_ok _ _ (Document.parse "<br data-\x7b% if a %\x7dx\x7b% endif %\x7d>")
      (fun d => (gluedItems? {} d).any fun items =>
        itemTexts ⟨d.source.toList, {}⟩ (Options.pageStyle {}) none [items.1, items.2] =
          ["data-", "\x7b% if a %\x7dx\x7b% endif %\x7d"]) (by decide +kernel)
  cases hitems : gluedItems? {} d with
  | none =>
    rw [hitems] at hd
    cases hd
  | some items =>
    rw [hitems] at hd
    exact ⟨d, items.1, items.2, hparse, hitems, of_decide_eq_true hd, by rw [hformat, of_decide_eq_true ht]⟩

/-- A slash at the end of a name is read as the end of the tag once the space after it is gone, so formatting the
formatted template puts a space before it. -/
theorem slash_joins_bracket :
    (format {} .identity "<br a/ >").1 = .ok "<br a/>\n" ∧ (format {} .identity "<br a/>\n").1 = .ok "<br a />\n" := by
  have heval : (format {} .identity "<br a/ >").1.toOption.any (· == "<br a/>\n") = true ∧
      (format {} .identity "<br a/>\n").1.toOption.any (· == "<br a />\n") = true := by decide +kernel
  obtain ⟨t, hformat, ht⟩ := exists_eq_ok heval.1
  obtain ⟨t', hformat', ht'⟩ := exists_eq_ok heval.2
  exact ⟨by rw [hformat, eq_of_beq ht], by rw [hformat', eq_of_beq ht']⟩

end LiquidTemplate
