import LiquidTemplate.Print.Gap
import LiquidTemplate.Print.Inline
import LiquidTemplate.Proofs.Nesting.Sound

/-!
# Texts cut out of the source

Printing takes some texts from the source by their ranges. The functions of this module do the same as those without
a question mark, except that they give up where a range cannot be cut out. They check more than is needed: a range is
cut out even if the answer is known without it. For printable nodes they never give up
(`Node.inline?_eq`, `Node.isForced?_eq`).
-/

namespace LiquidTemplate

namespace Node

variable {α : Type} {P : Node α → Prop}

theorem forall_preorder {n : Node α} : (∀ m ∈ n.preorder, P m) ↔ P n ∧ (∀ m ∈ preorderOf n.name, P m) ∧
    (∀ m ∈ preorderOf n.attributes, P m) ∧ (∀ m ∈ preorderOf n.value, P m) ∧ ∀ m ∈ preorderOf n.children, P m := by
  obtain ⟨info, span, kind, name, attributes, value, children⟩ := n
  simp only [preorder, List.forall_mem_cons, List.forall_mem_append, and_assoc]

theorem forall_preorderOf_cons {n : Node α} {ns : List (Node α)} :
    (∀ m ∈ preorderOf (n :: ns), P m) ↔ (∀ m ∈ n.preorder, P m) ∧ ∀ m ∈ preorderOf ns, P m := by
  rw [preorderOf, List.forall_mem_append]

theorem forall_preorderOf {ns : List (Node α)} :
    (∀ m ∈ preorderOf ns, P m) ↔ ∀ n ∈ ns, ∀ m ∈ n.preorder, P m := by
  induction ns with
  | nil => exact ⟨nofun, nofun⟩
  | cons n ns ih => rw [forall_preorderOf_cons, List.forall_mem_cons, ih]

end Node

/-! ## Ranges -/

def PrintContext.text? (ctx : PrintContext) (span : Span) : Option String :=
  (Text.slice? ctx.source span).map String.ofList

theorem PrintContext.text?_eq {ctx : PrintContext} {span : Span} (h : (Text.slice? ctx.source span).isSome = true) :
    ctx.text? span = some (Text.slice ctx.source span) := by
  obtain ⟨cs, hcs⟩ := Option.isSome_iff_exists.1 h
  rw [text?, Text.slice, Text.sliceChars, hcs, Option.map_some, Option.getD_some]

theorem Text.slice?_eq {cs : List Char} {span : Span} (h : (slice? cs span).isSome = true) :
    slice? cs span = some (sliceChars cs span) := by
  obtain ⟨text, htext⟩ := Option.isSome_iff_exists.1 h
  rw [sliceChars, htext, Option.getD_some]

def lineFeedBefore? (source : List Char) (offset : Nat) : Option Bool :=
  (Text.takeBytes? source offset).map fun before => (before.reverse.takeWhile Text.isBlank).contains '\n'

def lineFeedAfter? (source : List Char) (offset : Nat) : Option Bool :=
  (Text.dropBytes? source offset).map fun after => (after.takeWhile Text.isBlank).contains '\n'

section

variable {source : List Char} {offset : Nat}

theorem lineFeedBefore?_eq (h : Text.IsBoundary source offset) :
    lineFeedBefore? source offset = some (lineFeedBefore source offset) := by
  obtain ⟨before, hbefore⟩ := Option.isSome_iff_exists.1 h.isSome_takeBytes?
  rw [lineFeedBefore?, lineFeedBefore, hbefore, Option.map_some, Option.getD_some]

theorem lineFeedAfter?_eq (h : Text.IsBoundary source offset) :
    lineFeedAfter? source offset = some (lineFeedAfter source offset) := by
  obtain ⟨after, hafter⟩ := Option.isSome_iff_exists.1 h.isSome_dropBytes?
  rw [lineFeedAfter?, lineFeedAfter, hafter, Option.map_some, Option.getD_some]

end

theorem Node.Printable.isSome_slice? {α : Type} {source : List Char} {n : Node α} (h : n.Printable source) :
    (Text.slice? source n.span).isSome = true :=
  Text.isSome_slice? h.ends.1 h.ends.2 h.le

/-! ## Text on one line -/

namespace Node

variable {α : Type}

mutual

def inline? (ctx : PrintContext) (around : Option Quote) : Node α → Option String
  | ⟨_, span, kind, name, _, value, children⟩ =>
    let q := ctx.stringQuote around
    match kind with
    | .text text => some text
    | .drop _ markup d => some (inlineDrop q markup d)
    | .tag tagName markup opener => some (opener.around (tagHead q tagName markup))
    | .block tagName markup opener closer => do
      let body ← inlineBranches? ctx around opener.span.stop children
      return opener.around (tagHead q tagName markup) ++ body.1 ++
        (match closer with
          | some d => gapText body.2 d.span.start ++ d.around ("end" ++ tagName)
          | none => "")
    | .attr style => do
      let items ← inlineItems? ctx around ((name.head?.map (·.span.start)).getD 0) name
      match style with
      | .bare => return items.1
      | .unquoted => inlineValue? ctx items.1 none value
      | .quoted mark => inlineValue? ctx items.1 (some mark) value
    | _ => ctx.text? span

/-- The value of an attribute after its name. Texts in it are cut out of the source. -/
def inlineValue? (ctx : PrintContext) (nameText : String) (mark : Option Quote) : List (Node α) → Option String
  | [] => some (plainAttribute ctx.options.htmlQuotes nameText "")
  | n :: ns =>
    if (n :: ns).all isText then do
      let _ ← (n :: ns).mapM (ctx.text? ·.span)
      return plainAttribute ctx.options.htmlQuotes nameText (String.join ((n :: ns).map written))
    else do
      let q := mark.getD .double
      let first ← n.inline? ctx (some q)
      let rest ← inlineItems? ctx (some q) n.span.stop ns
      return assignment nameText q (first ++ rest.1)

def inlineItems? (ctx : PrintContext) (around : Option Quote) (stop : Nat) : List (Node α) → Option (String × Nat)
  | [] => some ("", stop)
  | n :: ns => do
    let item ← n.inline? ctx around
    let rest ← inlineItems? ctx around n.span.stop ns
    return (gapText stop n.span.start ++ item ++ rest.1, rest.2)

def inlineBranches? (ctx : PrintContext) (around : Option Quote) (stop : Nat) : List (Node α) → Option (String × Nat)
  | [] => some ("", stop)
  | ⟨info, span, kind, name, attributes, value, children⟩ :: ns => do
    let n : Node α := ⟨info, span, kind, name, attributes, value, children⟩
    let item ← match kind with
      | .branch (some branchName) markup opener => do
        let body ← inlineItems? ctx around opener.span.stop children
        pure (gapText stop opener.span.start ++ opener.around (tagHead (ctx.stringQuote around) branchName markup) ++
          body.1, body.2)
      | .branch none _ _ => inlineItems? ctx around stop children
      | _ => do
        let item ← n.inline? ctx around
        pure (gapText stop span.start ++ item, span.stop)
    let rest ← inlineBranches? ctx around item.2 ns
    return (item.1 ++ rest.1, rest.2)

end

theorem mapM_text?_eq {ctx : PrintContext} {ns : List (Node α)}
    (h : ∀ n ∈ ns, (Text.slice? ctx.source n.span).isSome = true) :
    ns.mapM (ctx.text? ·.span) = some (ns.map fun n => Text.slice ctx.source n.span) := by
  induction ns with
  | nil => rfl
  | cons n ns ih =>
    obtain ⟨hn, hns⟩ := List.forall_mem_cons.1 h
    simp [List.mapM_cons, PrintContext.text?_eq hn, ih hns]

mutual

theorem inline?_eq (ctx : PrintContext) (around : Option Quote) (n : Node α)
    (h : ∀ m ∈ n.preorder, m.Printable ctx.source) : n.inline? ctx around = some (n.inline ctx around) := by
  obtain ⟨hn, hname, -, hvalue, hchildren⟩ := forall_preorder.1 h
  obtain ⟨info, span, kind, name, attributes, value, children⟩ := n
  have htext : ctx.text? span = some (Text.slice ctx.source span) := PrintContext.text?_eq hn.isSome_slice?
  cases kind with
  | block tagName markup opener closer =>
    rw [inline?, inlineBranches?_eq ctx around _ children hchildren]
    rfl
  | attr style =>
    rw [inline?, inlineItems?_eq ctx around _ name hname]
    cases style with
    | bare => rfl
    | unquoted => exact inlineValue?_eq ctx _ none value hvalue
    | quoted mark => exact inlineValue?_eq ctx _ (some mark) value hvalue
  | text | drop | tag => rfl
  | _ => exact htext

theorem inlineValue?_eq (ctx : PrintContext) (nameText : String) (mark : Option Quote) (ns : List (Node α))
    (h : ∀ m ∈ preorderOf ns, m.Printable ctx.source) :
    inlineValue? ctx nameText mark ns = some (inlineValue ctx nameText mark ns) := by
  cases ns with
  | nil => rfl
  | cons n ns =>
    rw [inlineValue?, inlineValue]
    split
    · rw [mapM_text?_eq fun m hm => (forall_preorder.1 (forall_preorderOf.1 h m hm)).1.isSome_slice?]
      rfl
    · obtain ⟨hn, hns⟩ := forall_preorderOf_cons.1 h
      simp only [inline?_eq ctx _ n hn, inlineItems?_eq ctx _ _ ns hns]
      rfl

theorem inlineItems?_eq (ctx : PrintContext) (around : Option Quote) (stop : Nat) (ns : List (Node α))
    (h : ∀ m ∈ preorderOf ns, m.Printable ctx.source) :
    inlineItems? ctx around stop ns = some (inlineItems ctx around stop ns) := by
  cases ns with
  | nil => rfl
  | cons n ns =>
    obtain ⟨hn, hns⟩ := forall_preorderOf_cons.1 h
    rw [inlineItems?, inline?_eq ctx around n hn, inlineItems?_eq ctx around _ ns hns]
    rfl

theorem inlineBranches?_eq (ctx : PrintContext) (around : Option Quote) (stop : Nat) (ns : List (Node α))
    (h : ∀ m ∈ preorderOf ns, m.Printable ctx.source) :
    inlineBranches? ctx around stop ns = some (inlineBranches ctx around stop ns) := by
  cases ns with
  | nil => rfl
  | cons n ns =>
    obtain ⟨hn, hns⟩ := forall_preorderOf_cons.1 h
    obtain ⟨-, -, -, -, hchildren⟩ := forall_preorder.1 hn
    obtain ⟨info, span, kind, name, attributes, value, children⟩ := n
    have hitem := inline?_eq ctx around _ hn
    have hrest (stop : Nat) := inlineBranches?_eq ctx around stop ns hns
    cases kind with
    | branch branchName markup opener =>
      cases branchName with
      | none =>
        rw [inlineBranches?, inlineItems?_eq ctx around _ children hchildren]
        exact congrArg (Option.bind · _) (hrest _)
      | some branchName =>
        rw [inlineBranches?, inlineItems?_eq ctx around _ children hchildren]
        exact congrArg (Option.bind · _) (hrest _)
    | _ =>
      simp only [inlineBranches?, hitem]
      exact congrArg (Option.bind · _) (hrest _)

end

/-! ## Forced containers -/

def keepsOwnLine? (source : List Char) : List (Node Facts) → Option Bool
  | [child] => do
    let before ← lineFeedBefore? source child.span.start
    let after ← lineFeedAfter? source child.span.stop
    return !child.isText && before && (!child.info.trailingMatters || after)
  | _ => some false

def breaksIf? (source : List Char) (n : Node Facts) (forced : Bool) : Option Bool :=
  match n.kind with
  | .element opener closer => do
    let body ← Text.slice? source ⟨opener.stop, closer.start⟩
    return if n.info.keepsLayout then body.contains '\n' else forced
  | .tag _ (.statements _) _ | .block _ (.statements _) _ _ => some true
  | .tag _ markup _ => do
    let written ← Text.slice? source n.span
    return markup.hasPlainLineFeed || (n.info.keepsLayout && written.contains '\n')
  | .block _ markup _ _ => do
    let written ← Text.slice? source n.span
    return markup.hasPlainLineFeed || if n.info.keepsLayout then written.contains '\n' else forced
  | _ => some (n.breaksIf source forced)

mutual

def isForced? (source : List Char) : Node Facts → Option Bool
  | ⟨info, span, kind, name, attributes, value, children⟩ => do
    let n : Node Facts := ⟨info, span, kind, name, attributes, value, children⟩
    if n.isBranched then return n.isDividedCase || (← anyForced? source children)
    else if n.isPageBody then return !children.isEmpty
    else
      let broken ← anyBreaks? source children
      let ownLine ← keepsOwnLine? source children
      return (n.separatesChildren && !children.isEmpty) || anyHardGap source n.separatesChildren children ||
        broken || ownLine

def anyBreaks? (source : List Char) : List (Node Facts) → Option Bool
  | [] => some false
  | n :: ns => do
    let broken ← n.breaksIf? source (← isForced? source n)
    return broken || (← anyBreaks? source ns)

def anyForced? (source : List Char) : List (Node Facts) → Option Bool
  | [] => some false
  | n :: ns => do
    let forced ← isForced? source n
    return forced || (← anyForced? source ns)

end

section

variable {source : List Char} {n : Node Facts} {ns : List (Node Facts)}

theorem keepsOwnLine?_eq (h : ∀ n ∈ ns, n.Printable source) :
    keepsOwnLine? source ns = some (keepsOwnLine source ns) := by
  match ns with
  | [] | _ :: _ :: _ => rfl
  | [child] =>
    have hchild := h child (List.mem_singleton_self _)
    rw [keepsOwnLine?, lineFeedBefore?_eq hchild.ends.1, lineFeedAfter?_eq hchild.ends.2]
    rfl

theorem breaksIf?_eq (h : n.Printable source) (forced : Bool) :
    n.breaksIf? source forced = some (n.breaksIf source forced) := by
  have hwritten := Text.slice?_eq h.isSome_slice?
  unfold breaksIf? breaksIf
  cases hkind : n.kind with
  | element opener closer =>
    have hbody : n.body? = some ⟨opener.stop, closer.start⟩ := by rw [body?, hkind]
    simp only [Text.slice?_eq (h.body _ hbody)]
    rfl
  | tag _ markup _ | block _ markup _ _ => cases markup <;> simp [hwritten]
  | _ => simp

mutual

theorem isForced?_eq (n : Node Facts) (h : ∀ m ∈ n.preorder, m.Printable source) :
    n.isForced? source = some (n.isForced source) := by
  obtain ⟨-, -, -, -, hchildren⟩ := forall_preorder.1 h
  obtain ⟨info, span, kind, name, attributes, value, children⟩ := n
  have hforced := anyForced?_eq children hchildren
  have hbreaks := anyBreaks?_eq children hchildren
  have hline := keepsOwnLine?_eq fun c hc => (forall_preorder.1 (forall_preorderOf.1 hchildren c hc)).1
  rw [isForced?, isForced]
  split
  · rw [hforced]
    rfl
  · split
    · rfl
    · rw [hbreaks, hline]
      rfl

theorem anyBreaks?_eq (ns : List (Node Facts)) (h : ∀ m ∈ preorderOf ns, m.Printable source) :
    anyBreaks? source ns = some (anyBreaks source ns) := by
  cases ns with
  | nil => rfl
  | cons n ns =>
    obtain ⟨hn, hns⟩ := forall_preorderOf_cons.1 h
    rw [anyBreaks?, isForced?_eq n hn, Option.bind_eq_bind, Option.bind_some, breaksIf?_eq (forall_preorder.1 hn).1,
      anyBreaks?_eq ns hns]
    rfl

theorem anyForced?_eq (ns : List (Node Facts)) (h : ∀ m ∈ preorderOf ns, m.Printable source) :
    anyForced? source ns = some (anyForced source ns) := by
  cases ns with
  | nil => rfl
  | cons n ns =>
    obtain ⟨hn, hns⟩ := forall_preorderOf_cons.1 h
    rw [anyForced?, isForced?_eq n hn, anyForced?_eq ns hns]
    rfl

end

end

end Node

end LiquidTemplate
