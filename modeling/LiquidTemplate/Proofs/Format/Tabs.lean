import LiquidTemplate.Format
import LiquidTemplate.Proofs.Layout.Tabs

/-!
# Templates indented by spaces or by tabs

Printing a node does not ask whether lines are indented by spaces or by tabs (`printNode_withTabs`): the layout document
and the requests for embedded code are the same, and the two pages are written in step.
-/

namespace LiquidTemplate

/-- Printing where lines are indented by tabs, or where they are not. -/
def PrintContext.withTabs (tabs : Bool) (ctx : PrintContext) : PrintContext :=
  { ctx with options := { ctx.options with useTabs := tabs } }

variable {ctx : PrintContext} {formatter : CodeFormatter} {tabs : Bool}

/-! ## Text on one line -/

namespace Node

variable {α : Type}

mutual

theorem inline_withTabs (n : Node α) (around : Option Quote) :
    n.inline (ctx.withTabs tabs) around = n.inline ctx around := by
  obtain ⟨info, span, kind, name, attributes, value, children⟩ := n
  cases kind with
  | block tagName markup opener closer =>
    simp only [inline, inlineBranches_withTabs children]
    rfl
  | attr style => cases style <;> simp only [inline, inlineItems_withTabs name, inlineValue_withTabs value]
  | _ => rfl

theorem inlineValue_withTabs (ns : List (Node α)) (nameText : String) (mark : Option Quote) :
    inlineValue (ctx.withTabs tabs) nameText mark ns = inlineValue ctx nameText mark ns := by
  cases ns with
  | nil => rfl
  | cons n ns =>
    simp only [inlineValue, inline_withTabs n, inlineItems_withTabs ns]
    rfl

theorem inlineItems_withTabs (ns : List (Node α)) (around : Option Quote) (stop : Nat) :
    inlineItems (ctx.withTabs tabs) around stop ns = inlineItems ctx around stop ns := by
  cases ns with
  | nil => rfl
  | cons n ns => simp only [inlineItems, inline_withTabs n, inlineItems_withTabs ns]

theorem inlineBranches_withTabs (ns : List (Node α)) (around : Option Quote) (stop : Nat) :
    inlineBranches (ctx.withTabs tabs) around stop ns = inlineBranches ctx around stop ns := by
  cases ns with
  | nil => rfl
  | cons n ns =>
    have hinline := inline_withTabs n around
    obtain ⟨info, span, kind, name, attributes, value, children⟩ := n
    cases kind with
    | branch branchName markup opener =>
      cases branchName with
      | none => simp only [inlineBranches, inlineItems_withTabs children, inlineBranches_withTabs ns]
      | some branchName =>
        simp only [inlineBranches, inlineItems_withTabs children, inlineBranches_withTabs ns]
        rfl
    | _ => simp only [inlineBranches, hinline, inlineBranches_withTabs ns]

end

end Node

/-! ## Nodes -/

theorem printName_withTabs (fragments : List (Node Facts)) :
    printName (ctx.withTabs tabs) fragments = printName ctx fragments := by
  have hname : Node.inlineList (ctx.withTabs tabs) none fragments = Node.inlineList ctx none fragments :=
    congrArg Prod.fst (Node.inlineItems_withTabs fragments none _)
  rw [printName, printName, hname]

theorem printAttributeItems_withTabs (layout : AttributeLayout) (prev : Option (Node Facts)) (ns : List (Node Facts)) :
    printAttributeItems (ctx.withTabs tabs) layout prev ns = printAttributeItems ctx layout prev ns := by
  induction ns generalizing prev with
  | nil => rfl
  | cons n ns ih =>
    simp only [printAttributeItems, Node.inline_withTabs, ih]
    rfl

theorem printOpening_withTabs (name : String) (attributes : List (Node Facts)) :
    printOpening (ctx.withTabs tabs) name attributes = printOpening ctx name attributes := by
  simp only [printOpening, printAttributeItems_withTabs]
  rfl

mutual

/-- **Printing a node does not depend on the kind of indentation.** -/
theorem printNode_withTabs (n : Node Facts) (level : Nat) (prev : Option (Node Facts)) :
    printNode (ctx.withTabs tabs) formatter level prev n = printNode ctx formatter level prev n := by
  have hinline := @Node.inline_withTabs ctx tabs _ n none
  obtain ⟨info, span, kind, name, attributes, value, children⟩ := n
  unfold printNode
  cases kind with
  | document | element | block =>
    simp only [printName_withTabs, printOpening_withTabs, printSiblings_withTabs children,
      printBranches_withTabs children]
    rfl
  | voidElement | selfClosing | rawElement =>
    simp only [printName_withTabs, printOpening_withTabs]
    rfl
  | attr style =>
    simp only [hinline]
    rfl
  | _ => rfl

theorem printSiblings_withTabs (ns : List (Node Facts)) (level : Nat) (separates : Bool) (prev : Option (Node Facts)) :
    printSiblings (ctx.withTabs tabs) formatter level separates prev ns =
      printSiblings ctx formatter level separates prev ns := by
  cases ns with
  | nil => rfl
  | cons n ns =>
    simp only [printSiblings, printNode_withTabs n, printSiblings_withTabs ns]
    rfl

theorem printBranches_withTabs (ns : List (Node Facts)) (level : Nat) (forced skipsFirst : Bool) :
    printBranches (ctx.withTabs tabs) formatter level forced skipsFirst ns =
      printBranches ctx formatter level forced skipsFirst ns := by
  cases ns with
  | nil => rfl
  | cons n ns =>
    obtain ⟨info, span, kind, name, attributes, value, children⟩ := n
    cases kind with
    | branch branchName markup opener =>
      simp only [printBranches, printSiblings_withTabs children, printBranches_withTabs ns]
      rfl
    | _ => simp only [printBranches, printBranches_withTabs ns]

end

/-! ## Formatted templates -/

theorem Document.print_useTabs (o : Options) (formatter : CodeFormatter) (tabs : Bool) (d : Document Facts) :
    d.print { o with useTabs := tabs } formatter = d.print o formatter :=
  @printNode_withTabs ⟨d.source.toList, o⟩ formatter tabs d.root 0 none

/-- The kind of indentation is only read when the page is written. -/
theorem Document.format_eq_useTabs (o : Options) (formatter : CodeFormatter) (tabs : Bool) (d : Document Unit) :
    d.format { o with useTabs := tabs } formatter =
      if d.isIgnored o then (.ok d.source, [])
      else
        let printed := ((d.annotate o.sensitivity).print o formatter).run {}
        match printed.2.failure with
        | some message => (.error (.code message), printed.2.requests)
        | none =>
          if o.indentWidth = 0 then (.error .zeroIndent, printed.2.requests)
          else (.ok (printed.1.render { o.pageStyle with useTabs := tabs }), printed.2.requests) := by
  rw [Document.format, Document.print_useTabs]
  rfl

/-- Two outcomes of formatting: the same fault, or two texts whose lines differ in nothing but the spaces and tabs at
their start. -/
def SameUnindented : Except FormatFault String → Except FormatFault String → Prop
  | .ok t, .ok t' => Text.unindented t.toList = Text.unindented t'.toList
  | .error fault, .error fault' => fault = fault'
  | _, _ => False

/-- **Tabs only change indentation.** With spaces or with tabs, the same requests are made for embedded code, and
formatting fails in the same way or gives the same lines apart from their indentation. -/
theorem format_useTabs (o : Options) (formatter : CodeFormatter) (source : String) (tabs tabs' : Bool) :
    (format { o with useTabs := tabs } formatter source).2 = (format { o with useTabs := tabs' } formatter source).2 ∧
      SameUnindented (format { o with useTabs := tabs } formatter source).1
        (format { o with useTabs := tabs' } formatter source).1 := by
  unfold format
  cases Document.parse source with
  | error fault => exact ⟨rfl, rfl⟩
  | ok d =>
    simp only [Document.format_eq_useTabs]
    split
    · exact ⟨rfl, rfl⟩
    · split
      · exact ⟨rfl, rfl⟩
      · split
        · exact ⟨rfl, rfl⟩
        · exact ⟨rfl, Doc.unindented_render _ { o.pageStyle with useTabs := tabs } tabs'⟩

/-- A tag in a branch: with tabs the line is indented by one of them, and the trim markers and the rest stay as they
are. -/
example :
    let source := "\x7b% if a %\x7d\n<b>x</b>\n\x7b% endif %\x7d"
    ((format {} .identity source).1.toOption, (format { useTabs := true } .identity source).1.toOption) =
      (some "\x7b% if a %\x7d\n  <b>x</b>\n\x7b% endif %\x7d\n",
        some "\x7b% if a %\x7d\n\t<b>x</b>\n\x7b% endif %\x7d\n") := by
  decide +kernel

end LiquidTemplate
