import LiquidTemplate.Proofs.Print.Checked

/-!
# Printing never gives up

For printable nodes every step of the checked printer is possible, and it makes the same document as the printer
(`printNode?_follows`). The level of a node is bounded by its place in the source: each level of nesting takes at least
one byte of an opening tag. So a limit of the indentation width for each byte of the source and one more is enough.
-/

namespace LiquidTemplate

/-! ## Deepest indentation of parts -/

section

variable {ctx : PrintContext} {k : Nat}

@[simp] theorem indentation_verbatim (s : String) : (verbatim s).indentation = 0 := by
  refine Doc.indentation_separated rfl fun d hd => ?_
  obtain ⟨line, -, rfl⟩ := List.mem_map.1 hd
  rfl

@[simp] theorem indentation_fill (runs : List (List Char)) : (fill runs).indentation = 0 := by
  induction runs with
  | nil => rfl
  | cons run runs ih =>
    cases runs with
    | nil =>
      rw [fill]
      split <;> rfl
    | cons next runs =>
      rw [fill, Doc.indentation_append, ih, Nat.max_zero]
      · split
        · split <;> rfl
        · rfl
      · exact nofun

@[simp] theorem indentation_trimMarker (inSource : Bool) (added : AddedTrim) :
    (trimMarker inSource added).indentation = 0 := by
  unfold trimMarker
  split
  · rfl
  · cases added <;> rfl

@[simp] theorem indentation_printHead (head : String) : (printHead head).indentation = 0 := by
  simp [printHead]

@[simp] theorem indentation_printEnd (name : String) (d : Delimiter) : (printEnd name d).indentation = 0 := by
  simp [printEnd]

@[simp] theorem indentation_gap (gap : Gap) : gap.doc.indentation = 0 := by
  cases gap <;> rfl

@[simp] theorem indentation_boundary (matters hasBlank forced : Bool) :
    (boundary matters hasBlank forced).1.indentation = 0 := by
  cases matters <;> cases hasBlank <;> cases forced <;> rfl

@[simp] theorem indentation_printDangling (facts : Facts) : (printDangling facts).indentation = 0 := by
  unfold printDangling
  split <;> rfl

@[simp] theorem indentation_printBracketLine (forced : Bool) : (printBracketLine forced).indentation = 0 := by
  cases forced <;> rfl

@[simp] theorem indentation_separator (layout : AttributeLayout) : layout.separator.indentation = 0 := by
  cases layout <;> rfl

@[simp] theorem indentation_beforeClose (slash : Bool) (layout : AttributeLayout) :
    (layout.beforeClose slash).indentation = 0 := by
  cases layout <;> cases slash <;> rfl

@[simp] theorem indentation_printCodeLines (lines : List String) : (printCodeLines lines).indentation = 0 := by
  refine Doc.indentation_concat fun d hd => ?_
  obtain ⟨line, -, rfl⟩ := List.mem_map.1 hd
  split <;> rfl

theorem indentation_printDrop_le (markup : DropMarkup) (d : Delimiter) :
    (printDrop ctx markup d).indentation ≤ ctx.options.indentWidth := by
  cases markup with
  | plain text =>
    unfold printDrop
    simp only
    split <;> simp
  | value v =>
    have hfilters : (Doc.concat (v.filters.map fun f =>
        .line 1 ++ .text (f.render (ctx.stringQuote none)))).indentation = 0 := by
      refine Doc.indentation_concat fun d hd => ?_
      obtain ⟨f, -, rfl⟩ := List.mem_map.1 hd
      rfl
    simp [printDrop, hfilters]

/-- A statement stands no deeper than at the depth before it, and opens at most one more block. -/
theorem statementLevel_le (depth : Nat) (word : String) :
    (statementLevel depth word).1 ≤ depth ∧ (statementLevel depth word).2 ≤ depth + 1 := by
  unfold statementLevel
  constructor
  · simp only
    split <;> omega
  · simp only
    split <;> split <;> omega

theorem indentation_printStatements_le (indentWidth depth : Nat) (lines : List String) :
    (printStatements indentWidth depth lines).indentation ≤ indentWidth * (depth + lines.length) := by
  induction lines generalizing depth with
  | nil => exact Nat.zero_le _
  | cons line lines ih =>
    obtain ⟨hlevel, hafter⟩ := statementLevel_le depth (Text.firstWord line)
    have hline : indentWidth * ((statementLevel depth (Text.firstWord line)).1 + 1) ≤
        indentWidth * (depth + (lines.length + 1)) := Nat.mul_le_mul_left _ (by omega)
    have hlines : indentWidth * ((statementLevel depth (Text.firstWord line)).2 + lines.length) ≤
        indentWidth * (depth + (lines.length + 1)) := Nat.mul_le_mul_left _ (by omega)
    rw [printStatements, List.length_cons]
    simp only [Doc.indentation_append, Doc.indentation_nest, Doc.indentation_hardLine, Doc.indentation_text,
      Nat.max_self, Nat.add_zero]
    exact Nat.max_le.2 ⟨hline, Nat.le_trans (ih _) hlines⟩

theorem indentation_bodyOf_le (ctx : PrintContext) (forced : Bool) (container : Facts)
    (children : List (Node Facts)) (inner : Doc) :
    (bodyOf ctx forced container children inner).doc.indentation ≤ ctx.options.indentWidth + inner.indentation ∧
      (bodyOf ctx forced container children inner).after.indentation = 0 := by
  unfold bodyOf
  split <;> simp

/-- The documents of a part are indented by at most so much. -/
def Part.Within (k : Nat) (part : Part) : Prop :=
  part.body.doc.indentation ≤ k ∧ part.body.after.indentation = 0

theorem within_bodyOf {limit level : Nat} {inner : Doc} (forced : Bool) (container : Facts)
    (children : List (Node Facts)) (h : level + ctx.options.indentWidth + inner.indentation ≤ limit)
    (delimiter : Option (String × Delimiter)) :
    Part.Within (limit - level) ⟨delimiter, bodyOf ctx forced container children inner⟩ := by
  obtain ⟨hdoc, hafter⟩ := indentation_bodyOf_le ctx forced container children inner
  exact ⟨by dsimp only; omega, hafter⟩

theorem indentation_printParts_le {parts : List Part} (h : ∀ part ∈ parts, part.Within k) (close : AddedTrim) :
    (printParts close parts).1.indentation ≤ k := by
  induction parts generalizing close with
  | nil => exact Nat.zero_le _
  | cons part parts ih =>
    obtain ⟨⟨hdoc, hafter⟩, hparts⟩ := List.forall_mem_cons.1 h
    have hrest := ih hparts part.body.closeTrim
    have hbody : max part.body.doc.indentation (printParts part.body.closeTrim parts).1.indentation ≤ k :=
      Nat.max_le.2 ⟨hdoc, hrest⟩
    rw [printParts]
    simp only [Doc.indentation_append, hafter]
    split <;> simpa using hbody

theorem indentation_printBlock_le (name head : String) (opener : Delimiter) (closer : Option Delimiter)
    {parts : List Part} (h : ∀ part ∈ parts, part.Within k) :
    (printBlock name head opener closer parts).indentation ≤ k := by
  have hparts := indentation_printParts_le h .never
  cases closer <;> simpa [printBlock] using hparts

theorem indentation_printKept (opening : Doc × AttributeLayout) (name body : String) :
    (printKept opening name body).indentation = opening.1.indentation := by
  simp [printKept]

theorem indentation_printChildless (opening : Doc × AttributeLayout) (slash : Bool) :
    (printChildless opening slash).indentation = opening.1.indentation := by
  simp [printChildless]

theorem indentation_printElement_le {opening : Doc × AttributeLayout} (hopening : opening.1.indentation ≤ k)
    (name : String) (forced : Bool) (container : Facts) (children : List (Node Facts)) {inner : Doc}
    (hinner : ctx.options.indentWidth + inner.indentation ≤ k) :
    (printElement ctx opening name forced container children inner).indentation ≤ k := by
  have hbody : max opening.1.indentation (ctx.options.indentWidth + inner.indentation) ≤ k :=
    Nat.max_le.2 ⟨hopening, hinner⟩
  unfold printElement
  split
  next first last _ _ =>
    simp only
    split <;> split <;> simpa using hbody
  next => simpa using hopening

theorem indentation_printAttributeItems (layout : AttributeLayout) (prev : Option (Node Facts))
    (ns : List (Node Facts)) : (printAttributeItems ctx layout prev ns).indentation = 0 := by
  induction ns generalizing prev with
  | nil => rfl
  | cons n ns ih =>
    rw [printAttributeItems]
    simp only [Doc.indentation_append, ih, indentation_separator]
    split <;> simp

theorem indentation_printOpening (name : String) (attributes : List (Node Facts)) :
    (printOpening ctx name attributes).1.indentation = ctx.options.indentWidth := by
  simp [printOpening, indentation_printAttributeItems]

theorem indentation_printCode_le (formatter : CodeFormatter) (level : Nat) (indent : Bool) (body : RawBody)
    (session : Session) :
    ((printCode ctx formatter level indent body).run session).1.indentation ≤ ctx.options.indentWidth := by
  unfold printCode
  split
  · exact Nat.zero_le _
  · split
    · exact Nat.le_trans (Nat.le_of_eq (indentation_verbatim _)) (Nat.zero_le _)
    · rw [StateT.run_bind]
      generalize StateT.run (formatter.ask _) session = answer
      change ((if indent = true then .nest ctx.options.indentWidth (printCodeLines (dedent answer.1))
        else printCodeLines (dedent answer.1)) ++ Doc.hardLine).indentation ≤ _
      split <;> simp

end

/-! ## Checked steps -/

namespace Checked

variable {α β : Type} {P : α → Prop} {Q : β → Prop}

/-- A checked step is possible, does what a plain one does, and gives something with a property. -/
def Follows (P : α → Prop) (checked : Checked α) (plain : StateM Session α) : Prop :=
  ∀ session, checked.run session = some (plain.run session) ∧ P (plain.run session).1

namespace Follows

theorem pure {a : α} (h : P a) : Follows P (Pure.pure a) (Pure.pure a) :=
  fun _ => ⟨rfl, h⟩

theorem always {plain : StateM Session α} (h : ∀ session, P (plain.run session).1) :
    Follows P (Checked.always plain) plain :=
  fun session => ⟨rfl, h session⟩

theorem bind {checked : Checked α} {plain : StateM Session α} {f : α → Checked β} {g : α → StateM Session β}
    (h : Follows P checked plain) (h' : ∀ a, P a → Follows Q (f a) (g a)) :
    Follows Q (checked >>= f) (plain >>= g) := by
  intro session
  obtain ⟨hrun, ha⟩ := h session
  obtain ⟨hrun', hb⟩ := h' _ ha (plain.run session).2
  refine ⟨?_, hb⟩
  rw [StateT.run_bind, hrun]
  exact hrun'

theorem lift {o : Option α} {a : α} (ho : o = some a) {f : α → Checked β} {plain : StateM Session β}
    (h : Follows Q (f a) plain) : Follows Q ((liftM o : Checked α) >>= f) plain := by
  subst ho
  exact h

end Follows

end Checked

/-! ## Parts that do not ask the formatter -/

section

variable {limit level : Nat} {ctx : PrintContext}

theorem deepen?_eq (h : level + ctx.options.indentWidth ≤ limit) :
    ctx.deepen? limit level = some (level + ctx.options.indentWidth) :=
  if_pos h

theorem printStatements?_eq (indentWidth depth : Nat) (lines : List String)
    (h : indentWidth * (depth + lines.length) ≤ limit) :
    printStatements? limit indentWidth depth lines = some (printStatements indentWidth depth lines) := by
  induction lines generalizing depth with
  | nil => rfl
  | cons line lines ih =>
    obtain ⟨hlevel, hafter⟩ := statementLevel_le depth (Text.firstWord line)
    rw [List.length_cons] at h
    have hline : indentWidth * ((statementLevel depth (Text.firstWord line)).1 + 1) ≤ limit :=
      Nat.le_trans (Nat.mul_le_mul_left _ (by omega)) h
    have hlines : indentWidth * ((statementLevel depth (Text.firstWord line)).2 + lines.length) ≤ limit :=
      Nat.le_trans (Nat.mul_le_mul_left _ (by omega)) h
    rw [printStatements?]
    simp only
    rw [if_pos hline, ih _ hlines]
    rfl

theorem printName?_eq {fragments : List (Node Facts)}
    (h : ∀ m ∈ Node.preorderOf fragments, m.Printable ctx.source) :
    printName? ctx fragments = some (printName ctx fragments) := by
  rw [printName?, Node.inlineItems?_eq ctx none _ fragments h]
  rfl

theorem printAttributeItems?_eq (layout : AttributeLayout) (prev : Option (Node Facts)) {ns : List (Node Facts)}
    (h : ∀ m ∈ Node.preorderOf ns, m.Printable ctx.source) :
    printAttributeItems? ctx layout prev ns = some (printAttributeItems ctx layout prev ns) := by
  induction ns generalizing prev with
  | nil => rfl
  | cons n ns ih =>
    obtain ⟨hn, hns⟩ := Node.forall_preorderOf_cons.1 h
    rw [printAttributeItems?, PrintContext.text?_eq (Node.forall_preorder.1 hn).1.isSome_slice?,
      Node.inline?_eq ctx none n hn, ih (some n) hns]
    rfl

theorem printOpening?_eq (hlevel : level + ctx.options.indentWidth ≤ limit) (name : String)
    {attributes : List (Node Facts)} (h : ∀ m ∈ Node.preorderOf attributes, m.Printable ctx.source) :
    printOpening? limit ctx level name attributes = some (printOpening ctx name attributes) := by
  simp only [printOpening?, deepen?_eq hlevel, printAttributeItems?_eq _ none h]
  rfl

end

/-! ## Nodes -/

theorem Node.Printable.start_le {α : Type} {source : List Char} {n : Node α} (h : n.Printable source) :
    n.span.start ≤ Text.byteSize source :=
  h.ends.1.le

section

open Checked

variable {limit : Nat} {ctx : PrintContext}

theorem deepen_le (hlimit : ctx.options.indentWidth * (Text.byteSize ctx.source + 1) ≤ limit)
    {n : Node Facts} (h : n.Printable ctx.source) {level : Nat}
    (hlevel : level ≤ ctx.options.indentWidth * n.span.start) : level + ctx.options.indentWidth ≤ limit :=
  calc level + ctx.options.indentWidth
    _ ≤ ctx.options.indentWidth * n.span.start + ctx.options.indentWidth := Nat.add_le_add_right hlevel _
    _ = ctx.options.indentWidth * (n.span.start + 1) := (Nat.mul_succ _ _).symm
    _ ≤ ctx.options.indentWidth * (Text.byteSize ctx.source + 1) :=
      Nat.mul_le_mul_left _ (Nat.succ_le_succ h.start_le)
    _ ≤ limit := hlimit

/-- There is room for the statements of a tag, each one level deeper than the one before. -/
theorem statements_le (hlimit : ctx.options.indentWidth * (Text.byteSize ctx.source + 1) ≤ limit)
    {n : Node Facts} (h : n.Printable ctx.source) {name : String} {lines : List String}
    {d : Delimiter} (hkind : n.kind = .tag name (.statements lines) d) {level : Nat}
    (hlevel : level ≤ ctx.options.indentWidth * n.span.start) :
    level + ctx.options.indentWidth * lines.length ≤ limit := by
  have hcount : n.span.start + lines.length ≤ n.span.stop := h.statements hkind
  have hstop : n.span.stop ≤ Text.byteSize ctx.source := h.ends.2.le
  calc level + ctx.options.indentWidth * lines.length
    _ ≤ ctx.options.indentWidth * n.span.start + ctx.options.indentWidth * lines.length :=
      Nat.add_le_add_right hlevel _
    _ = ctx.options.indentWidth * (n.span.start + lines.length) := (Nat.mul_add _ _ _).symm
    _ ≤ ctx.options.indentWidth * (Text.byteSize ctx.source + 1) := Nat.mul_le_mul_left _ (by omega)
    _ ≤ limit := hlimit

mutual

/-- **Every step of printing a printable node is possible.** -/
theorem printNode?_follows (hlimit : ctx.options.indentWidth * (Text.byteSize ctx.source + 1) ≤ limit)
    (formatter : CodeFormatter) (level : Nat) (prev : Option (Node Facts)) (n : Node Facts)
    (h : ∀ m ∈ n.preorder, m.Printable ctx.source) (hlevel : level ≤ ctx.options.indentWidth * n.span.start) :
    Follows (fun d => level + d.indentation ≤ limit) (printNode? limit ctx formatter level prev n)
      (printNode ctx formatter level prev n) := by
  obtain ⟨hn, hname, hattributes, -, hchildren⟩ := Node.forall_preorder.1 h
  have hinline := Node.inline?_eq ctx none n h
  have hforced := Node.isForced?_eq n h
  have hdeep := deepen_le hlimit hn hlevel
  have hle : level ≤ limit := by omega
  have hcut := PrintContext.text?_eq hn.isSome_slice?
  have hbelow (hbody : n.body?.isSome = true) :
      ∀ c ∈ n.children, level + ctx.options.indentWidth ≤ ctx.options.indentWidth * c.span.start := fun c hc =>
    Nat.le_trans (Nat.add_le_add_right hlevel _) (Nat.mul_le_mul_left _ (hn.deeper hbody c hc))
  obtain ⟨info, span, kind, name, attributes, value, children⟩ := n
  have hsiblings (separates : Bool) (hbelow) :=
    printSiblings?_follows hlimit formatter _ separates none children hchildren hbelow hdeep
  unfold printNode? printNode
  by_cases hignored : isIgnored ctx prev = true
  · simp only [if_pos hignored]
    refine .lift hcut (.pure ?_)
    rw [indentation_verbatim]
    omega
  · simp only [if_neg hignored]
    cases kind with
    | document =>
      dsimp only
      split
      · exact .pure hle
      · have hstart : ∀ c ∈ children, level ≤ ctx.options.indentWidth * c.span.start :=
          fun c hc => Nat.le_trans hlevel (Nat.mul_le_mul_left _ (hn.children c hc))
        refine .bind (printSiblings?_follows hlimit formatter level _ none children hchildren hstart hle) ?_
        intro inner hinner
        exact .pure (by simpa using hinner)
    | element opener closer =>
      refine .lift (printName?_eq hname) (.lift (printOpening?_eq hdeep _ hattributes) ?_)
      dsimp only
      split
      · refine .lift (PrintContext.text?_eq (hn.body _ rfl)) (.pure ?_)
        rw [indentation_printKept, indentation_printOpening]
        exact hdeep
      · refine .lift (deepen?_eq hdeep) (.bind (hsiblings _ (hbelow rfl)) fun inner hinner => ?_)
        refine .lift hforced (.pure (Nat.add_le_of_le_sub' hle (indentation_printElement_le ?_ _ _ _ _ (by omega))))
        rw [indentation_printOpening]
        omega
    | voidElement elementName =>
      refine .lift (printOpening?_eq hdeep _ hattributes) (.pure ?_)
      rw [indentation_printChildless, indentation_printOpening]
      exact hdeep
    | selfClosing =>
      refine .lift (printName?_eq hname) (.lift (printOpening?_eq hdeep _ hattributes) (.pure ?_))
      rw [indentation_printChildless, indentation_printOpening]
      exact hdeep
    | rawElement elementName body opener closer =>
      refine .lift (printOpening?_eq hdeep _ hattributes) ?_
      refine .bind (.always (P := fun code : Doc => code.indentation ≤ ctx.options.indentWidth)
        (indentation_printCode_le formatter level _ body)) fun code hcode => .pure ?_
      simp only [Doc.indentation_append, Doc.indentation_text, indentation_printChildless, indentation_printOpening]
      omega
    | tag tagName markup opener =>
      cases markup with
      | statements lines =>
        have hlines := statements_le hlimit hn rfl hlevel
        have hdoc := indentation_printStatements_le ctx.options.indentWidth 0 lines
        rw [Nat.zero_add] at hdoc
        refine .lift (printStatements?_eq _ 0 lines (by rw [Nat.zero_add]; omega)) (.pure ?_)
        simp
        omega
      | _ => exact .pure (by simpa using hle)
    | block tagName markup opener closer =>
      dsimp only
      split
      · refine .lift (PrintContext.text?_eq (hn.body _ rfl)) (.pure ?_)
        cases closer <;> simpa using hle
      · refine .lift hforced ?_
        split
        · have hbranches (forced skipsFirst : Bool) :=
            printBranches?_follows hlimit formatter level forced skipsFirst children hchildren (hbelow rfl) hdeep
          refine .bind (hbranches _ _) fun parts hparts => ?_
          exact .pure (Nat.add_le_of_le_sub' hle (indentation_printBlock_le _ _ _ _ hparts))
        · refine .lift (deepen?_eq hdeep) (.bind (hsiblings _ (hbelow rfl)) fun inner hinner => ?_)
          refine .pure (Nat.add_le_of_le_sub' hle (indentation_printBlock_le _ _ _ _ ?_))
          exact List.forall_mem_singleton.2 (within_bodyOf _ _ _ hinner _)
    | branch => exact .lift hcut (.pure (by simpa using hle))
    | attr => exact .lift hinline (.pure (by simpa using hle))
    | rawTag tagName markup body opener closer =>
      dsimp only
      split
      · exact .pure (by simpa using hle)
      · refine .bind (.always (P := fun code : Doc => code.indentation ≤ ctx.options.indentWidth)
          (indentation_printCode_le formatter level _ body)) fun code hcode => .pure ?_
        simp only [Doc.indentation_append, Doc.indentation_text, indentation_trimMarker, indentation_printEnd]
        omega
    | text text =>
      refine .always fun _ => ?_
      change level + (printText text).indentation ≤ limit
      rwa [printText, indentation_fill]
    | frontMatter body =>
      refine .always fun _ => ?_
      change level + (Doc.text "---" ++ verbatim body ++ Doc.text "---").indentation ≤ limit
      simpa using hle
    | comment body =>
      refine .always fun _ => ?_
      change level + (Doc.text "<!--" ++ verbatim body ++ Doc.text "-->").indentation ≤ limit
      simpa using hle
    | doctype => exact .always fun _ => hle
    | drop written markup d =>
      refine .always fun _ => ?_
      exact Nat.le_trans (Nat.add_le_add_left (indentation_printDrop_le markup d) level) hdeep

theorem printSiblings?_follows (hlimit : ctx.options.indentWidth * (Text.byteSize ctx.source + 1) ≤ limit)
    (formatter : CodeFormatter) (level : Nat) (separates : Bool) (prev : Option (Node Facts)) (ns : List (Node Facts))
    (h : ∀ m ∈ Node.preorderOf ns, m.Printable ctx.source)
    (hlevel : ∀ n ∈ ns, level ≤ ctx.options.indentWidth * n.span.start) (hle : level ≤ limit) :
    Follows (fun d => level + d.indentation ≤ limit) (printSiblings? limit ctx formatter level separates prev ns)
      (printSiblings ctx formatter level separates prev ns) := by
  cases ns with
  | nil => exact .pure hle
  | cons n ns =>
    obtain ⟨hn, hns⟩ := Node.forall_preorderOf_cons.1 h
    obtain ⟨hfirst, hothers⟩ := List.forall_mem_cons.1 hlevel
    unfold printSiblings? printSiblings
    refine .bind (printNode?_follows hlimit formatter level prev n hn hfirst) fun item hitem => ?_
    refine .bind (printSiblings?_follows hlimit formatter level separates (some n) ns hns hothers hle) ?_
    intro rest hrest
    refine .pure ?_
    cases prev
    · simp only [Doc.indentation_append, Doc.indentation_nil]
      omega
    · simp only [Doc.indentation_append, indentation_gap]
      omega

theorem printBranches?_follows (hlimit : ctx.options.indentWidth * (Text.byteSize ctx.source + 1) ≤ limit)
    (formatter : CodeFormatter) (level : Nat) (forced skipsFirst : Bool) (ns : List (Node Facts))
    (h : ∀ m ∈ Node.preorderOf ns, m.Printable ctx.source)
    (hlevel : ∀ n ∈ ns, level + ctx.options.indentWidth ≤ ctx.options.indentWidth * n.span.start)
    (hdeep : level + ctx.options.indentWidth ≤ limit) :
    Follows (fun parts => ∀ part ∈ parts, part.Within (limit - level))
      (printBranches? limit ctx formatter level forced skipsFirst ns)
      (printBranches ctx formatter level forced skipsFirst ns) := by
  cases ns with
  | nil => exact .pure nofun
  | cons n ns =>
    obtain ⟨hall, hns⟩ := Node.forall_preorderOf_cons.1 h
    obtain ⟨hn, -, -, -, hchildren⟩ := Node.forall_preorder.1 hall
    obtain ⟨hfirst, hothers⟩ := List.forall_mem_cons.1 hlevel
    have hrest := printBranches?_follows hlimit formatter level forced false ns hns hothers hdeep
    obtain ⟨info, span, kind, name, attributes, value, children⟩ := n
    cases kind with
    | branch branchName markup opener =>
      rw [printBranches?, printBranches]
      have hbelow : ∀ c ∈ children, level + ctx.options.indentWidth ≤ ctx.options.indentWidth * c.span.start :=
        fun c hc => Nat.le_trans hfirst (Nat.mul_le_mul_left _ (hn.children c hc))
      refine .lift (deepen?_eq hdeep) ?_
      refine .bind (printSiblings?_follows hlimit formatter _ false none children hchildren hbelow hdeep) ?_
      intro inner hinner
      refine .bind hrest fun parts hparts => .pure (List.forall_mem_cons.2 ⟨?_, hparts⟩)
      split
      · exact ⟨Nat.zero_le _, rfl⟩
      · exact within_bodyOf _ _ _ hinner _
    | _ => exact hrest

end

end

end LiquidTemplate
