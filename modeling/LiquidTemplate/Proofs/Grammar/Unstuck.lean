import LiquidTemplate.Grammar.Template
import LiquidTemplate.Proofs.Grammar.Names
import LiquidTemplate.Proofs.Peg.Emitted
import LiquidTemplate.Proofs.Peg.Stack

/-!
# The grammar is never stuck

Raw tags and raw elements push their name, look for it while they read their body, and pop it again. All other rules
leave the stack as it is, so no template makes the grammar look at an empty stack (`run?_document`). A token, the
markup of a tag or an expression is made of the parts of a match, and these are always what can be turned into one
(`everyRule_document`).
-/

namespace LiquidTemplate.Grammar

open Peg

/-! ## The stack -/

/-- A property of expressions that have nothing to do with the stack, and of what is built from such expressions. -/
structure StackClosed (S : {α : Type} → Grammar α → Prop) : Prop where
  free : ∀ {α : Type} {p : Grammar α}, p.stackFree = true → S p
  map : ∀ {α β : Type} {f : α → β} {p : Grammar α}, S p → S (f <$> p)
  seq : ∀ {α β : Type} {f : Grammar (α → β)} {p : Grammar α}, S f → S p → S (f <*> p)
  orElse : ∀ {α : Type} {p q : Grammar α}, S p → S q → S (p <|> q)
  many : ∀ {α : Type} {p : Grammar α}, S p → p.advances = true → S (Peg.many p)
  slice : ∀ {α : Type} {p : Grammar α}, S p → S (Peg.slice p)
  rule : ∀ {α : Type} {name : Rule} {atomic : Bool} {p : Grammar α}, S p → S (Peg.rule name atomic p)

namespace StackClosed

variable {S : {α : Type} → Grammar α → Prop} (h : StackClosed S)

include h

theorem seqLeft {α β : Type} {p : Grammar α} {q : Grammar β} (hp : S p) (hq : S q) : S (p <* q) :=
  h.seq (h.map (f := Function.const β) hp) hq

theorem seqRight {α β : Type} {p : Grammar α} {q : Grammar β} (hp : S p) (hq : S q) : S (p *> q) :=
  h.seq (h.map (f := Function.const α id) hp) hq

theorem spanned {α : Type} {p : Grammar (Span → α)} (hp : S p) : S (spanned p) :=
  h.map (h.slice hp)

theorem attributeQuoted (htag : S liquidTag) (rule valueRule textRule : Rule) (q : Quote) :
    S (attributeQuoted rule valueRule textRule q) := by
  have hname : S (attributeHead <* .char (· == q.char)) := h.free rfl
  have hitem : S (liquid <|> textWithout textRule (· == q.char)) :=
    h.orElse (h.orElse htag (h.free rfl)) (h.free rfl)
  have hvalue : S (named valueRule (.many (liquid <|> textWithout textRule (· == q.char)))) :=
    h.rule (h.many hitem rfl)
  exact h.rule (h.spanned (h.map (h.seq (h.map hname) (h.seqLeft hvalue (h.free rfl)))))

theorem attr (htag : S liquidTag) : S attr :=
  h.orElse (h.attributeQuoted htag _ _ _ _) (h.orElse (h.attributeQuoted htag _ _ _ _) (h.free rfl))

theorem attributes (htag : S liquidTag) : S attributes :=
  h.seqLeft (h.many (h.seqRight (h.free rfl) (h.orElse htag (h.attr htag))) rfl) (h.free rfl)

theorem openTag (htag : S liquidTag) : S openTag := by
  have hname : S (.text "<" *> elementName) := h.free rfl
  exact h.rule (h.spanned (h.seq (h.seq (h.map hname) (h.attributes htag)) (h.free rfl)))

theorem node (htag : S liquidTag) (hraw : S rawElement) : S node := by
  have hcomment : S comment := h.free rfl
  have hdoctype : S doctype := h.free rfl
  have hclose : S closeTag := h.free rfl
  have hhtml : S html := h.orElse hcomment (h.orElse hdoctype (h.orElse hraw (h.orElse hclose (h.openTag htag))))
  exact h.orElse (h.orElse htag (h.free rfl)) (h.orElse hhtml (h.free rfl))

end StackClosed

theorem closed_sparesStack : StackClosed SparesStack where
  free := sparesStack_of_stackFree
  map := SparesStack.map
  seq := SparesStack.seq
  orElse := SparesStack.orElse
  many := SparesStack.many
  slice hp := hp
  rule hp := hp

theorem spares_expression : expression.SparesStack :=
  sparesStack_of_stackFree rfl

theorem spares_liquidTag : liquidTag.SparesStack := by
  have hraw : rawTag.SparesStack := sparesStack_of_empty (by decide +kernel)
  have hclose : blockClose.SparesStack := sparesStack_of_stackFree rfl
  have hopen : blockOpen.SparesStack := sparesStack_of_stackFree rfl
  have htag : tag.SparesStack := sparesStack_of_stackFree rfl
  exact hraw.orElse (hclose.orElse (hopen.orElse htag))

/-- The name that the opening tag pushed is there for the body, and is gone after the closing tag. -/
theorem spares_rawElement : rawElement.SparesStack := by
  have hname : (Prod.mk <$> (Peg.text "<" *> Peg.push rawElementName) : Grammar (List Token → _)).stackAfter 0 =
      some 1 :=
    rfl
  have hend : (Peg.text ">" : Grammar Unit).SparesStack := fun _ => rfl
  have hopen : (named .htmlRawOpen (Peg.slice
      (Prod.mk <$> (.text "<" *> .push rawElementName) <*> (attributes <* .text ">")))).stackAfter 0 = some 1 :=
    stackAfter_seq hname ((closed_sparesStack.attributes spares_liquidTag).seqLeft hend 1)
  have hbody : (atom .htmlRawBody (Prod.fst <$> Peg.slice
      (upTo (.text "</" *> .peek *> blanks *> .text ">"))) : Grammar Slice).stackAfter 1 = some 1 := rfl
  have hclose : (named .htmlRawClose
      (.slice (.text "</" *> .pop *> blanks *> .text ">")) : Grammar (Slice × Unit)).stackAfter 1 = some 0 := rfl
  exact closed_sparesStack.spanned
    (sparesStack_of_empty (stackAfter_seq (stackAfter_seq (stackAfter_map hopen) hbody) hclose))

theorem spares_document : document.SparesStack := by
  have hfront : (blanks *> opt frontMatter <* blanks : Grammar _).SparesStack := sparesStack_of_stackFree rfl
  have hblanks : blanks.SparesStack := sparesStack_of_stackFree rfl
  have hnode : node.SparesStack := closed_sparesStack.node spares_liquidTag spares_rawElement
  have hnodes : (Peg.many (node <* blanks)).SparesStack := .many (hnode.seqLeft hblanks) rfl
  have hend : (named .endOfInput Peg.done : Grammar Unit).SparesStack := fun _ => rfl
  exact hfront.map.seq (hnodes.seqLeft hend)

/-- **Reading a template is never stuck**: not at an empty stack, not in a repetition, and not in nested brackets. -/
theorem run?_document (s : List Char) : run? expression document s = some (run expression document s).1 :=
  run?_eq_run rfl (spares_expression 0) (spares_document 0) s

end LiquidTemplate.Grammar

/-! ## Parts of matches -/

namespace LiquidTemplate

namespace Rule

/-- The rules that a token is built from, be it in a template, in a list of attributes, in a name or in a value. -/
def tokenRules : List Rule :=
  [.yamlFrontmatter, .textNode, .htmlComment, .htmlDoctype, .htmlRawTag, .htmlTagOpen, .htmlTagClose, .liquidDrop,
   .liquidRawTag, .liquidTagClose, .liquidTagOpen, .liquidTag, .attrDoubleQuoted, .attrSingleQuoted, .attrUnquoted,
   .attrEmpty, .tagNameText, .attrNameText, .attrTextDouble, .attrTextSingle, .attrTextUnquoted]

def markupRules : List Rule :=
  [.markupIf, .markupElsif, .markupCase, .markupWhen, .markupFor, .markupCapture, .markupPaginate, .markupAssign,
   .markupEcho, .markupCycle, .markupRender, .markupCounter, .markupLayout, .markupSection, .markupLiquid]

def expressionRules : List Rule :=
  [.liquidString, .liquidNumber, .liquidLiteral, .liquidRange, .liquidVariableLookup]

/-- Exactly these parts, each of one of some rules. -/
def exactly (places : List (List Rule)) : Form Rule :=
  places.foldr .first (.any [])

/-- The parts that are taken from a match of a rule: at each place, the rules that can be turned into something. -/
def wantedParts : Rule → Form Rule
  -- tokens
  | .document => .any (.endOfInput :: tokenRules)
  | .yamlFrontmatter => exactly [[.frontmatterBody]]
  | .htmlComment => exactly [[.commentBody]]
  | .htmlDoctype => exactly [[.doctypeBody]]
  | .htmlRawTag => exactly [[.htmlRawOpen], [.htmlRawBody], [.htmlRawClose]]
  | .htmlRawOpen => .first [.htmlRawName] (.any tokenRules)
  | .htmlTagOpen => .first [.htmlTagName] (.any (.htmlTagEnd :: tokenRules))
  | .htmlTagClose => exactly [[.htmlTagName]]
  | .htmlTagName | .attrName | .attrValueDouble | .attrValueSingle | .attrValueUnquoted => .any tokenRules
  | .attrDoubleQuoted => exactly [[.attrName], [.attrValueDouble]]
  | .attrSingleQuoted => exactly [[.attrName], [.attrValueSingle]]
  | .attrUnquoted => exactly [[.attrName], [.attrValueUnquoted]]
  | .attrEmpty => exactly [[.attrName]]
  | .liquidDrop => .any [.trimStart, .trimEnd, .dropMarkup, .markupBaseDrop]
  | .liquidRawTag => exactly [[.rawTagOpen], [.rawTagBody], [.rawTagClose]]
  | .rawTagOpen => .any [.trimStart, .trimEnd, .rawTagName, .markupBase]
  | .rawTagClose => .any [.trimStart, .trimEnd]
  | .liquidTagClose => .any [.trimStart, .trimEnd, .blockName]
  | .liquidTagOpen => .any ([.trimStart, .trimEnd, .blockName, .markupBase] ++ markupRules)
  | .liquidTag => .any ([.trimStart, .trimEnd, .tagName, .markupBase] ++ markupRules)
  -- markup
  | .dropMarkup | .markupEcho => exactly [[.liquidVariable]]
  | .markupIf | .markupElsif => exactly [[.liquidCondition]]
  | .markupCase | .markupLayout | .cycleGroup | .lookupBracket => exactly [expressionRules]
  | .markupWhen => .any expressionRules
  | .markupFor => .first [.variableName] (.first expressionRules (.any [.reversed, .namedArgument]))
  | .markupCapture | .markupCounter | .renderAlias => exactly [[.variableName]]
  | .markupPaginate => .first expressionRules (.first expressionRules (.any [.namedArgument]))
  | .markupAssign => exactly [[.variableName], [.liquidVariable]]
  | .markupCycle => .any (.cycleGroup :: expressionRules)
  | .markupRender => .first expressionRules (.any [.renderVariable, .renderAlias, .namedArgument])
  | .renderVariable => exactly [[.renderKind], expressionRules]
  | .markupSection => exactly [[.liquidString]]
  | .markupLiquid => exactly [[.liquidLines]]
  -- expressions
  | .liquidCondition => .first [.condition] (.any [.logicalOperator, .condition])
  | .condition => exactly [.comparison :: expressionRules]
  | .comparison => exactly [expressionRules, [.comparator], expressionRules]
  | .liquidVariable => .first expressionRules (.any [.liquidFilter])
  | .liquidFilter => .first [.filterName] (.any (.namedArgument :: expressionRules))
  | .namedArgument => exactly [[.argumentName], expressionRules]
  | .liquidRange => exactly [expressionRules, expressionRules]
  | .liquidVariableLookup => .first [.variableName, .lookupBracket] (.any [.lookupDot, .lookupBracket])
  | .lookupDot => exactly [[.lookupName]]
  | _ => .any []

end Rule

namespace Grammar

open Peg

/-- The parts of a match of a rule, where the recursive nonterminal is an expression. -/
def parts {α : Type} (atomic : Bool) (p : Grammar α) : Cursor → List Rule :=
  p.partsOf (nested expression) (expression.emitted (nested expression) fun _ => []) atomic

/-- **Wherever a rule matches, each part has a rule that can be turned into something at its place**, and no part is
missing. -/
theorem everyRule_document : document.EveryRule fun name atomic _ q => ∀ c,
    (q.read (nested expression) c).isSome = true → name.wantedParts.Fits (parts atomic q c) := by
  have hexpression : ∀ c, (nested expression c).isSome = true →
      (Rule.exactly [Rule.expressionRules]).Fits (expression.emitted (nested expression) (fun _ => []) c) := by
    intro c hc
    rw [nested_eq rfl] at hc
    have hform : (expression.form (.any [])).Fits (expression.emitted (nested expression) (fun _ => []) c) := by
      refine form_fits_emitted ?_ expression c hc
      exact fun _ _ _ hr => nomatch hr
    exact hform.of_isWithin (by decide +kernel)
  exact everyRule_fits hexpression (by decide +kernel)

/-! ## Texts of literals -/

theorem reads_comparator : comparator.Reads fun c x d => c.rest = x.symbol.toList ++ d.rest := by
  have hsymbol (x : Comparator) : (comparatorOf x).Reads fun c x d => c.rest = x.symbol.toList ++ d.rest :=
    reads_map (reads_text fun _ _ hrest _ => hrest)
  have hend : (Peg.notAhead (.char Text.isWordChar) : Grammar Unit).Reads fun c _ d => d = c :=
    reads_notAhead fun _ _ _ => rfl
  have hword : (giving Comparator.contains (word "contains")).Reads
      fun c x d => c.rest = x.symbol.toList ++ d.rest := by
    refine reads_map (reads_seqLeft (reads_map (reads_text fun c d hrest _ => ?_)) hend)
    rintro - e rfl
    exact hrest
  exact reads_atom (reads_orElse (hsymbol _) (reads_orElse (hsymbol _) (reads_orElse (hsymbol _)
    (reads_orElse (hsymbol _) (reads_orElse (hsymbol _) (reads_orElse (hsymbol _)
      (reads_orElse (hsymbol _) hword)))))))

theorem reads_keyword_word : keyword.Reads fun c k d => c.rest = k.word.toList ++ d.rest := by
  have hword (k : Keyword) : (keywordOf k).Reads fun c k d => c.rest = k.word.toList ++ d.rest := by
    have hend : (Peg.notAhead (giving () nameChar <|> .text "." <|> .text "[") : Grammar Unit).Reads
        fun c _ d => d = c := reads_notAhead fun _ _ _ => rfl
    refine reads_seqLeft (reads_map (reads_text fun c d hrest _ => ?_)) hend
    rintro - e rfl
    exact hrest
  exact reads_atom (reads_orElse (hword _) (reads_orElse (hword _) (reads_orElse (hword _)
    (reads_orElse (hword _) (reads_orElse (hword _) (hword _))))))

theorem reads_string_marks : string.Reads fun c s d =>
    c.rest = s.quote.char :: (s.value.toList ++ s.quote.char :: d.rest) := by
  have hquoted (q : Quote) : (quoted q).Reads fun c s d =>
      c.rest = s.quote.char :: (s.value.toList ++ s.quote.char :: d.rest) := by
    have hmark : (Peg.char (· == q.char) : Grammar Char).Reads fun c _ d => c.rest = q.char :: d.rest :=
      reads_char fun c d x hrest _ hx => by rw [hrest, eq_of_beq hx]
    have hvalue : (covered (.many (.char (· != q.char))) : Grammar String).Reads fun c s d =>
        c.rest = s.toList ++ d.rest ∧ True := by
      have hmany : (Peg.many (.char (· != q.char)) : Grammar (List Char)).Reads fun c _ d =>
          ∃ w, c.rest = w ++ d.rest ∧ True :=
        (reads_stepsTo _).imp fun c _ d ⟨w, hw, _⟩ => ⟨w, hw, trivial⟩
      exact reads_covered (A := fun _ _ => True) hmany
    refine reads_map (reads_seqLeft (reads_seqRight (hmark.imp fun c _ d hopen => ?_) hvalue) hmark)
    rintro s e ⟨hs, -⟩ - f hclose
    rw [hopen, hs, hclose]
  exact reads_atom (reads_orElse (hquoted .single) (hquoted .double))

end Grammar

end LiquidTemplate
