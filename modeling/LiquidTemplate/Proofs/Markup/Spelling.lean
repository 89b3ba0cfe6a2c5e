import LiquidTemplate.Proofs.Expression.Spelling

/-!
# How markup is spelled

The markup that a tag of a given name can have, with all its parts written in the way that they are read
(`BlockSpelled` for tags that open a block, `LeafSpelled` for the others), and the markup as it is after writing it
(`Markup.norm`).
-/

namespace LiquidTemplate

/-- A line in the body of a `liquid` tag: not empty, without white space at its ends, and nowhere the end of the tag. -/
structure IsStatement (line : String) : Prop where
  nonempty : line.toList ≠ []
  oneLine : '\n' ∉ line.toList
  first : line.toList.head?.any Text.isWhiteSpace = false
  last : line.toList.getLast?.any Text.isWhiteSpace = false
  inside : ¬ ['%', '\x7d'] <:+: line.toList

/-- What can name a snippet. -/
def Expression.NamesSnippet : Expression → Prop
  | string s => s.Spelled
  | lookup name steps => (lookup name steps).Spelled
  | _ => False

namespace Markup

/-- Known markup of a tag that opens a block. -/
def BlockSpelled (name : String) : Markup → Prop
  | condition test => (name = "if" ∨ name = "unless") ∧ test.Spelled
  | subject value => name = "case" ∧ value.Readable
  | loop item collection _ arguments =>
    (name = "for" ∨ name = "tablerow") ∧ Text.IsAskingName item.toList ∧ collection.Readable ∧
      ∀ a ∈ arguments, a.Spelled
  | target item => name = "capture" ∧ Text.IsAskingName item.toList
  | paginate collection pageSize arguments =>
    name = "paginate" ∧ collection.Readable ∧ pageSize.Readable ∧ ∀ a ∈ arguments, a.Spelled
  | _ => False

/-- Known markup of a tag that opens no block. -/
def LeafSpelled (name : String) : Markup → Prop
  | condition test => name = "elsif" ∧ test.Spelled
  | values choices => name = "when" ∧ choices ≠ [] ∧ ∀ e ∈ choices, e.Readable
  | assign item value => name = "assign" ∧ Text.IsAskingName item.toList ∧ value.Spelled
  | echo value => name = "echo" ∧ value.Spelled
  | cycle group choices =>
    name = "cycle" ∧ (∀ e ∈ group, e.Readable) ∧ choices ≠ [] ∧ ∀ e ∈ choices, e.Readable
  | snippet snippetName bound renamed arguments =>
    (name = "render" ∨ name = "include") ∧ snippetName.NamesSnippet ∧ (∀ b ∈ bound, b.2.Readable) ∧
      (∀ a ∈ renamed, Text.IsAskingName a.toList) ∧ ∀ a ∈ arguments, a.Spelled
  | target item => (name = "increment" ∨ name = "decrement") ∧ Text.IsAskingName item.toList
  | layout value => name = "layout" ∧ value.Readable
  | sectionName literal => name = "section" ∧ literal.Spelled
  | statements lines => name = "liquid" ∧ ∀ line ∈ lines, IsStatement line
  | _ => False

def norm (q : Quote) : Markup → Markup
  | plain text => plain text
  | condition test => condition (test.norm q)
  | subject value => subject (value.norm q)
  | values choices => values (choices.map (Expression.norm q))
  | loop item collection reversed arguments =>
    loop item (collection.norm q) reversed (arguments.map (NamedArgument.norm q))
  | assign item value => assign item (value.norm q)
  | echo value => echo (value.norm q)
  | cycle group choices => cycle (group.map (Expression.norm q)) (choices.map (Expression.norm q))
  | paginate collection pageSize arguments =>
    paginate (collection.norm q) (pageSize.norm q) (arguments.map (NamedArgument.norm q))
  | snippet name bound renamed arguments =>
    snippet (name.norm q) (bound.map fun b => (b.1, b.2.norm q)) renamed (arguments.map (NamedArgument.norm q))
  | target item => target item
  | layout value => layout (value.norm q)
  | sectionName literal => sectionName (literal.norm q)
  | statements lines => statements lines

end Markup

end LiquidTemplate
