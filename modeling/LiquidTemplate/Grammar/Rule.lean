/-!
# Rules of the grammar

The names that a syntax error may mention, in the order in which it lists them.
-/

namespace LiquidTemplate

/-- A named rule of the template grammar. -/
inductive Rule where
  | endOfInput
  | document
  | yamlFrontmatter
  | frontmatterBody
  | textNode
  | htmlComment
  | commentBody
  | htmlDoctype
  | doctypeBody
  | htmlRawTag
  | htmlRawOpen
  | htmlRawName
  | htmlRawBody
  | htmlRawClose
  | htmlTagOpen
  | htmlTagEnd
  | htmlTagClose
  | htmlTagName
  | tagNameText
  | attrName
  | attrNameText
  | attrDoubleQuoted
  | attrSingleQuoted
  | attrUnquoted
  | attrEmpty
  | attrValueDouble
  | attrValueSingle
  | attrValueUnquoted
  | attrTextDouble
  | attrTextSingle
  | attrTextUnquoted
  | trimStart
  | trimEnd
  | liquidDrop
  | dropMarkup
  | markupBaseDrop
  | liquidRawTag
  | rawTagOpen
  | rawTagName
  | rawTagBody
  | rawTagClose
  | liquidTagClose
  | liquidTagOpen
  | blockName
  | liquidTag
  | tagName
  | markupBase
  | markupIf
  | markupElsif
  | markupCase
  | markupWhen
  | markupFor
  | reversed
  | markupCapture
  | markupPaginate
  | markupAssign
  | markupEcho
  | markupCycle
  | cycleGroup
  | markupRender
  | renderVariable
  | renderKind
  | renderAlias
  | markupCounter
  | markupLayout
  | markupSection
  | markupLiquid
  | liquidLines
  | liquidCondition
  | logicalOperator
  | condition
  | comparison
  | comparator
  | liquidVariable
  | liquidFilter
  | filterName
  | namedArgument
  | argumentName
  | liquidString
  | liquidNumber
  | liquidLiteral
  | liquidRange
  | liquidVariableLookup
  | variableName
  | lookupDot
  | lookupName
  | lookupBracket
deriving DecidableEq, Repr, Inhabited

namespace Rule

/-- All rules, in the order in which they are listed. -/
def all : List Rule :=
  [.endOfInput, .document, .yamlFrontmatter, .frontmatterBody, .textNode, .htmlComment, .commentBody,
   .htmlDoctype, .doctypeBody, .htmlRawTag, .htmlRawOpen, .htmlRawName, .htmlRawBody, .htmlRawClose,
   .htmlTagOpen, .htmlTagEnd, .htmlTagClose, .htmlTagName, .tagNameText, .attrName, .attrNameText,
   .attrDoubleQuoted, .attrSingleQuoted, .attrUnquoted, .attrEmpty, .attrValueDouble, .attrValueSingle,
   .attrValueUnquoted, .attrTextDouble, .attrTextSingle, .attrTextUnquoted, .trimStart, .trimEnd,
   .liquidDrop, .dropMarkup, .markupBaseDrop, .liquidRawTag, .rawTagOpen, .rawTagName, .rawTagBody,
   .rawTagClose, .liquidTagClose, .liquidTagOpen, .blockName, .liquidTag, .tagName, .markupBase,
   .markupIf, .markupElsif, .markupCase, .markupWhen, .markupFor, .reversed, .markupCapture,
   .markupPaginate, .markupAssign, .markupEcho, .markupCycle, .cycleGroup, .markupRender,
   .renderVariable, .renderKind, .renderAlias, .markupCounter, .markupLayout, .markupSection,
   .markupLiquid, .liquidLines, .liquidCondition, .logicalOperator, .condition, .comparison,
   .comparator, .liquidVariable, .liquidFilter, .filterName, .namedArgument, .argumentName,
   .liquidString, .liquidNumber, .liquidLiteral, .liquidRange, .liquidVariableLookup, .variableName,
   .lookupDot, .lookupName, .lookupBracket]

/-- The name of a rule in a message. -/
def name : Rule → String
  | .endOfInput => "EOI"
  | .document => "document"
  | .yamlFrontmatter => "yaml_frontmatter"
  | .frontmatterBody => "frontmatter_body"
  | .textNode => "text_node"
  | .htmlComment => "html_comment"
  | .commentBody => "comment_body"
  | .htmlDoctype => "html_doctype"
  | .doctypeBody => "doctype_body"
  | .htmlRawTag => "html_raw_tag"
  | .htmlRawOpen => "html_raw_open"
  | .htmlRawName => "html_raw_name"
  | .htmlRawBody => "html_raw_body"
  | .htmlRawClose => "html_raw_close"
  | .htmlTagOpen => "html_tag_open"
  | .htmlTagEnd => "html_tag_end"
  | .htmlTagClose => "html_tag_close"
  | .htmlTagName => "html_tag_name"
  | .tagNameText => "tag_name_text"
  | .attrName => "attr_name"
  | .attrNameText => "attr_name_text"
  | .attrDoubleQuoted => "attr_double_quoted"
  | .attrSingleQuoted => "attr_single_quoted"
  | .attrUnquoted => "attr_unquoted"
  | .attrEmpty => "attr_empty"
  | .attrValueDouble => "attr_value_double"
  | .attrValueSingle => "attr_value_single"
  | .attrValueUnquoted => "attr_value_unquoted"
  | .attrTextDouble => "attr_text_double"
  | .attrTextSingle => "attr_text_single"
  | .attrTextUnquoted => "attr_text_unquoted"
  | .trimStart => "trim_start"
  | .trimEnd => "trim_end"
  | .liquidDrop => "liquid_drop"
  | .dropMarkup => "drop_markup"
  | .markupBaseDrop => "markup_base_drop"
  | .liquidRawTag => "liquid_raw_tag"
  | .rawTagOpen => "raw_tag_open"
  | .rawTagName => "raw_tag_name"
  | .rawTagBody => "raw_tag_body"
  | .rawTagClose => "raw_tag_close"
  | .liquidTagClose => "liquid_tag_close"
  | .liquidTagOpen => "liquid_tag_open"
  | .blockName => "block_name"
  | .liquidTag => "liquid_tag"
  | .tagName => "tag_name"
  | .markupBase => "markup_base"
  | .markupIf => "markup_if"
  | .markupElsif => "markup_elsif"
  | .markupCase => "markup_case"
  | .markupWhen => "markup_when"
  | .markupFor => "markup_for"
  | .reversed => "reversed"
  | .markupCapture => "markup_capture"
  | .markupPaginate => "markup_paginate"
  | .markupAssign => "markup_assign"
  | .markupEcho => "markup_echo"
  | .markupCycle => "markup_cycle"
  | .cycleGroup => "cycle_group"
  | .markupRender => "markup_render"
  | .renderVariable => "render_variable"
  | .renderKind => "render_kind"
  | .renderAlias => "render_alias"
  | .markupCounter => "markup_counter"
  | .markupLayout => "markup_layout"
  | .markupSection => "markup_section"
  | .markupLiquid => "markup_liquid"
  | .liquidLines => "liquid_lines"
  | .liquidCondition => "liquid_condition"
  | .logicalOperator => "logical_operator"
  | .condition => "condition"
  | .comparison => "comparison"
  | .comparator => "comparator"
  | .liquidVariable => "liquid_variable"
  | .liquidFilter => "liquid_filter"
  | .filterName => "filter_name"
  | .namedArgument => "named_argument"
  | .argumentName => "argument_name"
  | .liquidString => "liquid_string"
  | .liquidNumber => "liquid_number"
  | .liquidLiteral => "liquid_literal"
  | .liquidRange => "liquid_range"
  | .liquidVariableLookup => "liquid_variable_lookup"
  | .variableName => "variable_name"
  | .lookupDot => "lookup_dot"
  | .lookupName => "lookup_name"
  | .lookupBracket => "lookup_bracket"

/-- The rules of a list without repetition, in the order in which they are listed. -/
def sorted (rules : List Rule) : List Rule :=
  all.filter (rules.contains ·)

/-- The rules as a message lists them. -/
def listing : List Rule → String
  | [] => ""
  | [a] => a.name
  | [a, b] => a.name ++ " or " ++ b.name
  | rules => ", ".intercalate (rules.dropLast.map name) ++ ", or " ++ (rules.getLast?.map name).getD ""

end Rule

end LiquidTemplate
