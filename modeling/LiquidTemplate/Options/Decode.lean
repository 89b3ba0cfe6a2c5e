import LiquidTemplate.Options.Basic
import LiquidTemplate.Options.Numeral
import LiquidTemplate.Text.Quoted

/-!
# Reading options

Options are read from a table of settings, as a configuration file gives it. Settings that are missing keep
their defaults, and unknown ones are passed over. The settings about layout are read before the others, and
within each half in the order of their names, so the first fault in this order is the one reported.
-/

namespace LiquidTemplate

/-- A value of a configuration file. -/
inductive Setting where
  | null
  | bool (value : Bool)
  | integer (value : Int)
  | decimal (negative : Bool) (magnitude : Decimal.Binary)
  | string (value : String)
  | list (items : List Setting)
  | table (entries : List (String × Setting))
deriving Repr, Inhabited

/-- A written number as a value. -/
def Setting.ofNumeral (n : Numeral) : Setting :=
  match n.integer? with
  | some value => .integer value
  | none => .decimal n.negative n.magnitude

/-- Why options cannot be read. -/
inductive OptionFault where
  | wrongType (found : Setting) (wanted : String)
  /-- A number of columns below zero. -/
  | negative (value : Int)
  | unknownVariant (name : String) (variants : List String)
  /-- A variant given as a table with no key or several. -/
  | notOneKey
deriving Repr, Inhabited

/-! ## Messages -/

/-- Decimals in messages: an exponent is written from `1e+16` on and below `0.00001`. -/
def messageForm : Decimal.Form := ⟨-5, 15⟩

def Setting.describe : Setting → String
  | .null => "null"
  | .bool value => "boolean `" ++ toString value ++ "`"
  | .integer value => "integer `" ++ toString value ++ "`"
  | .decimal negative magnitude =>
    "floating point `" ++ (if negative then "-" else "") ++ magnitude.write messageForm ++ "`"
  | .string value => "string " ++ Text.quote value
  | .list _ => "sequence"
  | .table _ => "map"

/-- A list of names between backticks: two are joined by `or`, more follow `one of`. -/
def oneOf (names : List String) : String :=
  match names.map fun name => "`" ++ name ++ "`" with
  | [a, b] => a ++ " or " ++ b
  | quoted => "one of " ++ ", ".intercalate quoted

def OptionFault.message : OptionFault → String
  | .wrongType found wanted => "invalid type: " ++ found.describe ++ ", expected " ++ wanted
  | .negative value => "invalid value: integer `" ++ toString value ++ "`, expected usize"
  | .unknownVariant name variants => "unknown variant `" ++ name ++ "`, expected " ++ oneOf variants
  | .notOneKey => "invalid value: map, expected map with a single key"

/-! ## Reading -/

namespace Setting

def toNat : Setting → Except OptionFault Nat
  | .integer value => if value < 0 then .error (.negative value) else .ok value.toNat
  | s => .error (.wrongType s "usize")

def toBool : Setting → Except OptionFault Bool
  | .bool value => .ok value
  | s => .error (.wrongType s "a boolean")

def toText : Setting → Except OptionFault String
  | .string value => .ok value
  | s => .error (.wrongType s "a string")

/-- The variant of this name. -/
def variantNamed {α : Type} (variants : List (String × α)) (name : String) : Except OptionFault α :=
  match variants.lookup name with
  | some value => .ok value
  | none => .error (.unknownVariant name (variants.map Prod.fst))

/-- A variant, given by its name or as a table whose one key is the name. -/
def toVariant {α : Type} (variants : List (String × α)) : Setting → Except OptionFault α
  | .string name => variantNamed variants name
  | .table [(name, content)] => do
    let value ← variantNamed variants name
    match content with
    | .null | .table [] => .ok value
    | s => .error (.wrongType s "unit")
  | .table _ => .error .notOneKey
  | s => .error (.wrongType s "string or map")

/-- The setting of this name, or the default. -/
def field {α : Type} (entries : List (String × Setting)) (name : String) (read : Setting → Except OptionFault α)
    (default : α) : Except OptionFault α :=
  match entries.lookup name with
  | some s => read s
  | none => .ok default

end Setting

def LineBreak.variants : List (String × LineBreak) :=
  [("lf", .lf), ("crlf", .crlf)]

def Quote.variants : List (String × Quote) :=
  [("double", .double), ("single", .single)]

def Sensitivity.variants : List (String × Sensitivity) :=
  [("css", .css), ("strict", .strict), ("ignore", .ignore)]

/-- Read options from a table of settings. -/
def Options.ofSetting : Setting → Except OptionFault Options
  | .table entries => do
    let o : Options := {}
    let indentWidth ← Setting.field entries "indentWidth" Setting.toNat o.indentWidth
    let lineBreak ← Setting.field entries "lineBreak" (Setting.toVariant LineBreak.variants) o.lineBreak
    let printWidth ← Setting.field entries "printWidth" Setting.toNat o.printWidth
    let useTabs ← Setting.field entries "useTabs" Setting.toBool o.useTabs
    let htmlQuotes ← Setting.field entries "htmlQuotes" (Setting.toVariant Quote.variants) o.htmlQuotes
    let ignoreDirective ← Setting.field entries "ignoreCommentDirective" Setting.toText o.ignoreDirective
    let ignoreFileDirective ←
      Setting.field entries "ignoreFileCommentDirective" Setting.toText o.ignoreFileDirective
    let liquidQuotes ← Setting.field entries "liquidQuotes" (Setting.toVariant Quote.variants) o.liquidQuotes
    let scriptIndent ← Setting.field entries "scriptIndent" Setting.toBool o.scriptIndent
    let singleAttributePerLine ←
      Setting.field entries "singleAttributePerLine" Setting.toBool o.singleAttributePerLine
    let singleLineLinkTags ← Setting.field entries "singleLineLinkTags" Setting.toBool o.singleLineLinkTags
    let styleIndent ← Setting.field entries "styleIndent" Setting.toBool o.styleIndent
    let sensitivity ←
      Setting.field entries "whitespaceSensitivity" (Setting.toVariant Sensitivity.variants) o.sensitivity
    return { printWidth, useTabs, indentWidth, lineBreak, liquidQuotes, htmlQuotes, singleAttributePerLine,
             sensitivity, singleLineLinkTags, scriptIndent, styleIndent, ignoreFileDirective, ignoreDirective }
  | s => .error (.wrongType s "struct FormatOptions")

end LiquidTemplate
