import TypedApi.OpenApi.Schema
import TypedApi.SourceType.Constraints

/-! Validation rules written onto schemas.

Rules that have a keyword set it; the others become extensions. -/
namespace TypedApi.SchemaTable

open OpenApi

/-- The characters that a pattern has to escape. -/
def patternSpecials : List Char := "\\.+*?()|[]\x7b\x7d^$#&-~".toList

/-- A pattern that matches exactly `s`. -/
def escapePattern (s : String) : String :=
  String.ofList (s.toList.flatMap fun c => if patternSpecials.contains c then ['\\', c] else [c])

/-- The checks on the start, the inside and the end of a text as one pattern. -/
def contentPattern (c : Constraints) : Option String :=
  match c.startsWith.map escapePattern, c.includes.map escapePattern,
    c.endsWith.map escapePattern with
  | none, none, none => none
  | some s, none, none => some ("^" ++ s)
  | none, some i, none => some i
  | none, none, some e => some (e ++ "$")
  | s, i, e =>
    let ahead (before : String) (text : Option String) (after : String) : String :=
      match text with
      | none => ""
      | some t => "(?=" ++ before ++ t ++ after ++ ")"
    some ("^" ++ ahead "" s "" ++ ahead ".*" i "" ++ ahead ".*" e "$")

/-- The type and format of a numeric type, on schemas of numbers only. -/
def applyNumericType (s : Schema) (t : NumericType) : Schema :=
  if s.type = some (.single "number") ∨ s.type = some (.single "integer") then
    { s with
      type := some (.single (if t.isInteger then "integer" else "number"))
      format := some t.format }
  else s

def transformsKey : String := "x-typebridge-transforms"
def coerceKey : String := "x-typebridge-coerce"
def validatorKey : String := "x-typebridge-validator"
def messagesKey : String := "x-typebridge-messages"

/-- The rules without a keyword, as extensions. -/
def ruleExtensions (c : Constraints) : List (String × Json) :=
  (if c.transforms.isEmpty then []
    else [(transformsKey, Constraints.transformsJson c.transforms)]) ++
  (if c.coerce then [(coerceKey, .bool true)] else []) ++
  (match c.customValidator with
    | some v => [(validatorKey, .str v)]
    | none => []) ++
  (if c.errorMessages.isEmpty then []
    else [(messagesKey, Constraints.messagesJson c.errorMessages)])

/-- Writes rules onto a schema. -/
def applyRules (s : Schema) (c : Constraints) : Schema :=
  let s := match c.numericType with
    | some t => applyNumericType s t
    | none => s
  { s with
    minimum := c.minimum <|> s.minimum
    maximum := c.maximum <|> s.maximum
    exclusiveMinimum := c.exclusiveMinimum <|> s.exclusiveMinimum
    exclusiveMaximum := c.exclusiveMaximum <|> s.exclusiveMaximum
    multipleOf := c.multipleOf <|> s.multipleOf
    minLength := c.minLength <|> s.minLength
    maxLength := c.maxLength <|> s.maxLength
    format := c.format <|> s.format
    minItems := c.minItems <|> s.minItems
    maxItems := c.maxItems <|> s.maxItems
    uniqueItems := c.uniqueItems <|> s.uniqueItems
    default := c.default <|> s.default
    pattern := c.pattern <|> contentPattern c <|> s.pattern
    extensions := (ruleExtensions c).foldl (fun acc e => Json.assign e.1 e.2 acc) s.extensions }

end TypedApi.SchemaTable
