import TypedApi.OpenApi.Schema
import TypedApi.Json.Fields

/-! Schemas as JSON.

Keywords are written in a fixed order and only when present; the extensions
follow. -/
namespace TypedApi.OpenApi

open Json.Fields

def TypeNames.encode : TypeNames → Json
  | .single n => .str n
  | .multiple ns => texts ns

def Discriminator.encode (d : Discriminator) : Json := .obj (
  always "propertyName" (.str d.propertyName) ++
  present "mapping" d.mapping fun m => .obj (m.map fun e => (e.1, .str e.2)))

mutual
def Schema.encode : Schema → Json
  | { ref, type, format, title, description, properties, required, additional, items,
      prefixItems, minItems, maxItems, uniqueItems, enumValues, constValue, anyOf, oneOf, allOf,
      negated, discriminator, readOnly, writeOnly, deprecated, default, example?, minimum,
      maximum, exclusiveMinimum, exclusiveMaximum, multipleOf, minLength, maxLength, pattern,
      contentMediaType, contentSchema, extensions } => .obj (
    present "$ref" ref .str ++
    present "type" type TypeNames.encode ++
    present "format" format .str ++
    present "title" title .str ++
    present "description" description .str ++
    encodeProperties properties ++
    present "required" required texts ++
    encodeAdditional additional ++
    encodeOption "items" items ++
    encodeOptionList "prefixItems" prefixItems ++
    present "minItems" minItems .ofNat ++
    present "maxItems" maxItems .ofNat ++
    present "uniqueItems" uniqueItems .bool ++
    present "enum" enumValues .arr ++
    present "const" constValue id ++
    encodeOptionList "anyOf" anyOf ++
    encodeOptionList "oneOf" oneOf ++
    encodeOptionList "allOf" allOf ++
    encodeOption "not" negated ++
    present "discriminator" discriminator Discriminator.encode ++
    present "readOnly" readOnly .bool ++
    present "writeOnly" writeOnly .bool ++
    present "deprecated" deprecated .bool ++
    present "default" default id ++
    present "example" example? id ++
    present "minimum" minimum .num ++
    present "maximum" maximum .num ++
    present "exclusiveMinimum" exclusiveMinimum .num ++
    present "exclusiveMaximum" exclusiveMaximum .num ++
    present "multipleOf" multipleOf .num ++
    present "minLength" minLength .ofNat ++
    present "maxLength" maxLength .ofNat ++
    present "pattern" pattern .str ++
    present "contentMediaType" contentMediaType .str ++
    encodeOption "contentSchema" contentSchema ++
    extensions)
def encodeOption (key : String) : Option Schema → List (String × Json)
  | none => []
  | some s => [(key, s.encode)]
def encodeOptionList (key : String) : Option (List Schema) → List (String × Json)
  | none => []
  | some ss => [(key, .arr (encodeSchemas ss))]
def encodeSchemas : List Schema → List Json
  | [] => []
  | s :: ss => s.encode :: encodeSchemas ss
def encodeProperties : Option (List (String × Schema)) → List (String × Json)
  | none => []
  | some ps => [("properties", .obj (encodeNamed ps))]
def encodeNamed : List (String × Schema) → List (String × Json)
  | [] => []
  | (name, s) :: ps => (name, s.encode) :: encodeNamed ps
def encodeAdditional : Option Additional → List (String × Json)
  | none => []
  | some (.bool b) => [("additionalProperties", .bool b)]
  | some (.schema s) => [("additionalProperties", s.encode)]
end

end TypedApi.OpenApi
