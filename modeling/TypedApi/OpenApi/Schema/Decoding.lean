import TypedApi.OpenApi.Schema
import TypedApi.Json.Decoder

/-! Schemas from JSON.

Members that are no keyword are kept as extensions. -/
namespace TypedApi.OpenApi

open Json (Draft Fault Layout Decoder)

/-- A string or a list of strings; the value is read in full before its kind is
looked at. -/
def TypeNames.decode : Decoder TypeNames := fun d => do
  let v ← d.value
  match v with
  | .str s => return .single s
  | .arr xs =>
    match xs.mapM Json.asString? with
    | some names => return .multiple names
    | none => .error .mismatch
  | _ => .error .mismatch

def Discriminator.layout : Layout Discriminator where
  known := ["propertyName", "mapping"]
  required := ["propertyName"]
  listed := ["propertyName", "mapping"]
  init := { propertyName := "" }
  put := fun m key d =>
    match key with
    | "propertyName" => return { m with propertyName := ← Decoder.text d }
    | _ => return { m with mapping := ← Decoder.option (.map .text) d }

/-- A truth value or a schema; the value is read in full first. -/
def Additional.decode (self : Decoder Schema) : Decoder Additional := fun d => do
  let _ ← d.value
  match d with
  | .bool b => return .bool b
  | d => ((self d).map Additional.schema).mapError fun _ => .mismatch

namespace Schema

def put (self : Decoder Schema) (s : Schema) (key : String) (d : Draft) : Except Fault Schema :=
  match key with
  | "$ref" => return { s with ref := ← Decoder.option .text d }
  | "type" => return { s with type := ← Decoder.option TypeNames.decode d }
  | "format" => return { s with format := ← Decoder.option .text d }
  | "title" => return { s with title := ← Decoder.option .text d }
  | "description" => return { s with description := ← Decoder.option .text d }
  | "properties" => return { s with properties := ← Decoder.option (.map self) d }
  | "required" => return { s with required := ← Decoder.option (.list .text) d }
  | "additionalProperties" =>
    return { s with additional := ← Decoder.option (Additional.decode self) d }
  | "items" => return { s with items := ← Decoder.option self d }
  | "prefixItems" => return { s with prefixItems := ← Decoder.option (.list self) d }
  | "minItems" => return { s with minItems := ← Decoder.option .nat d }
  | "maxItems" => return { s with maxItems := ← Decoder.option .nat d }
  | "uniqueItems" => return { s with uniqueItems := ← Decoder.option .bool d }
  | "enum" => return { s with enumValues := ← Decoder.option (.list .value) d }
  | "const" => return { s with constValue := ← Decoder.option .value d }
  | "anyOf" => return { s with anyOf := ← Decoder.option (.list self) d }
  | "oneOf" => return { s with oneOf := ← Decoder.option (.list self) d }
  | "allOf" => return { s with allOf := ← Decoder.option (.list self) d }
  | "not" => return { s with negated := ← Decoder.option self d }
  | "discriminator" =>
    return { s with discriminator := ← Decoder.option Discriminator.layout.decode d }
  | "readOnly" => return { s with readOnly := ← Decoder.option .bool d }
  | "writeOnly" => return { s with writeOnly := ← Decoder.option .bool d }
  | "deprecated" => return { s with deprecated := ← Decoder.option .bool d }
  | "default" => return { s with default := ← Decoder.option .value d }
  | "example" => return { s with example? := ← Decoder.option .value d }
  | "minimum" => return { s with minimum := ← Decoder.option .number d }
  | "maximum" => return { s with maximum := ← Decoder.option .number d }
  | "exclusiveMinimum" => return { s with exclusiveMinimum := ← Decoder.option .number d }
  | "exclusiveMaximum" => return { s with exclusiveMaximum := ← Decoder.option .number d }
  | "multipleOf" => return { s with multipleOf := ← Decoder.option .number d }
  | "minLength" => return { s with minLength := ← Decoder.option .nat d }
  | "maxLength" => return { s with maxLength := ← Decoder.option .nat d }
  | "pattern" => return { s with pattern := ← Decoder.option .text d }
  | "contentMediaType" => return { s with contentMediaType := ← Decoder.option .text d }
  | "contentSchema" => return { s with contentSchema := ← Decoder.option self d }
  | _ => return s

def keywords : List String :=
  ["$ref", "type", "format", "title", "description", "properties", "required",
    "additionalProperties", "items", "prefixItems", "minItems", "maxItems", "uniqueItems",
    "enum", "const", "anyOf", "oneOf", "allOf", "not", "discriminator", "readOnly", "writeOnly",
    "deprecated", "default", "example", "minimum", "maximum", "exclusiveMinimum",
    "exclusiveMaximum", "multipleOf", "minLength", "maxLength", "pattern", "contentMediaType",
    "contentSchema"]

def layout (self : Decoder Schema) : Layout Schema where
  known := keywords
  init := {}
  put := put self
  other := fun s key d => do
    let v ← d.value
    return { s with extensions := Json.assign key v s.extensions }

/-- Decodes a schema whose nesting is below `fuel`. -/
def decodeWithin : Nat → Decoder Schema
  | 0, _ => .error .malformed
  | fuel + 1, d => (layout (decodeWithin fuel)).decodeOpen d

/-- Decodes a schema. Each schema is a container of its own, so the nesting of the
draft bounds that of the schema. -/
def decode : Decoder Schema := fun d => decodeWithin (d.height + 1) d

end Schema
end TypedApi.OpenApi
