import TypedApi.Json.Decoder
import TypedApi.Json.Fields

/-! Validation rules of a type or a property.

Rules are data: they are carried into schemas and never evaluated. `overlay`
lays one set over another. -/
namespace TypedApi

inductive NumericType where
  | int32 | int64 | uint32 | uint64 | float | double
deriving DecidableEq, Repr

namespace NumericType

def name : NumericType → String
  | .int32 => "int32"
  | .int64 => "int64"
  | .uint32 => "uint32"
  | .uint64 => "uint64"
  | .float => "float"
  | .double => "double"

def all : List NumericType := [.int32, .int64, .uint32, .uint64, .float, .double]

def named? (s : String) : Option NumericType := all.find? (·.name == s)

theorem named?_name (t : NumericType) : named? t.name = some t := by
  cases t <;> decide

def isInteger : NumericType → Bool
  | .float | .double => false
  | _ => true

/-- The `format` keyword of the type: signed and unsigned share one. -/
def format : NumericType → String
  | .int32 | .uint32 => "int32"
  | .int64 | .uint64 => "int64"
  | .float => "float"
  | .double => "double"

end NumericType

inductive StringTransform where
  | trim | toLowerCase | toUpperCase
deriving DecidableEq, Repr

namespace StringTransform

def name : StringTransform → String
  | .trim => "trim"
  | .toLowerCase => "toLowerCase"
  | .toUpperCase => "toUpperCase"

def all : List StringTransform := [.trim, .toLowerCase, .toUpperCase]

def named? (s : String) : Option StringTransform := all.find? (·.name == s)

theorem named?_name (t : StringTransform) : named? t.name = some t := by
  cases t <;> decide

end StringTransform

structure Constraints where
  minimum : Option Json.Number := none
  maximum : Option Json.Number := none
  exclusiveMinimum : Option Json.Number := none
  exclusiveMaximum : Option Json.Number := none
  multipleOf : Option Json.Number := none
  numericType : Option NumericType := none
  minLength : Option Nat := none
  maxLength : Option Nat := none
  format : Option String := none
  pattern : Option String := none
  startsWith : Option String := none
  endsWith : Option String := none
  includes : Option String := none
  transforms : List StringTransform := []
  minItems : Option Nat := none
  maxItems : Option Nat := none
  uniqueItems : Option Bool := none
  coerce : Bool := false
  customValidator : Option String := none
  default : Option Json := none
  /-- Messages for the user, by the rule they belong to. -/
  errorMessages : List (String × String) := []
deriving Repr, Inhabited

namespace Constraints

/-- Adds a transform that is not there yet. -/
def addTransform (ts : List StringTransform) (t : StringTransform) : List StringTransform :=
  if ts.contains t then ts else ts ++ [t]

/-- Lays `top` over `base`: what `top` sets wins, transforms and messages add up,
and coercion stays on. -/
def overlay (base top : Constraints) : Constraints where
  minimum := top.minimum <|> base.minimum
  maximum := top.maximum <|> base.maximum
  exclusiveMinimum := top.exclusiveMinimum <|> base.exclusiveMinimum
  exclusiveMaximum := top.exclusiveMaximum <|> base.exclusiveMaximum
  multipleOf := top.multipleOf <|> base.multipleOf
  numericType := top.numericType <|> base.numericType
  minLength := top.minLength <|> base.minLength
  maxLength := top.maxLength <|> base.maxLength
  format := top.format <|> base.format
  pattern := top.pattern <|> base.pattern
  startsWith := top.startsWith <|> base.startsWith
  endsWith := top.endsWith <|> base.endsWith
  includes := top.includes <|> base.includes
  transforms := top.transforms.foldl addTransform base.transforms
  minItems := top.minItems <|> base.minItems
  maxItems := top.maxItems <|> base.maxItems
  uniqueItems := top.uniqueItems <|> base.uniqueItems
  coerce := base.coerce || top.coerce
  customValidator := top.customValidator <|> base.customValidator
  default := top.default <|> base.default
  errorMessages := top.errorMessages.foldl (fun acc m => Json.assign m.1 m.2 acc) base.errorMessages

/-! ### Writing and reading -/

open Json.Fields

def transformsJson (ts : List StringTransform) : Json := .arr (ts.map fun t => .str t.name)

def messagesJson (ms : List (String × String)) : Json := .obj (ms.map fun m => (m.1, .str m.2))

def encode (c : Constraints) : Json := .obj (
  present "minimum" c.minimum .num ++
  present "maximum" c.maximum .num ++
  present "exclusiveMinimum" c.exclusiveMinimum .num ++
  present "exclusiveMaximum" c.exclusiveMaximum .num ++
  present "multipleOf" c.multipleOf .num ++
  present "numericType" c.numericType (fun t => .str t.name) ++
  present "minLength" c.minLength .ofNat ++
  present "maxLength" c.maxLength .ofNat ++
  present "format" c.format .str ++
  present "pattern" c.pattern .str ++
  present "startsWith" c.startsWith .str ++
  present "endsWith" c.endsWith .str ++
  present "includes" c.includes .str ++
  nonEmpty "transforms" c.transforms transformsJson ++
  present "minItems" c.minItems .ofNat ++
  present "maxItems" c.maxItems .ofNat ++
  present "uniqueItems" c.uniqueItems .bool ++
  always "coerce" (.bool c.coerce) ++
  present "customValidator" c.customValidator .str ++
  present "default" c.default id ++
  nonEmpty "errorMessages" c.errorMessages messagesJson)

open Json (Draft Fault Layout Decoder)

/-- Puts a member in. Names may be written as for `Decoder.choice`. -/
def put (buffered : Bool) (c : Constraints) (key : String) (d : Draft) : Except Fault Constraints :=
  match key with
  | "minimum" => return { c with minimum := ← Decoder.option .number d }
  | "maximum" => return { c with maximum := ← Decoder.option .number d }
  | "exclusiveMinimum" => return { c with exclusiveMinimum := ← Decoder.option .number d }
  | "exclusiveMaximum" => return { c with exclusiveMaximum := ← Decoder.option .number d }
  | "multipleOf" => return { c with multipleOf := ← Decoder.option .number d }
  | "numericType" =>
    return { c with numericType := ← Decoder.option (.choice buffered NumericType.named?) d }
  | "minLength" => return { c with minLength := ← Decoder.option .nat d }
  | "maxLength" => return { c with maxLength := ← Decoder.option .nat d }
  | "format" => return { c with format := ← Decoder.option .text d }
  | "pattern" => return { c with pattern := ← Decoder.option .text d }
  | "startsWith" => return { c with startsWith := ← Decoder.option .text d }
  | "endsWith" => return { c with endsWith := ← Decoder.option .text d }
  | "includes" => return { c with includes := ← Decoder.option .text d }
  | "transforms" =>
    return { c with transforms := ← Decoder.list (.choice buffered StringTransform.named?) d }
  | "minItems" => return { c with minItems := ← Decoder.option .nat d }
  | "maxItems" => return { c with maxItems := ← Decoder.option .nat d }
  | "uniqueItems" => return { c with uniqueItems := ← Decoder.option .bool d }
  | "coerce" => return { c with coerce := ← Decoder.bool d }
  | "customValidator" => return { c with customValidator := ← Decoder.option .text d }
  | "default" => return { c with default := ← Decoder.option .value d }
  | "errorMessages" => return { c with errorMessages := ← Decoder.map .text d }
  | _ => return c

def layout (buffered : Bool) : Layout Constraints where
  known := ["minimum", "maximum", "exclusiveMinimum", "exclusiveMaximum", "multipleOf",
    "numericType", "minLength", "maxLength", "format", "pattern", "startsWith", "endsWith",
    "includes", "transforms", "minItems", "maxItems", "uniqueItems", "coerce",
    "customValidator", "default", "errorMessages"]
  init := {}
  put := put buffered

def decode : Decoder Constraints := (layout false).decode

/-- Decodes rules inside a value that was read before its place was known. -/
def decodeBuffered : Decoder Constraints := (layout true).decode

end Constraints
end TypedApi
