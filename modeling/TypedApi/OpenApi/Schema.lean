import TypedApi.Json.Basic
import TypedApi.Text.Search

/-! The part of JSON Schema that documents use.

A keyword that is absent is `none`; members that are no keyword are kept in
`extensions`. -/
namespace TypedApi.OpenApi

/-- A type name, or several of them. -/
inductive TypeNames where
  | single (name : String)
  | multiple (names : List String)
deriving DecidableEq, Repr

structure Discriminator where
  propertyName : String
  mapping : Option (List (String × String)) := none
deriving DecidableEq, Repr

mutual
structure Schema where
  ref : Option String := none
  type : Option TypeNames := none
  format : Option String := none
  title : Option String := none
  description : Option String := none
  properties : Option (List (String × Schema)) := none
  required : Option (List String) := none
  additional : Option Additional := none
  items : Option Schema := none
  prefixItems : Option (List Schema) := none
  minItems : Option Nat := none
  maxItems : Option Nat := none
  uniqueItems : Option Bool := none
  enumValues : Option (List Json) := none
  constValue : Option Json := none
  anyOf : Option (List Schema) := none
  oneOf : Option (List Schema) := none
  allOf : Option (List Schema) := none
  negated : Option Schema := none
  discriminator : Option Discriminator := none
  readOnly : Option Bool := none
  writeOnly : Option Bool := none
  deprecated : Option Bool := none
  default : Option Json := none
  example? : Option Json := none
  minimum : Option Json.Number := none
  maximum : Option Json.Number := none
  exclusiveMinimum : Option Json.Number := none
  exclusiveMaximum : Option Json.Number := none
  multipleOf : Option Json.Number := none
  minLength : Option Nat := none
  maxLength : Option Nat := none
  pattern : Option String := none
  contentMediaType : Option String := none
  contentSchema : Option Schema := none
  extensions : List (String × Json) := []

/-- What an object allows besides its declared properties. -/
inductive Additional where
  | bool (allowed : Bool)
  | schema (schema : Schema)
end

instance : Inhabited Schema := ⟨{}⟩

/-- Where the schemas of components stand in a document. -/
def componentRoot : String := "#/components/schemas/"

def componentRef (key : String) : String := componentRoot ++ key

namespace Schema

def ofType (name : String) : Schema := { type := some (.single name) }

def formatted (name format : String) : Schema :=
  { type := some (.single name), format := some format }

def reference (key : String) : Schema := { ref := some (componentRef key) }

def arrayOf (items : Schema) : Schema := { type := some (.single "array"), items := some items }

/-- The schema or null. -/
def orNull (s : Schema) : Schema := { anyOf := some [s, ofType "null"] }

def isArray (s : Schema) : Bool := s.type == some (.single "array")

/-- The key of the component that the schema refers to. -/
def refKey? (s : Schema) : Option String := s.ref.bind (Text.afterPrefixText? componentRoot)

end Schema
end TypedApi.OpenApi
