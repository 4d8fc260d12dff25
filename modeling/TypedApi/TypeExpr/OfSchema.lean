import TypedApi.TypeExpr.Basic
import TypedApi.Text.Search

/-! Type expressions of schemas.

Schemas are read as plain JSON values and by best effort: what is not understood
is unknown. The schemas inside a schema are read first, each under its keyword
(`Part`), and then put together by the keywords that are present. -/
namespace TypedApi.TypeExpr

/-- The schemas inside a schema that stand under one keyword. -/
inductive Part where
  | none
  | schema (type : TypeExpr)
  | schemas (types : List TypeExpr)
  | members (members : List Member)

/-- The parts of a schema by keyword. -/
abbrev Parts := List (String × Part)

namespace Parts

def schema? (ps : Parts) (key : String) : Option TypeExpr :=
  match ps.lookup key with
  | some (.schema t) => some t
  | _ => Option.none

def schemas? (ps : Parts) (key : String) : Option (List TypeExpr) :=
  match ps.lookup key with
  | some (.schemas ts) => some ts
  | _ => Option.none

def members (ps : Parts) : List Member :=
  match ps.lookup "properties" with
  | some (.members ms) => ms
  | _ => []

end Parts

def hasKey (entries : List (String × Json)) (key : String) : Bool := (entries.lookup key).isSome

def textAt (entries : List (String × Json)) (key : String) : Option String :=
  (entries.lookup key).bind Json.asString?

def boolAt (entries : List (String × Json)) (key : String) : Option Bool :=
  (entries.lookup key).bind Json.asBool?

/-- The last part of a reference. -/
def refName (reference : String) : String :=
  String.ofList (Text.afterLast '/' reference.toList)

/-! ### Shapes -/

def objectOf (entries : List (String × Json)) (parts : Parts) : TypeExpr :=
  let required :=
    (((entries.lookup "required").bind Json.asArray?).getD []).filterMap Json.asString?
  let members := parts.members.map fun m => { m with required := required.contains m.name }
  let additional := match entries.lookup "additionalProperties" with
    | some (.bool true) => some Additional.any
    | some (.bool false) => some .forbidden
    | some (.obj []) => some .any
    | some (.obj _) => (parts.schema? "additionalProperties").map Additional.of
    | _ => none
  .object members additional

def arrayOf (entries : List (String × Json)) (parts : Parts) : TypeExpr :=
  match parts.schemas? "prefixItems" with
  | some elements =>
    let rest := match entries.lookup "items" with
      | some (.obj _) => parts.schema? "items"
      | _ => none
    .tuple elements rest
  | none => .array ((parts.schema? "items").getD .unknown)

/-- The shape that the name of a type asks for. -/
def typed (entries : List (String × Json)) (parts : Parts) (kind : String) : TypeExpr :=
  let format := textAt entries "format"
  match kind with
  | "string" => if format = some "binary" then .binary else .primitive .string format
  | "integer" => .primitive .integer format
  | "number" => .primitive .number format
  | "boolean" => .primitive .boolean format
  | "null" => null
  | "array" => arrayOf entries parts
  | "object" => objectOf entries parts
  | _ => .unknown

/-- Several names of types are alternatives; `null` among them adds null. -/
def typedAny (entries : List (String × Json)) (parts : Parts) (kinds : List String) : TypeExpr :=
  let t := match (kinds.filter (· != "null")).map (typed entries parts) with
    | [] => null
    | [t] => t
    | ts => .union ts none
  if kinds.contains "null" then t.orNull else t

def alternatives (entries : List (String × Json)) : List TypeExpr → TypeExpr
  | [t] => t
  | ts =>
    .union ts (((entries.lookup "discriminator").bind (·.get? "propertyName")).bind Json.asString?)

/-- Properties beside `allOf` belong to the composition. -/
def composition (entries : List (String × Json)) (parts : Parts) (ts : List TypeExpr) : TypeExpr :=
  match ts ++ (if hasKey entries "properties" then [objectOf entries parts] else []) with
  | [t] => t
  | ts => .intersection ts

def byType (entries : List (String × Json)) (parts : Parts) : TypeExpr :=
  match entries.lookup "type" with
  | some (.str kind) => typed entries parts kind
  | some (.arr kinds) => typedAny entries parts (kinds.filterMap Json.asString?)
  | _ =>
    if hasKey entries "properties" || hasKey entries "additionalProperties" then
      objectOf entries parts
    else if hasKey entries "items" || hasKey entries "prefixItems" then arrayOf entries parts
    else .unknown

/-- The shape of a schema without its `nullable`. The first of `const`, `enum`,
`oneOf`, `anyOf`, `allOf` and `type` that is there decides. -/
def shape (entries : List (String × Json)) (parts : Parts) : TypeExpr :=
  match entries.lookup "const" with
  | some v => .const v
  | none =>
    match (entries.lookup "enum").bind Json.asArray? with
    | some vs => .enum vs
    | none =>
      match parts.schemas? "oneOf" with
      | some ts => alternatives entries ts
      | none =>
        match parts.schemas? "anyOf" with
        | some ts => alternatives entries ts
        | none =>
          match parts.schemas? "allOf" with
          | some ts => composition entries parts ts
          | none => byType entries parts

def assemble (entries : List (String × Json)) (parts : Parts) : TypeExpr :=
  match textAt entries "$ref" with
  | some r => .ref (refName r)
  | none =>
    let t := shape entries parts
    if boolAt entries "nullable" = some true then t.orNull else t

/-- The keywords whose value is one schema. -/
def schemaKeywords : List String := ["items", "additionalProperties"]

/-- The keywords whose value is a list of schemas. -/
def schemasKeywords : List String := ["oneOf", "anyOf", "allOf", "prefixItems"]

mutual
def ofSchema : Json → TypeExpr
  | .obj entries => assemble entries (partsOf entries)
  | _ => .unknown
def partsOf : List (String × Json) → Parts
  | [] => []
  | (key, v) :: rest =>
    (key,
      if key = "properties" then partOfProperties v
      else if schemasKeywords.contains key then partOfList v
      else if schemaKeywords.contains key then .schema (ofSchema v)
      else .none) :: partsOf rest
def partOfProperties : Json → Part
  | .obj properties => .members (membersOf properties)
  | _ => .none
def membersOf : List (String × Json) → List Member
  | [] => []
  | (name, v) :: rest =>
    { name
      type := ofSchema v
      description := (v.get? "description").bind Json.asString?
      readOnly := (v.get? "readOnly").bind Json.asBool? == some true } :: membersOf rest
def partOfList : Json → Part
  | .arr xs => .schemas (schemasOf xs)
  | _ => .none
def schemasOf : List Json → List TypeExpr
  | [] => []
  | x :: xs => ofSchema x :: schemasOf xs
end

end TypedApi.TypeExpr
