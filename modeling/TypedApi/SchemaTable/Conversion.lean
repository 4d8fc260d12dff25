import TypedApi.SchemaTable.Basic
import TypedApi.SchemaTable.Rules
import TypedApi.SourceType.Registry

/-! Source types as schemas.

A named object, union, intersection or enumeration is stored in the table once
and referred to everywhere else. Its key is taken by an empty schema before its
parts are converted, so a type that contains itself ends in a reference. A
reference to a registered name stores the registered type in the same way.

The conversion of a type is a step on top of the conversion of its parts
(`bodyWith`, `siteWith`). Each step goes to a part of the type or into the
registry, and it goes into the registry only under a key that the table did not
have. So `steps` of them are enough, and `convert` needs no bound. -/
namespace TypedApi.SchemaTable

open OpenApi

/-- A computation on the table that may run out of steps. -/
abbrev Conversion := StateT SchemaTable Option

def typedArrays : List String :=
  ["Int8Array", "Uint8Array", "Uint8ClampedArray", "Int16Array", "Uint16Array", "Int32Array",
    "Uint32Array", "Float32Array", "Float64Array", "BigInt64Array", "BigUint64Array"]

def byteNatives : List String := ["ArrayBuffer", "SharedArrayBuffer", "Blob", "File", "Buffer"]

/-- The forms whose named types are stored in the table. -/
def isRegistrable : Form → Bool
  | .object .. => true
  | .union .. => true
  | .intersection _ => true
  | .enum _ => true
  | _ => false

def atomicSchema : Atomic → Schema
  | .string => .ofType "string"
  | .number => .ofType "number"
  | .boolean => .ofType "boolean"
  | .bigint => .formatted "integer" "int64"
  | .null => .ofType "null"
  | .undefined => {}

/-- An object schema in which every property is required. -/
def errorSchema : Schema :=
  { Schema.ofType "object" with
    properties := some [("message", .ofType "string"), ("name", .ofType "string")]
    required := some ["message", "name"] }

/-- The table under a key, with a placeholder while the schema is made. -/
def fill (key : String) (make : Conversion Schema) : Conversion Schema := do
  modify fun t => t.store key {}
  let s ← make
  modify fun t => t.store key s
  return .reference key

/-- A reference to the type of a name: to its entry in the table, else to that of
the registered type, which is stored with the null it may be. A name that is not
registered allows anything. -/
def refWith (registry : Registry) (body : SourceType → Conversion Schema) (target : String) :
    Conversion Schema := do
  let (key, t) := (← get).keyFor target
  set t
  if t.has key then return .reference key
  else
    match registry.get? target with
    | none => return {}
    | some type =>
      fill key do
        let s ← body type
        return if type.nullable then s.orNull else s

/-- A reference to a named type, stored at its first occurrence. -/
def namedWith (body : SourceType → Conversion Schema) (name : String) (type : SourceType) :
    Conversion Schema := do
  let (key, t) := (← get).keyFor name
  set t
  if t.has key then return .reference key else fill key (body type)

/-- The schema that stands where a type is used. -/
def siteWith (registry : Registry) (body : SourceType → Conversion Schema) (type : SourceType) :
    Conversion Schema := do
  let s ← match type.form, type.name with
    | .ref target, _ => refWith registry body target
    | form, some name => if isRegistrable form then namedWith body name type else body type
    | _, none => body type
  return if type.nullable then s.orNull else s

/-! ### The parts of a form -/

/-- What a property adds to the schema of its type. -/
def decorate (p : Property) (s : Schema) : Schema :=
  let s := match p.constraints with
    | some c => applyRules s c
    | none => s
  { s with
    readOnly := if p.readonly then some true else s.readOnly
    writeOnly := if p.writeOnly then some true else s.writeOnly
    description := p.description <|> s.description
    example? := p.example? <|> s.example? }

def objectWith (site : SourceType → Conversion Schema) (properties : List Property)
    (index : Option IndexSignature) (strictness : Strictness) : Conversion Schema := do
  let converted ← properties.mapM fun p => do return (p.name, decorate p (← site p.type))
  let required := (properties.filter (·.required)).map (·.name)
  let additional ← match index with
    | some signature => some <$> Additional.schema <$> site signature.value
    | none => pure (if strictness = .strict then some (.bool false) else none)
  return { Schema.ofType "object" with
    properties := if converted.isEmpty then none else some (Json.table converted)
    required := if required.isEmpty then none else some required
    additional := additional }

/-- The type that the items of a tuple element have: a rest element gives that of
its array. -/
def TupleElement.itemType (e : TupleElement) : SourceType :=
  if e.rest then
    match e.type.form with
    | .array element => element
    | _ => e.type
  else e.type

/-- A tuple has at least as many items as elements stand before the first optional
one, and no further items unless it has a rest. -/
def tupleWith (site : SourceType → Conversion Schema) (elements : List TupleElement) :
    Conversion Schema := do
  let converted ← elements.mapM fun e => do return (e.rest, ← site (TupleElement.itemType e))
  let fixed := (converted.filter (!·.1)).map (·.2)
  let rest := ((converted.filter (·.1)).map (·.2)).getLast?
  let needed := ((elements.filter (!·.rest)).takeWhile (!·.optional)).length
  return { Schema.ofType "array" with
    minItems := some needed
    items := rest
    maxItems := if rest.isSome then none else some fixed.length
    prefixItems := if fixed.isEmpty then none else some fixed }

/-- Drops a value that equals an earlier one. -/
def distinctValues (values : List Json) : List Json :=
  values.foldl (fun acc v => if acc.any fun w => w.same v then acc else acc ++ [v]) []

def literalValue? (type : SourceType) : Option Json :=
  match type.form with
  | .literal v => some v
  | _ => none

/-- The references of the members that a discriminator selects. -/
def mappingOf (d : Discriminant) (schemas : List Schema) : List (String × String) :=
  d.mapping.filterMap fun (value, i) => (schemas[i]?.bind (·.ref)).map fun r => (value, r)

/-- A union of literals enumerates its distinct values. Members that are undefined
do not count. -/
def unionWith (site : SourceType → Conversion Schema) (members : List SourceType)
    (discriminant : Option Discriminant) : Conversion Schema := do
  let members := members.filter (!·.isUndefined)
  if !members.isEmpty && members.all (·.isLiteral) then
    return { enumValues := some (distinctValues (members.filterMap literalValue?)) }
  else
    let schemas ← members.mapM site
    match discriminant with
    | some d =>
      let mapping := mappingOf d schemas
      return {
        oneOf := some schemas
        discriminator := some {
          propertyName := d.property
          mapping := if mapping.isEmpty then none else some mapping } }
    | none =>
      match schemas with
      | [s] => return s
      | _ => return { anyOf := some schemas }

def nativeWith (site : SourceType → Conversion Schema) (name : String)
    (args : List SourceType) : Conversion Schema :=
  match name with
  | "Date" => return .formatted "string" "date-time"
  | "RegExp" => return .formatted "string" "regex"
  | "URL" => return .formatted "string" "uri"
  | "Map" => do
    let additional ← match args[1]? with
      | some value => Additional.schema <$> site value
      | none => pure (.bool true)
    return { Schema.ofType "object" with additional := some additional }
  | "Set" => do
    let item ← match args[0]? with
      | some type => site type
      | none => pure {}
    return { Schema.arrayOf item with uniqueItems := some true }
  | "Promise" =>
    match args[0]? with
    | some type => site type
    | none => return {}
  | "Error" => return errorSchema
  | name =>
    if typedArrays.contains name then return .arrayOf (.ofType "number")
    else if byteNatives.contains name then return .formatted "string" "binary"
    else return .ofType "object"

def formWith (registry : Registry) (body : SourceType → Conversion Schema) :
    Form → Conversion Schema
  | .any | .unknown | .void => return {}
  | .never => return { negated := some {} }
  | .atomic a => return atomicSchema a
  | .literal v => return { constValue := some v }
  | .object ps index strictness => objectWith (siteWith registry body) ps index strictness
  | .array element => do return .arrayOf (← siteWith registry body element)
  | .tuple es => tupleWith (siteWith registry body) es
  | .union ms d => unionWith (siteWith registry body) ms d
  | .intersection ms => do return { allOf := some (← ms.mapM (siteWith registry body)) }
  | .enum ms => return { enumValues := some (ms.map (·.value)) }
  | .native name args => nativeWith (siteWith registry body) name args
  | .ref target => refWith registry body target

/-- The schema of a type without its name and its null, given that of its parts. -/
def bodyWith (registry : Registry) (body : SourceType → Conversion Schema) (type : SourceType) :
    Conversion Schema := do
  let s ← formWith registry body type.form
  let s := { s with description := type.description <|> s.description }
  return match type.constraints with
    | some c => applyRules s c
    | none => s

/-! ### Conversion -/

def bodyWithin (registry : Registry) : Nat → SourceType → Conversion Schema
  | 0, _ => failure
  | fuel + 1, type => bodyWith registry (bodyWithin registry fuel) type

def convertWithin (registry : Registry) (fuel : Nat) (type : SourceType) : Conversion Schema :=
  siteWith registry (bodyWithin registry fuel) type

/-- Enough steps for a type: one descent through it and one through each
registered type. -/
def steps (registry : Registry) (type : SourceType) : Nat :=
  (registry.size + 1) * (max type.height registry.height + 1)

/-- Converts a type, adding what it names to the table. -/
def convert (registry : Registry) (type : SourceType) (table : SchemaTable) :
    Schema × SchemaTable :=
  ((convertWithin registry (steps registry type) type).run table).getD ({}, table)

end TypedApi.SchemaTable
