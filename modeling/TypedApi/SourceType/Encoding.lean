import TypedApi.SourceType.Basic

/-! Types as JSON.

A type is one object: the name of its form under `kind`, the members of the
form, then the modifiers that are set. -/
namespace TypedApi

open Json.Fields

def Form.kind : Form → String
  | .any => "any"
  | .unknown => "unknown"
  | .never => "never"
  | .void => "void"
  | .atomic _ => "atomic"
  | .literal _ => "literal"
  | .object .. => "object"
  | .array _ => "array"
  | .tuple _ => "tuple"
  | .union .. => "union"
  | .intersection _ => "intersection"
  | .enum _ => "enum"
  | .native .. => "native"
  | .ref _ => "ref"

def EnumMember.encode (m : EnumMember) : Json :=
  .obj [("name", .str m.name), ("value", m.value)]

def Discriminant.encode (d : Discriminant) : Json :=
  .obj [("property", .str d.property), ("mapping", .obj (d.mapping.map fun e => (e.1, .ofNat e.2)))]

mutual
def SourceType.encode : SourceType → Json
  | { form, nullable, optional, name, description, constraints } => .obj (
    always "kind" (.str form.kind) ++ form.encodeMembers ++
    flag "nullable" nullable ++
    flag "optional" optional ++
    present "name" name .str ++
    present "description" description .str ++
    present "constraints" constraints Constraints.encode)
def Form.encodeMembers : Form → List (String × Json)
  | .atomic a => [("atomic", .str a.name)]
  | .literal v => [("value", v)]
  | .object ps index strictness =>
    always "properties" (.arr (encodeProperties ps)) ++ encodeIndex index ++
      always "strictness" (.str strictness.name)
  | .array e => [("element", e.encode)]
  | .tuple es => [("elements", .arr (encodeElements es))]
  | .union ms d =>
    always "members" (.arr (encodeTypes ms)) ++ present "discriminant" d Discriminant.encode
  | .intersection ms => [("members", .arr (encodeTypes ms))]
  | .enum ms => [("members", .arr (ms.map EnumMember.encode))]
  | .native n args =>
    always "native" (.str n) ++
      (if args.isEmpty then [] else [("type_args", .arr (encodeTypes args))])
  | .ref target => [("target", .str target)]
  | _ => []
def encodeTypes : List SourceType → List Json
  | [] => []
  | t :: ts => t.encode :: encodeTypes ts
def Property.encode : Property → Json
  | { name, type, required, readonly, writeOnly, description, example?, constraints } => .obj (
    always "name" (.str name) ++
    always "type" type.encode ++
    always "required" (.bool required) ++
    flag "readonly" readonly ++
    flag "write_only" writeOnly ++
    present "description" description .str ++
    present "example" example? id ++
    present "constraints" constraints Constraints.encode)
def encodeProperties : List Property → List Json
  | [] => []
  | p :: ps => p.encode :: encodeProperties ps
def TupleElement.encode : TupleElement → Json
  | { type, optional, rest } =>
    .obj [("type", type.encode), ("optional", .bool optional), ("rest", .bool rest)]
def encodeElements : List TupleElement → List Json
  | [] => []
  | e :: es => e.encode :: encodeElements es
def encodeIndex : Option IndexSignature → List (String × Json)
  | none => []
  | some { key, value } =>
    [("index_signature", .obj [("key", key.encode), ("value", value.encode)])]
end

end TypedApi
