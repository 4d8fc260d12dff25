import TypedApi.Config.Basic
import TypedApi.Yaml.Decoder
import TypedApi.Json.Printer

/-! Free values in settings, from YAML nodes.

Unlike a document, a setting knows the kinds of its keys: no two keys of a mapping may
be equal, but keys of different kinds may be written alike. A value with a local tag
is labelled. -/
namespace TypedApi.Config.Setting

open Yaml (Expansion Node Scalar Style Tag)

/-- The label that a tag puts on a value. A mark before the name is not repeated. -/
def labelOf? : Option Tag → Option String
  | some (.own name) =>
    match name.toList with
    | '!' :: _ :: _ => some name
    | _ => some ("!" ++ name)
  | _ => none

/-- The value of a scalar under its label. -/
def value? (s : String) (style : Style) (tag : Option Tag) : Option Json :=
  ((labelOf? tag).elim (Scalar.resolve? s style tag) fun _ =>
    some (Scalar.untagged s style)).bind Scalar.toJson?

/-- The text of a key: a text as it is, and any other value as JSON. -/
def keyText : Json → String
  | .str s => s
  | v => v.compact

/-- The members of a table, unless two of the keys are equal. -/
def members? (seen : List Json) : List (Json × Setting) → Option (List (String × Json))
  | [] => some []
  | (key, v) :: rest =>
    if seen.any key.same then none
    else (members? (key :: seen) rest).map ((keyText key, v.toJson) :: ·)

/-- The key that a node stands for. It is a scalar. -/
def key (n : Node) : Expansion Json := do
  match ← n.target with
  | .scalar s style tag => (value? s style tag : Option Json)
  | _ => failure

/-- The setting of a node that may hold so many levels. -/
def ofNode (room : Nat) (n : Node) : Expansion Setting := do
  let n ← n.target
  match room, n with
  | _, .scalar s style tag => return ⟨← (value? s style tag : Option Json), labelOf? tag⟩
  | room + 1, .sequence items tag =>
    return ⟨.arr ((← items.mapM (ofNode room)).map toJson), labelOf? tag⟩
  | room + 1, .mapping entries tag => do
    let entries ← entries.mapM fun (k, v) => return (← key k, ← ofNode room v)
    return ⟨.obj (← (members? [] entries : Option (List (String × Json)))), labelOf? tag⟩
  | _, _ => failure

end TypedApi.Config.Setting
