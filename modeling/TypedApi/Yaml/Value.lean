import TypedApi.Yaml.Resolution
import TypedApi.Json.Decoder

/-! YAML documents as JSON values.

Keys are taken as the text they are written with. Aliases are expanded, but not
more often than a hundred times the size of the document, and nothing is nested
deeper than `nestingLimit`. -/
namespace TypedApi.Yaml

def nestingLimit : Nat := 128

/-- A computation that looks aliases up, and may do so only so many times. -/
abbrev Expansion := ReaderT (List (Nat × Option Node)) (StateT Nat Option)

/-- Runs a computation on the aliases of a document. -/
def Document.expand? {α : Type} (d : Document) (e : Expansion α) : Option α :=
  (e.run d.anchors).run' (100 * d.root.events)

/-- The node itself, or the one that it stands for. -/
def Node.target : Node → Expansion Node
  | .alias anchor => do
    match ← get with
    | 0 => failure
    | n + 1 => set n
    match (← read).lookup anchor with
    | some (some n) => return n
    | _ => failure
  | n => return n

namespace Scalar

def toJson? : Scalar → Option Json
  | .null => some .null
  | .bool b => some (.bool b)
  | .int n => some (.num (.int n))
  | .wide => none
  | .real d => some (.num (.real d))
  | .notFinite => some .null
  | .text s => some (.str s)

end Scalar

namespace Node

/-- The text of a scalar, whatever its tag. -/
def textOf (n : Node) : Expansion String := do
  match ← n.target with
  | .scalar s _ _ => return s
  | _ => failure

/-- The value of a node that may hold so many levels. -/
def toJson (room : Nat) (n : Node) : Expansion Json := do
  let n ← n.target
  match room, n with
  | _, .scalar s style tag => ((Scalar.resolve? s style tag).bind Scalar.toJson? : Option Json)
  | room + 1, .sequence items tag =>
    if tag.any Tag.isOwn then failure else return .arr (← items.mapM (toJson room))
  | room + 1, .mapping entries tag =>
    if tag.any Tag.isOwn then failure
    else return .obj (Json.table (← entries.mapM fun (k, v) => do
      return (← k.textOf, ← toJson room v)))
  | _, _ => failure

end Node

/-- The value of a text with at most one document; without one it is null. -/
def parse? (text : String) : Option Json := do
  match ← document? text with
  | none => return .null
  | some d => d.expand? (d.root.toJson nestingLimit)

end TypedApi.Yaml
