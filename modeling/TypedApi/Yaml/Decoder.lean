import TypedApi.Yaml.Value

/-! Records from YAML nodes.

A decoder is given the room that is left for nesting. A text is any scalar, as it
is written, and a place where nothing is written may stand for an empty list or an
empty mapping. -/
namespace TypedApi.Yaml

abbrev Decoder (α : Type) := Nat → Node → Expansion α

/-- Hands the node that an alias stands for to a decoder. -/
def Decoder.direct {α : Type} (decode : Decoder α) : Decoder α := fun room n => do
  decode room (← n.target)

namespace Node

/-- Nothing is written. -/
def isBlank : Node → Bool
  | .scalar "" .plain _ => true
  | _ => false

end Node

namespace Decoder

def text : Decoder String := fun _ n => n.textOf

/-- A plain scalar, or a literal block with the tag of truth values. -/
def bool : Decoder Bool := direct fun _ n =>
  match n with
  | .scalar s .plain _ => (Scalar.bool? s : Option Bool)
  | .scalar s .literal (some .bool) => (Scalar.bool? s : Option Bool)
  | _ => failure

/-- Whether a node stands for the absence of a value. -/
def isNone : Decoder Bool := fun _ n =>
  match n with
  | .scalar s .plain none => return s.isEmpty || Scalar.isNull s
  | .scalar s .plain (some .null) => if Scalar.isNull s then return true else failure
  | _ => return false

def option {α : Type} (decode : Decoder α) : Decoder (Option α) := direct fun room n => do
  if ← isNone room n then return none else some <$> decode room n

def items {α : Type} (decode : Decoder α) (room : Nat) : List Node → Expansion (List α)
  | [] => return []
  | n :: ns => do
    let a ← decode room n
    return a :: (← items decode room ns)

def list {α : Type} (decode : Decoder α) : Decoder (List α) := direct fun room n =>
  match n with
  | .sequence ns _ => if room = 0 then failure else items decode (room - 1) ns
  | n => if n.isBlank then return [] else failure

def entries {α : Type} (decode : Decoder α) (room : Nat) :
    List (Node × Node) → Expansion (List (String × α))
  | [] => return []
  | (k, n) :: es => do
    let key ← k.textOf
    let a ← decode room n
    return (key, a) :: (← entries decode room es)

/-- A table with text keys. The last value of a key counts. -/
def map {α : Type} (decode : Decoder α) : Decoder (List (String × α)) := direct fun room n =>
  match n with
  | .mapping es _ => if room = 0 then failure else Json.table <$> entries decode (room - 1) es
  | n => if n.isBlank then return [] else failure

/-- One of several names: a scalar, or the local tag of a place without a value. -/
def choice {α : Type} (named? : String → Option α) : Decoder α := direct fun _ n =>
  match n with
  | .scalar s .plain (some (.own name)) =>
    if s.isEmpty || Scalar.isNull s then (named? name : Option α) else failure
  | .scalar _ _ (some (.own _)) => failure
  | .scalar s _ _ => (named? s : Option α)
  | _ => failure

end Decoder

/-- A field of a record: its name, and what its value does to the record. -/
abbrev Field (α : Type) := String × (α → Decoder α)

def field {α β : Type} (name : String) (decode : Decoder β) (set : α → β → α) : Field α :=
  (name, fun a room n => set a <$> decode room n)

/-- How a mapping becomes a record. Other fields are passed over, a field may come
once, and the required ones have to come. -/
structure Layout (α : Type) where
  init : α
  required : List String := []
  fields : List (Field α)

namespace Layout

/-- Takes the fields in turn; `seen` are the names that have come. -/
def run {α : Type} (layout : Layout α) (room : Nat) (seen : List String) (a : α) :
    List (Node × Node) → Expansion α
  | [] => if layout.required.all seen.contains then return a else failure
  | (k, n) :: es => do
    let key ← k.textOf
    match layout.fields.lookup key with
    | none => run layout room seen a es
    | some put =>
      if seen.contains key then failure
      else
        let a ← put a room n
        run layout room (key :: seen) a es

def decode {α : Type} (layout : Layout α) : Decoder α := Decoder.direct fun room n =>
  match n with
  | .mapping es _ => if room = 0 then failure else layout.run (room - 1) [] layout.init es
  | n => if n.isBlank then layout.run room [] layout.init [] else failure

end Layout

/-- Decodes the one document of a text. A text without one is a blank place. -/
def Decoder.run? {α : Type} (decode : Decoder α) (text : String) : Option α := do
  let d := (← document? text).getD { root := .blank }
  d.expand? (decode nestingLimit d.root)

end TypedApi.Yaml
