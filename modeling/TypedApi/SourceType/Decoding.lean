import TypedApi.SourceType.Basic

/-! Types from JSON.

The modifiers of a type are decoded where they stand. All its other members are
read as values first and looked at once the object has ended, because only then
is its form known; what is wrong with them is then a matter of shape. So the types
inside a type are decoded from buffered values, down to their modifiers. -/
namespace TypedApi

open Json (Draft Fault Layout Decoder)

/-- Members of an object that were read as values. -/
abbrev Buffered := List (String × Draft)

namespace Buffered

/-- The one member with a key. -/
def only? (ms : Buffered) (key : String) : Except Fault (Option Draft) :=
  match ms.filter (·.1 == key) with
  | [] => .ok none
  | [(_, d)] => .ok (some d)
  | _ => .error .mismatch

def need {α : Type} (ms : Buffered) (key : String) (decode : Decoder α) : Except Fault α := do
  match ← ms.only? key with
  | some d => decode d
  | none => .error .mismatch

def withDefault {α : Type} (ms : Buffered) (key : String) (default : α) (decode : Decoder α) :
    Except Fault α := do
  match ← ms.only? key with
  | some d => decode d
  | none => return default

end Buffered

def EnumMember.layout : Layout EnumMember where
  known := ["name", "value"]
  required := ["name", "value"]
  init := ⟨"", .null⟩
  put := fun m key d =>
    match key with
    | "name" => return { m with name := ← Decoder.text d }
    | _ => return { m with value := ← Decoder.value d }

def Discriminant.layout : Layout Discriminant where
  known := ["property", "mapping"]
  required := ["property", "mapping"]
  init := ⟨"", []⟩
  put := fun m key d =>
    match key with
    | "property" => return { m with property := ← Decoder.text d }
    | _ => return { m with mapping := ← Decoder.map .nat d }

def Property.layout (self : Decoder SourceType) : Layout Property where
  known := ["name", "type", "required", "readonly", "write_only", "description", "example",
    "constraints"]
  required := ["name", "type"]
  init := { name := "", type := default }
  put := fun p key d =>
    match key with
    | "name" => return { p with name := ← Decoder.text d }
    | "type" => return { p with type := ← self d }
    | "required" => return { p with required := ← Decoder.bool d }
    | "readonly" => return { p with readonly := ← Decoder.bool d }
    | "write_only" => return { p with writeOnly := ← Decoder.bool d }
    | "description" => return { p with description := ← Decoder.option .text d }
    | "example" => return { p with example? := ← Decoder.option .value d }
    | _ => return { p with constraints := ← Decoder.option Constraints.decodeBuffered d }

def TupleElement.layout (self : Decoder SourceType) : Layout TupleElement where
  known := ["type", "optional", "rest"]
  required := ["type"]
  init := { type := default }
  put := fun e key d =>
    match key with
    | "type" => return { e with type := ← self d }
    | "optional" => return { e with optional := ← Decoder.bool d }
    | _ => return { e with rest := ← Decoder.bool d }

def IndexSignature.layout (self : Decoder SourceType) : Layout IndexSignature where
  known := ["key", "value"]
  required := ["key", "value"]
  init := { key := default, value := default }
  put := fun s key d =>
    match key with
    | "key" => return { s with key := ← self d }
    | _ => return { s with value := ← self d }

namespace Form

/-- The names of the forms; a form may also be given by its place among them. -/
def kinds : List String :=
  ["any", "unknown", "never", "void", "atomic", "literal", "object", "array", "tuple", "union",
    "intersection", "enum", "native", "ref"]

def kind? : Decoder String
  | .str s => if kinds.contains s then .ok s else .error .mismatch
  | .num (.int n) =>
    if 0 ≤ n then (match kinds[n.toNat]? with | some s => .ok s | none => .error .mismatch)
    else .error .mismatch
  | d => .error d.refusal

/-- The form that the members besides the modifiers describe. -/
def ofMembers (self : Decoder SourceType) (ms : Buffered) : Except Fault Form := do
  match ← ms.need "kind" kind? with
  | "any" => return .any
  | "unknown" => return .unknown
  | "never" => return .never
  | "void" => return .void
  | "atomic" => return .atomic (← ms.need "atomic" (.choice true Atomic.named?))
  | "literal" => return .literal (← ms.need "value" .value)
  | "object" =>
    return .object
      (← ms.withDefault "properties" [] (.list (Property.layout self).decode))
      (← ms.withDefault "index_signature" none (.option (IndexSignature.layout self).decode))
      (← ms.withDefault "strictness" .strip (.choice true Strictness.named?))
  | "array" => return .array (← ms.need "element" self)
  | "tuple" => return .tuple (← ms.need "elements" (.list (TupleElement.layout self).decode))
  | "union" =>
    return .union (← ms.need "members" (.list self))
      (← ms.withDefault "discriminant" none (.option Discriminant.layout.decode))
  | "intersection" => return .intersection (← ms.need "members" (.list self))
  | "enum" => return .enum (← ms.need "members" (.list EnumMember.layout.decode))
  | "native" =>
    return .native (← ms.need "native" .text) (← ms.withDefault "type_args" [] (.list self))
  | _ => return .ref (← ms.need "target" .text)

end Form

namespace SourceType

/-- The modifiers met so far, and the other members, last one first. -/
structure Partial where
  modifiers : SourceType := { form := .any }
  others : Buffered := []

def layout (buffered : Bool) : Layout Partial where
  known := ["nullable", "optional", "name", "description", "constraints"]
  init := {}
  put := fun p key d =>
    match key with
    | "nullable" =>
      return { p with modifiers := { p.modifiers with nullable := ← Decoder.bool d } }
    | "optional" =>
      return { p with modifiers := { p.modifiers with optional := ← Decoder.bool d } }
    | "name" =>
      return { p with modifiers := { p.modifiers with name := ← Decoder.option .text d } }
    | "description" =>
      return { p with modifiers := { p.modifiers with description := ← Decoder.option .text d } }
    | _ => do
      let rules := if buffered then Constraints.decodeBuffered else Constraints.decode
      let c ← Decoder.option rules d
      return { p with modifiers := { p.modifiers with constraints := c } }
  other := fun p key d => do
    let _ ← d.value
    return { p with others := (key, d) :: p.others }

/-- Decodes a type whose nesting is below `fuel`. The types inside it are buffered. -/
def decodeWithin (buffered : Bool) : Nat → Decoder SourceType
  | 0, _ => .error .malformed
  | fuel + 1, d => do
    let p ← (layout buffered).decodeOpen d
    let form := Form.ofMembers (decodeWithin true fuel) p.others.reverse
    return { p.modifiers with form := ← form.mapError fun _ => .mismatch }

/-- Decodes a type. Each type is a container of its own, so the nesting of the
draft bounds that of the type. -/
def decode : Decoder SourceType := fun d => decodeWithin false (d.height + 1) d

end SourceType
end TypedApi
