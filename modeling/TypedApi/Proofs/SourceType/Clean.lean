import TypedApi.Proofs.Json.Reading
import TypedApi.SourceType.Registry

/-! Source types whose data can stand in a text.

`All P` says that `P` holds of a type and of every type inside it. A type is `Clean` when the
values and numbers it carries are readable, its sizes have 64 bits and no key of a table
comes twice. -/
namespace TypedApi

open Json (Number)

/-! ### Types inside a type -/

/-- The types that stand directly in a form. -/
def Form.types : Form → List SourceType
  | .object ps index _ => ps.map (·.type) ++ index.toList.flatMap fun i => [i.key, i.value]
  | .array element => [element]
  | .tuple es => es.map (·.type)
  | .union ms _ => ms
  | .intersection ms => ms
  | .native _ args => args
  | _ => []

namespace SourceType

/-- `P` holds of a type and of every type inside it. -/
inductive All (P : SourceType → Prop) : SourceType → Prop where
  | intro {t : SourceType} : P t → (∀ u ∈ t.form.types, All P u) → All P t

variable {P : SourceType → Prop} {t : SourceType}

theorem All.here (h : t.All P) : P t := by
  cases h with
  | intro hp _ => exact hp

theorem All.inside (h : t.All P) : ∀ u ∈ t.form.types, u.All P := by
  cases h with
  | intro _ hu => exact hu

end SourceType

/-! ### Clean types -/

namespace Constraints

def numbers (c : Constraints) : List Number :=
  c.minimum.toList ++ c.maximum.toList ++ c.exclusiveMinimum.toList ++ c.exclusiveMaximum.toList ++
    c.multipleOf.toList

def sizes (c : Constraints) : List Nat :=
  c.minLength.toList ++ c.maxLength.toList ++ c.minItems.toList ++ c.maxItems.toList

structure Clean (c : Constraints) : Prop where
  numbers : ∀ n ∈ c.numbers, n.Readable
  sizes : ∀ n ∈ c.sizes, n < 2 ^ 64
  default : ∀ v ∈ c.default, v.Given
  messages : (c.errorMessages.map (·.1)).Nodup

end Constraints

structure Property.Clean (p : Property) : Prop where
  constraints : ∀ c ∈ p.constraints, c.Clean
  example? : ∀ v ∈ p.example?, v.Given

/-- What a form holds besides types. -/
def Form.Clean : Form → Prop
  | .literal v => v.Readable
  | .object ps _ _ => ∀ p ∈ ps, p.Clean
  | .tuple es => es.length < 2 ^ 64
  | .union _ d => ∀ x ∈ d, (x.mapping.map (·.1)).Nodup
  | .enum ms => ∀ m ∈ ms, m.value.Readable
  | _ => True

/-- The data of one type, without the types inside it. -/
structure SourceType.CleanNode (t : SourceType) : Prop where
  constraints : ∀ c ∈ t.constraints, c.Clean
  form : t.form.Clean

def SourceType.Clean (t : SourceType) : Prop := t.All CleanNode

end TypedApi
