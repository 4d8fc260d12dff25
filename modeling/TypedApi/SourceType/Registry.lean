import TypedApi.SourceType.Basic

/-! The types that a program declares, by name.

A name keeps the place of its first registration and the type of its last. -/
namespace TypedApi

structure Registry where
  entries : List (String × SourceType) := []

namespace Registry

def ofList (entries : List (String × SourceType)) : Registry := ⟨Json.table entries⟩

def register (r : Registry) (name : String) (type : SourceType) : Registry :=
  ⟨Json.assign name type r.entries⟩

def get? (r : Registry) (name : String) : Option SourceType := r.entries.lookup name

def has (r : Registry) (name : String) : Bool := (r.get? name).isSome

def size (r : Registry) : Nat := r.entries.length

def names (r : Registry) : List String := r.entries.map (·.1)

theorem get?_register_self (r : Registry) (name : String) (type : SourceType) :
    (r.register name type).get? name = some type :=
  Json.lookup_assign_self name type r.entries

theorem get?_register_of_ne (r : Registry) {name other : String} (h : other ≠ name)
    (type : SourceType) : (r.register name type).get? other = r.get? other :=
  Json.lookup_assign_of_ne h type r.entries

/-- The greatest nesting of a registered type. -/
def height (r : Registry) : Nat := (r.entries.map fun e => e.2.height).foldr max 0

end Registry
end TypedApi
