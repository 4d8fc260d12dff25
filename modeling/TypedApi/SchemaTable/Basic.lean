import TypedApi.OpenApi.ComponentKey
import TypedApi.OpenApi.Schema

/-! The schemas of named types.

Each source name has one key, and no two names share one. A schema is stored
under the key of its name; storing again keeps its place. -/
namespace TypedApi

structure SchemaTable where
  named : List (String × OpenApi.Schema) := []
  /-- The key of each source name. -/
  keys : List (String × String) := []
deriving Inhabited

namespace SchemaTable

open OpenApi

/-- The key of a source name, chosen at its first use. -/
def keyFor (t : SchemaTable) (name : String) : String × SchemaTable :=
  match t.keys.lookup name with
  | some key => (key, t)
  | none =>
    let key := freshKey (componentKey name) (t.keys.map (·.2))
    (key, { t with keys := t.keys ++ [(name, key)] })

def has (t : SchemaTable) (key : String) : Bool := (t.named.lookup key).isSome

def store (t : SchemaTable) (key : String) (s : Schema) : SchemaTable :=
  { t with named := Json.assign key s t.named }

theorem lookup_store_self (t : SchemaTable) (key : String) (s : Schema) :
    (t.store key s).named.lookup key = some s := Json.lookup_assign_self key s t.named

theorem lookup_store_of_ne (t : SchemaTable) {key other : String} (h : other ≠ key) (s : Schema) :
    (t.store key s).named.lookup other = t.named.lookup other :=
  Json.lookup_assign_of_ne h s t.named

end SchemaTable
end TypedApi
