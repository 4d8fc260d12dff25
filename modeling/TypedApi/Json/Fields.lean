import TypedApi.Json.Basic

/-! Members of the objects that records are written as.

A record is written as the list of its members in a fixed order. A field that
may be absent contributes a member only when it is there. -/
namespace TypedApi.Json.Fields

abbrev Members := List (String × Json)

def always (key : String) (value : Json) : Members := [(key, value)]

/-- A member for a value that may be absent. -/
def present {α : Type} (key : String) (value : Option α) (encode : α → Json) : Members :=
  match value with
  | none => []
  | some a => [(key, encode a)]

/-- A member for a flag, written only when it is set. -/
def flag (key : String) (value : Bool) : Members :=
  if value then [(key, .bool true)] else []

/-- A member for a list, written only when it has items. -/
def nonEmpty {α : Type} (key : String) (values : List α) (encode : List α → Json) : Members :=
  if values.isEmpty then [] else [(key, encode values)]

def texts (values : List String) : Json := .arr (values.map .str)

end TypedApi.Json.Fields
