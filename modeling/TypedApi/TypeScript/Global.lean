import TypedApi.Json.Basic

/-! Global types.

A component with the name of a global type would hide it, so it is declared under
another name: its own with underscores. -/
namespace TypedApi.TypeScript

/-- The global types that a declaration can hide. -/
def globalTypes : List String := [
  "Record", "Partial", "Required", "Readonly", "Pick", "Omit", "Exclude", "Extract",
  "NonNullable", "ReturnType", "Parameters", "InstanceType", "Awaited", "Promise", "Array",
  "ReadonlyArray", "Map", "Set", "WeakMap", "WeakSet", "Uppercase", "Lowercase", "Capitalize",
  "Uncapitalize", "Date", "Error", "Blob", "File", "FormData", "Response", "Request", "Headers",
  "URL", "Object", "String", "Number", "Boolean", "Symbol", "Function", "RegExp",
  "ReadableStream", "Uint8Array"]

/-- The first name that is not taken, with an underscore more at each step. There are
fewer steps than taken names. -/
def freeName (taken : List String) : Nat → String → String
  | 0, name => name
  | fuel + 1, name => if taken.contains name then freeName taken fuel (name ++ "_") else name

/-- New names for the names of global types, each different from all others. -/
def freshNamesFrom (taken : List String) (renames : List (String × String)) :
    List String → List (String × String)
  | [] => renames
  | name :: names =>
    if globalTypes.contains name then
      let new := freeName taken taken.length (name ++ "_")
      freshNamesFrom (new :: taken) (Json.assign name new renames) names
    else freshNamesFrom taken renames names

def freshNames (names : List String) : List (String × String) := freshNamesFrom names [] names

/-- The name under which a component is declared. -/
def newName (renames : List (String × String)) (name : String) : String :=
  (renames.lookup name).getD name

end TypedApi.TypeScript
