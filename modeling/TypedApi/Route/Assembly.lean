import TypedApi.Route.Operation

/-! The document of a manifest.

Of two operations with one path and one method the first is kept. Tags are listed
in the order in which the kept operations use them. -/
namespace TypedApi

open OpenApi (Document Operation PathItem Tag)

namespace Route

/-- Adds tags that are not listed yet. -/
def addTags (tags : List Tag) (names : List String) : List Tag :=
  names.foldl
    (fun acc name => if acc.any (·.name == name) then acc else acc ++ [{ name := name }]) tags

/-- Adds an operation, unless its place is taken. -/
def addOperation (d : Document) (path : String) (method : Method) (op : Operation) : Document :=
  let item := (d.paths.lookup path).getD {}
  match item.operation? method with
  | some _ => d
  | none =>
    { d with
      paths := Json.assign path (item.withOperation method (some op)) d.paths
      tags := addTags d.tags op.tags }

/-- All operations of all routes, in order. -/
def allOperations (registry : Registry) (versioning : Versioning) (routes : List Route) :
    Compile (List (String × Method × Operation)) := do
  return (← routes.mapM (operations registry versioning)).flatten

end Route

/-- The document of a manifest. -/
def Manifest.document (m : Manifest) (options : DocumentOptions) : Document :=
  let (ops, table) := (Route.allOperations m.types options.versioning m.routes).run {}
  let empty : Document := {
    info := {
      title := options.title
      version := options.version
      description := options.description }
    servers := options.servers }
  let d := ops.foldl (fun d (path, method, op) => Route.addOperation d path method op) empty
  { d with components := if table.named.isEmpty then none else some { schemas := table.named } }

end TypedApi
