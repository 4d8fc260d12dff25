import TypedApi.Api.Content
import TypedApi.Api.Pointer
import TypedApi.Route.Operation

/-! Reading a document as an API.

A document is read as a plain JSON value and by best effort. Parameters, request
bodies and responses may be references inside the document. -/
namespace TypedApi.Api

open TypeExpr (ofSchema)
open OpenApi (Location)

def textOf? (v : Json) (key : String) : Option String := (v.get? key).bind Json.asString?

def truthOf? (v : Json) (key : String) : Option Bool := (v.get? key).bind Json.asBool?

def itemsOf (v : Json) (key : String) : List Json := ((v.get? key).bind Json.asArray?).getD []

def first? (v : Json) (key : String) : Option Json := ((v.get? key).bind Json.asArray?).bind (·[0]?)

def infoOf (root : Json) : Info :=
  let info := (root.get? "info").getD .null
  { title := (textOf? info "title").getD "API"
    version := (textOf? info "version").getD "0.0.0"
    description := textOf? info "description"
    baseUrl := (first? root "servers").bind (textOf? · "url") }

def componentOf (schema : Json) : Component :=
  { title := textOf? schema "title"
    description := textOf? schema "description"
    type := ofSchema schema }

def componentsOf (root : Json) : List (String × Component) :=
  ((((root.get? "components").bind (·.get? "schemas")).bind Json.asObject?).getD []).map
    fun (name, schema) => (name, componentOf schema)

/-- A parameter that a client passes. Cookies are not among them. -/
def parameter? (p : Json) : Option Parameter := do
  let name ← textOf? p "name"
  let location ← match ← textOf? p "in" with
    | "path" => some Location.path
    | "query" => some .query
    | "header" => some .header
    | _ => none
  return {
    name, location
    required := location = .path || truthOf? p "required" = some true
    description := textOf? p "description"
    type := ((p.get? "schema").map ofSchema).getD .string }

/-- Adds a parameter in place of an earlier one of the same name and location. -/
def override (ps : List Parameter) (p : Parameter) : List Parameter :=
  ps.filter (fun q => !(q.name == p.name && q.location = p.location)) ++ [p]

def parametersOf (root : Json) (declared : List Json) : List Parameter :=
  (declared.filterMap fun p => parameter? (resolve root maxHops p)).foldl override []

def contentOf (owner : Json) : Content :=
  match (owner.get? "content").bind Json.asObject? with
  | some table => .ofTable table
  | none => .empty

def body? (root : Json) (op : Json) : Option Body :=
  match op.get? "requestBody" with
  | none => none
  | some b =>
    let b := resolve root maxHops b
    let content := contentOf b
    if content.isEmpty then none
    else some { content, required := truthOf? b "required" = some true }

/-- The keys of successful responses, in the order in which they are tried. -/
def successKeys : List String := ["200", "201", "202", "203", "206", "207", "default", "2XX"]

/-- The first successful response that has content. -/
def responseOf (root : Json) (op : Json) : Content :=
  let responses := (op.get? "responses").getD .null
  let contents := successKeys.filterMap fun key =>
    (responses.get? key).map fun r => contentOf (resolve root maxHops r)
  (contents.find? (!·.isEmpty)).getD .empty

/-- The name of an operation that has none: its method and the fixed segments of
its path. -/
def synthesizedName (path : String) (m : Method) : String :=
  let fixed := (Route.segments path.toList).filter (·.head? != some '\x7b')
  m.key ++ "_" ++ String.intercalate "_" (fixed.map String.ofList)

def operationOf (root : Json) (path : String) (shared : List Json) (m : Method) (op : Json) :
    Operation :=
  let named := match op.get? Route.handlerKey with
    | some v => some v
    | none => op.get? "operationId"
  let controller := match textOf? op Route.controllerKey with
    | some c => some c
    | none => (first? op "tags").bind Json.asString?
  { name := (named.bind Json.asString?).getD (synthesizedName path m)
    method := m
    path
    controller := controller.getD "default"
    summary := textOf? op "summary"
    description := textOf? op "description"
    deprecated := truthOf? op "deprecated" = some true
    parameters := parametersOf root (shared ++ itemsOf op "parameters")
    body := body? root op
    response := responseOf root op }

def pathOperations (root : Json) (path : String) (item : Json) : List Operation :=
  Method.all.filterMap fun m =>
    match item.get? m.key with
    | some (.obj op) => some (operationOf root path (itemsOf item "parameters") m (.obj op))
    | _ => none

end TypedApi.Api

namespace TypedApi

/-- The API that a document with an object at its root describes. -/
def Api.ofDocument? (root : Json) : Option Api :=
  match root with
  | .obj _ => some {
      info := Api.infoOf root
      components := Api.componentsOf root
      operations := (((root.get? "paths").bind Json.asObject?).getD []).flatMap
        fun (path, item) => Api.pathOperations root path item }
  | _ => none

end TypedApi
