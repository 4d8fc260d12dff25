import TypedApi.OpenApi.Document
import TypedApi.OpenApi.Schema.Encoding
import TypedApi.Json.Printer

/-! Documents as JSON text.

The order of members is fixed, so a document always has one text. -/
namespace TypedApi.OpenApi

open Json.Fields

def tableJson {α : Type} (encode : α → Json) (entries : List (String × α)) : Json :=
  .obj (entries.map fun e => (e.1, encode e.2))

def listJson {α : Type} (encode : α → Json) (xs : List α) : Json := .arr (xs.map encode)

def Info.encode (i : Info) : Json := .obj (
  always "title" (.str i.title) ++
  always "version" (.str i.version) ++
  present "description" i.description .str)

def Server.encode (s : Server) : Json := .obj (
  always "url" (.str s.url) ++
  present "description" s.description .str)

def Tag.encode (t : Tag) : Json := .obj (
  always "name" (.str t.name) ++
  present "description" t.description .str)

def Parameter.encode (p : Parameter) : Json := .obj (
  always "name" (.str p.name) ++
  always "in" (.str p.location.name) ++
  present "description" p.description .str ++
  present "required" p.required .bool ++
  present "deprecated" p.deprecated .bool ++
  present "style" p.style .str ++
  present "explode" p.explode .bool ++
  present "schema" p.schema Schema.encode)

def MediaType.encode (m : MediaType) : Json := .obj (
  present "schema" m.schema Schema.encode ++
  present "itemSchema" m.itemSchema Schema.encode ++
  present "example" m.example? id)

def RequestBody.encode (b : RequestBody) : Json := .obj (
  present "description" b.description .str ++
  always "content" (tableJson MediaType.encode b.content) ++
  present "required" b.required .bool)

def Response.encode (r : Response) : Json := .obj (
  always "description" (.str r.description) ++
  present "content" r.content (tableJson MediaType.encode))

def securityJson (rs : List SecurityRequirement) : Json := listJson (tableJson texts) rs

def Operation.encode (o : Operation) : Json := .obj (
  nonEmpty "tags" o.tags texts ++
  present "summary" o.summary .str ++
  present "description" o.description .str ++
  present "operationId" o.operationId .str ++
  nonEmpty "parameters" o.parameters (listJson Parameter.encode) ++
  present "requestBody" o.requestBody RequestBody.encode ++
  always "responses" (tableJson Response.encode o.responses) ++
  present "deprecated" o.deprecated .bool ++
  present "security" o.security securityJson ++
  o.extensions)

def PathItem.encode (i : PathItem) : Json := .obj (
  nonEmpty "parameters" i.parameters (listJson Parameter.encode) ++
  Method.all.flatMap fun m => present m.key (i.operation? m) Operation.encode)

def Components.encode (c : Components) : Json := .obj (
  nonEmpty "schemas" c.schemas (tableJson Schema.encode) ++
  nonEmpty "securitySchemes" c.securitySchemes .obj)

def Document.encode (d : Document) : Json := .obj (
  always "openapi" (.str d.openapi) ++
  always "info" d.info.encode ++
  nonEmpty "servers" d.servers (listJson Server.encode) ++
  always "paths" (tableJson PathItem.encode d.paths) ++
  present "components" d.components Components.encode ++
  nonEmpty "tags" d.tags (listJson Tag.encode) ++
  d.extensions)

/-- The text of a document, indented. -/
def Document.toText (d : Document) : String := d.encode.pretty

end TypedApi.OpenApi
