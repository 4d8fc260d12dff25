import TypedApi.OpenApi.Document
import TypedApi.Proofs.OpenApi.Schema

/-! The parts of a document that are looked at together: its schemas and the names of path
parameters. -/
namespace TypedApi.OpenApi

def Parameter.schemas (p : Parameter) : List Schema := p.schema.toList

def MediaType.schemas (m : MediaType) : List Schema := m.schema.toList ++ m.itemSchema.toList

/-- The schemas of the media types of a body or a response. -/
def contentSchemas (content : List (String × MediaType)) : List Schema :=
  content.flatMap (·.2.schemas)

def RequestBody.schemas (b : RequestBody) : List Schema := contentSchemas b.content

def Response.schemas (r : Response) : List Schema := contentSchemas (r.content.getD [])

def Operation.schemas (o : Operation) : List Schema :=
  o.parameters.flatMap (·.schemas) ++ o.requestBody.toList.flatMap (·.schemas) ++
    o.responses.flatMap (·.2.schemas)

def PathItem.schemas (i : PathItem) : List Schema :=
  i.parameters.flatMap (·.schemas) ++
    Method.all.flatMap fun m => (i.operation? m).toList.flatMap (·.schemas)

/-- The schemas of a document: those of its operations and its components. -/
def Document.schemas (d : Document) : List Schema :=
  d.paths.flatMap (·.2.schemas) ++ d.components.toList.flatMap fun c => c.schemas.map (·.2)

/-- The names of the path parameters in a list. -/
def pathNames (ps : List Parameter) : List String :=
  ps.filterMap fun p => if p.location = .path then some p.name else none

end TypedApi.OpenApi
