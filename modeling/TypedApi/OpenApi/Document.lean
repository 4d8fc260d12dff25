import TypedApi.OpenApi.Schema
import TypedApi.Method

/-! Documents of OpenAPI 3.1.

Paths, responses and media types keep the order in which they were added. Each
method has one place in a path item. -/
namespace TypedApi.OpenApi

def openApiVersion : String := "3.1.0"

inductive Location where
  | query | header | path | cookie
deriving DecidableEq, Repr, Inhabited

namespace Location

def name : Location → String
  | .query => "query"
  | .header => "header"
  | .path => "path"
  | .cookie => "cookie"

def all : List Location := [.query, .header, .path, .cookie]

def named? (s : String) : Option Location := all.find? (·.name == s)

theorem named?_name (l : Location) : named? l.name = some l := by cases l <;> decide

end Location

structure Parameter where
  name : String
  location : Location
  description : Option String := none
  required : Option Bool := none
  deprecated : Option Bool := none
  style : Option String := none
  explode : Option Bool := none
  schema : Option Schema := none
deriving Inhabited

structure MediaType where
  schema : Option Schema := none
  itemSchema : Option Schema := none
  example? : Option Json := none
deriving Inhabited

structure RequestBody where
  description : Option String := none
  content : List (String × MediaType)
  required : Option Bool := none
deriving Inhabited

structure Response where
  description : String
  content : Option (List (String × MediaType)) := none
deriving Inhabited

namespace Response

def plain (description : String) : Response := { description := description }

def json (description : String) (schema : Schema) : Response :=
  { description, content := some [("application/json", { schema := some schema })] }

end Response

/-- The scopes that each scheme asks for. -/
abbrev SecurityRequirement := List (String × List String)

structure Operation where
  tags : List String := []
  summary : Option String := none
  description : Option String := none
  operationId : Option String := none
  parameters : List Parameter := []
  requestBody : Option RequestBody := none
  responses : List (String × Response) := []
  deprecated : Option Bool := none
  security : Option (List SecurityRequirement) := none
  extensions : List (String × Json) := []
deriving Inhabited

structure PathItem where
  parameters : List Parameter := []
  get : Option Operation := none
  put : Option Operation := none
  post : Option Operation := none
  delete : Option Operation := none
  options : Option Operation := none
  head : Option Operation := none
  patch : Option Operation := none
  trace : Option Operation := none
deriving Inhabited

namespace PathItem

def operation? (item : PathItem) : Method → Option Operation
  | .get => item.get
  | .put => item.put
  | .post => item.post
  | .delete => item.delete
  | .options => item.options
  | .head => item.head
  | .patch => item.patch
  | .trace => item.trace

def withOperation (item : PathItem) (m : Method) (op : Option Operation) : PathItem :=
  match m with
  | .get => { item with get := op }
  | .put => { item with put := op }
  | .post => { item with post := op }
  | .delete => { item with delete := op }
  | .options => { item with options := op }
  | .head => { item with head := op }
  | .patch => { item with patch := op }
  | .trace => { item with trace := op }

theorem operation?_withOperation_self (item : PathItem) (m : Method) (op : Option Operation) :
    (item.withOperation m op).operation? m = op := by cases m <;> rfl

theorem operation?_withOperation_of_ne (item : PathItem) {m n : Method} (h : n ≠ m)
    (op : Option Operation) : (item.withOperation m op).operation? n = item.operation? n := by
  cases m <;> cases n <;> first | rfl | exact absurd rfl h

end PathItem

structure Info where
  title : String
  version : String
  description : Option String := none
deriving DecidableEq, Repr, Inhabited

structure Server where
  url : String
  description : Option String := none
deriving DecidableEq, Repr, Inhabited

structure Tag where
  name : String
  description : Option String := none
deriving DecidableEq, Repr, Inhabited

structure Components where
  schemas : List (String × Schema) := []
  securitySchemes : List (String × Json) := []
deriving Inhabited

structure Document where
  openapi : String := openApiVersion
  info : Info
  servers : List Server := []
  paths : List (String × PathItem) := []
  components : Option Components := none
  tags : List Tag := []
  extensions : List (String × Json) := []
deriving Inhabited

/-- The operations in document order: by path, then by method. -/
def Document.operations (d : Document) : List (String × Method × Operation) :=
  d.paths.flatMap fun (path, item) =>
    Method.all.filterMap fun m => (item.operation? m).map fun op => (path, m, op)

end TypedApi.OpenApi
