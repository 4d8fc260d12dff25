import TypedApi.SourceType.Registry
import TypedApi.OpenApi.Document

/-! Routes of a program and the settings of its document. -/
namespace TypedApi

namespace Route

/-- Where a handler takes a parameter from. -/
inductive Category where
  | body | query | param | headers
deriving DecidableEq, Repr

namespace Category

def name : Category → String
  | .body => "body"
  | .query => "query"
  | .param => "param"
  | .headers => "headers"

def all : List Category := [.body, .query, .param, .headers]

def named? (s : String) : Option Category := all.find? (·.name == s)

end Category

structure Parameter where
  category : Category
  /-- A parameter without a name binds a whole object, property by property. -/
  name : Option String := none
  type : SourceType
  required : Option Bool := none
  description : Option String := none

/-- A parameter is required unless it or its type says otherwise. -/
def Parameter.isRequired (p : Parameter) : Bool := p.required.getD (!p.type.optional)

structure Failure where
  status : Nat
  description : Option String := none
  type : Option SourceType := none

structure Event where
  name : String
  data : SourceType

end Route

structure Route where
  controller : String
  handler : String
  method : Method
  /-- In source syntax, such as `/users/:id`. -/
  path : String
  parameters : List Route.Parameter := []
  returns : Option SourceType := none
  status : Option Nat := none
  summary : Option String := none
  description : Option String := none
  tags : List String := []
  security : List OpenApi.SecurityRequirement := []
  errors : List Route.Failure := []
  /-- The response is a stream of events. -/
  streams : Bool := false
  /-- The named events of the stream. Without any, it has one event, of the type
  returned. -/
  events : List Route.Event := []
  versions : List String := []
  deprecated : Bool := false
  /-- The media type of the request body, instead of the inferred one. -/
  contentType : Option String := none

/-- The types and routes that make up a document. -/
structure Manifest where
  types : Registry := {}
  routes : List Route := []

inductive VersionMode where
  | uri | header
deriving DecidableEq, Repr

namespace VersionMode

def name : VersionMode → String
  | .uri => "uri"
  | .header => "header"

def named? (s : String) : Option VersionMode :=
  [VersionMode.uri, .header].find? (·.name == s)

end VersionMode

/-- How the version of a route is selected: by a path segment that begins with
`mark`, or by a header. -/
structure Versioning where
  mode : VersionMode := .uri
  headerName : String := "X-API-Version"
  mark : String := "v"
deriving DecidableEq, Repr

structure DocumentOptions where
  title : String := "API"
  version : String := "1.0.0"
  description : Option String := none
  servers : List OpenApi.Server := []
  versioning : Versioning := {}
deriving DecidableEq, Repr

end TypedApi
