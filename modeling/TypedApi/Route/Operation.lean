import TypedApi.Route.Path
import TypedApi.Route.Basic
import TypedApi.SchemaTable.Conversion

/-! Operations of routes.

A route gives one operation, or one for each version that a path segment selects.
Types are converted in the order in which the operation uses them: parameters,
request body, response, errors. -/
namespace TypedApi.Route

open OpenApi (Schema Location MediaType RequestBody Response Operation)

/-- A computation that adds types to the table. -/
abbrev Compile := StateM SchemaTable

def schemaOf (registry : Registry) (type : SourceType) : Compile Schema :=
  fun table => SchemaTable.convert registry type table

/-! ### Parameters -/

/-- Follows references to the type they end in. `seen` are the names passed. -/
def followWithin (registry : Registry) : Nat → List String → SourceType → Option SourceType
  | 0, _, _ => none
  | fuel + 1, seen, type =>
    match type.form with
    | .ref target =>
      if seen.contains target then none
      else (registry.get? target).bind (followWithin registry fuel (target :: seen))
    | _ => some type

/-- The properties of the object that a type is or refers to. A chain of references
passes each registered name at most once. -/
def objectProperties? (registry : Registry) (type : SourceType) : Option (List Property) :=
  match followWithin registry (registry.size + 1) [] type with
  | some { form := .object properties _ _, .. } => some properties
  | _ => none

/-- A list, or an alternative that is one. -/
def isArraySchema (s : Schema) : Bool := s.isArray || (s.anyOf.getD []).any (·.isArray)

def parameterOf (registry : Registry) (location : Location) (name : String)
    (type : SourceType) (required : Bool) (description : Option String) :
    Compile OpenApi.Parameter := do
  let schema ← schemaOf registry type
  let repeated := location = .query && isArraySchema schema
  return {
    name, location, description
    required := some (required || location = .path)
    style := if repeated then some "form" else none
    explode := if repeated then some true else none
    schema := some schema }

/-- A named parameter, or one for each property of an object. -/
def expandParameter (registry : Registry) (location : Location) (p : Parameter) :
    Compile (List OpenApi.Parameter) :=
  match p.name with
  | some name =>
    return [← parameterOf registry location name p.type p.isRequired p.description]
  | none =>
    match objectProperties? registry p.type with
    | none => return []
    | some properties => properties.mapM fun q =>
      parameterOf registry location q.name q.type q.required q.description

def locationOf : Category → Option Location
  | .body => none
  | .query => some .query
  | .param => some .path
  | .headers => some .header

/-- The parameter for a placeholder that no parameter declares. -/
def undeclaredParameter (name : String) : OpenApi.Parameter :=
  { name, location := .path, required := some true, schema := some (.ofType "string") }

def undeclared (path : String) (declared : List OpenApi.Parameter) : List OpenApi.Parameter :=
  let names := (declared.filter (·.location = .path)).map (·.name)
  ((placeholders path).filter (!names.contains ·)).map undeclaredParameter

/-! ### Request bodies -/

def bodySchema (registry : Registry) (bodies : List Parameter) : Compile Schema :=
  match bodies with
  | [{ name := none, type, .. }] => schemaOf registry type
  | _ => do
    let named := bodies.filterMap fun b => b.name.map fun name => (name, b)
    let converted ← named.mapM fun (name, b) => do return (name, ← schemaOf registry b.type)
    let required := (named.filter (·.2.isRequired)).map (·.1)
    return { Schema.ofType "object" with
      properties := some (Json.table converted)
      required := if required.isEmpty then none else some required }

/-- Raw bytes, or an object with raw bytes in a property. -/
def containsBinary (registry : Registry) (type : SourceType) : Bool :=
  type.isBinary || ((objectProperties? registry type).getD []).any (·.type.isBinary)

def bodyMediaType (registry : Registry) (route : Route) (bodies : List Parameter) : String :=
  route.contentType.getD
    (if bodies.any fun b => containsBinary registry b.type then "multipart/form-data"
      else "application/json")

def requestBody (registry : Registry) (route : Route) (bodies : List Parameter) :
    Compile RequestBody := do
  let schema ← bodySchema registry bodies
  return {
    content := [(bodyMediaType registry route bodies, { schema := some schema })]
    required := some (bodies.any (·.isRequired)) }

/-! ### Responses -/

/-- The phrase that describes a status. -/
def reasonPhrase (status : Nat) : String :=
  match status with
  | 200 => "OK"
  | 201 => "Created"
  | 202 => "Accepted"
  | 204 => "No Content"
  | 301 => "Moved Permanently"
  | 302 => "Found"
  | 304 => "Not Modified"
  | 400 => "Bad Request"
  | 401 => "Unauthorized"
  | 403 => "Forbidden"
  | 404 => "Not Found"
  | 405 => "Method Not Allowed"
  | 409 => "Conflict"
  | 410 => "Gone"
  | 413 => "Payload Too Large"
  | 415 => "Unsupported Media Type"
  | 422 => "Unprocessable Entity"
  | 429 => "Too Many Requests"
  | 500 => "Internal Server Error"
  | 501 => "Not Implemented"
  | 502 => "Bad Gateway"
  | 503 => "Service Unavailable"
  | 504 => "Gateway Timeout"
  | _ =>
    match status / 100 with
    | 1 => "Informational"
    | 2 => "Success"
    | 3 => "Redirection"
    | 4 => "Client Error"
    | _ => "Server Error"

/-- The schema of one message: the name of its event, if it has one, and its data
as JSON text. -/
def messageSchema (event : Option String) (data : Schema) : Schema :=
  let name := match event with
    | none => []
    | some e => [("event", { Schema.ofType "string" with constValue := some (.str e) })]
  { Schema.ofType "object" with
    properties := some (name ++ [
      ("data", { Schema.ofType "string" with
        contentMediaType := some "application/json"
        contentSchema := some data }),
      ("id", .ofType "string")])
    required := some ((if event.isSome then ["event"] else []) ++ ["data"]) }

def streamErrorSchema : Schema :=
  { Schema.ofType "object" with
    properties := some [("message", .ofType "string"), ("code", .ofType "string")]
    required := some ["message"] }

/-- The messages of a stream. Several events are alternatives, with an `error` event
after them. -/
def streamSchema (registry : Registry) (route : Route) : Compile Schema :=
  match route.events with
  | [] => do
    let data ← match route.returns with
      | some type => schemaOf registry type
      | none => pure {}
    return messageSchema none data
  | [event] => return messageSchema (some event.name) (← schemaOf registry event.data)
  | events => do
    let branches ← events.mapM fun e => do
      return messageSchema (some e.name) (← schemaOf registry e.data)
    return {
      oneOf := some (branches ++ [messageSchema (some "error") streamErrorSchema])
      discriminator := some { propertyName := "event" } }

def returnsNothing (route : Route) : Bool :=
  match route.returns with
  | none => true
  | some type => type.isVoid

/-- The status of success when the route does not give one. -/
def successStatus (route : Route) : Nat :=
  route.status.getD
    (if route.method = .post then 201
      else if returnsNothing route && !route.streams then 204 else 200)

def successResponse (registry : Registry) (route : Route) : Compile Response := do
  let description := reasonPhrase (successStatus route)
  if route.streams then
    let schema ← streamSchema registry route
    return { description, content := some [("text/event-stream", { itemSchema := some schema })] }
  else
    match route.returns with
    | some type =>
      if type.isVoid then return .plain description
      else return .json description (← schemaOf registry type)
    | none => return .plain description

def failureResponse (registry : Registry) (failure : Failure) : Compile Response := do
  let description := failure.description.getD (reasonPhrase failure.status)
  match failure.type with
  | some type => return .json description (← schemaOf registry type)
  | none => return .plain description

/-- The responses by status. A later one takes the place of an earlier one. -/
def responses (registry : Registry) (route : Route) : Compile (List (String × Response)) := do
  let success ← successResponse registry route
  let failures ← route.errors.mapM fun e => do
    return (toString e.status, ← failureResponse registry e)
  return Json.table ((toString (successStatus route), success) :: failures)

/-! ### Operations -/

def controllerKey : String := "x-typebridge-controller"
def handlerKey : String := "x-typebridge-method"

/-- The operation of a route at a path template. -/
def operationAt (registry : Registry) (route : Route) (path : String) : Compile Operation := do
  let declared ← route.parameters.mapM fun p =>
    match locationOf p.category with
    | some location => expandParameter registry location p
    | none => pure []
  let parameters := declared.flatten
  let bodies := route.parameters.filter (·.category = .body)
  let body ← if bodies.isEmpty then pure none else some <$> requestBody registry route bodies
  let answers ← responses registry route
  return {
    tags := if route.tags.isEmpty then [route.controller] else route.tags
    summary := route.summary
    description := route.description
    operationId := some (route.controller ++ "_" ++ route.handler)
    parameters := undeclared path parameters ++ parameters
    requestBody := body
    responses := answers
    deprecated := if route.deprecated then some true else none
    security := if route.security.isEmpty then none else some route.security
    extensions := [(controllerKey, .str route.controller), (handlerKey, .str route.handler)] }

/-! ### Versions -/

/-- The path segment of a version. -/
def versionSegment (mark version : String) : String :=
  if mark.toList.isPrefixOf version.toList then version else mark ++ version

/-- The segment as the end of an identifier. -/
def identifierSuffix (segment : String) : String :=
  String.ofList (segment.toList.map fun c => if Text.isAlphanumeric c then c else '_')

def versionPath (segment path : String) : String :=
  if path = "/" then "/" ++ segment else "/" ++ segment ++ path

def versionOperation (segment : String) (op : Operation) : Operation :=
  { op with operationId := op.operationId.map fun id => id ++ "_" ++ identifierSuffix segment }

/-- The header that selects a version. -/
def versionParameter (headerName : String) (versions : List String) : OpenApi.Parameter where
  name := headerName
  location := .header
  description := some "API version selector"
  required := some true
  schema := some { Schema.ofType "string" with enumValues := some (versions.map .str) }

/-- The operations of a route with their paths and methods. -/
def operations (registry : Registry) (versioning : Versioning) (route : Route) :
    Compile (List (String × Method × Operation)) := do
  let path := template route.path
  let op ← operationAt registry route path
  if route.versions.isEmpty then return [(path, route.method, op)]
  else
    match versioning.mode with
    | .uri => return route.versions.map fun version =>
      let segment := versionSegment versioning.mark version
      (versionPath segment path, route.method, versionOperation segment op)
    | .header =>
      let selector := versionParameter versioning.headerName route.versions
      return [(path, route.method, { op with parameters := op.parameters ++ [selector] })]

end TypedApi.Route
