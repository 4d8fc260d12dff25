import TypedApi.TypeScript.Comment
import TypedApi.TypeScript.Identifier
import TypedApi.TypeScript.Name
import TypedApi.TypeScript.Type

/-! Signatures of the functions that call operations. -/
namespace TypedApi.TypeScript

/-- How a request body is sent. -/
inductive BodyKind where
  | json | multipart | binary | text
deriving DecidableEq, Repr

def BodyKind.name : BodyKind → String
  | .json => "json"
  | .multipart => "multipart"
  | .binary => "binary"
  | .text => "text"

/-- How a response body is read. -/
inductive ResponseKind where
  | json | text | blob | formData | void | stream | events
deriving DecidableEq, Repr

def ResponseKind.name : ResponseKind → String
  | .json => "json"
  | .text => "text"
  | .blob => "blob"
  | .formData => "formData"
  | .void => "void"
  | .stream => "stream"
  | .events => "events"

structure Signature where
  functionName : String
  method : Method
  path : String
  /-- The name of the controller, as a file is named. -/
  controller : String
  doc : String := ""
  deprecated : Bool := false
  pathType : Option String := none
  queryType : Option String := none
  headerType : Option String := none
  bodyType : Option String := none
  bodyKind : Option BodyKind := none
  /-- The one argument: path, query, headers and body together. -/
  inputType : Option String := none
  inputOptional : Bool := true
  responseType : String := "void"
  responseKind : ResponseKind := .void
  /-- The type of an event of a stream. -/
  eventType : Option String := none

/-! ### The argument -/

/-- A part of the argument. -/
structure Part where
  type : String
  required : Bool

def optionalMark (required : Bool) : String := if required then "" else "?"

namespace Scope

/-- The parameters of one location. They are required if one of them is. -/
def parameters? (s : Scope) (location : OpenApi.Location) (ps : List Api.Parameter) :
    Option Part :=
  match ps.filter (·.location = location) with
  | [] => none
  | ps => some {
      type := braces (ps.map fun p =>
        key p.name ++ optionalMark p.required ++ ": " ++ s.type p.type)
      required := ps.any (·.required) }

def body? (s : Scope) (b : Api.Body) : Option (Part × BodyKind) :=
  match b.content with
  | .json t => some ({ type := s.type t, required := b.required }, .json)
  | .multipart t => some ({ type := s.type t, required := b.required }, .multipart)
  | .binary => some ({ type := s.builtin "Blob", required := b.required }, .binary)
  | .text => some ({ type := "string", required := b.required }, .text)
  | .empty => none
  | .stream _ => none

end Scope

/-- The parts that are there, under their names. -/
def present (parts : List (String × Option Part)) : List (String × Part) :=
  parts.filterMap fun (name, part) => part.map fun p => (name, p)

def inputType? (parts : List (String × Part)) : Option String :=
  if parts.isEmpty then none
  else some (braces (parts.map fun (name, p) => name ++ optionalMark p.required ++ ": " ++ p.type))

/-! ### The result -/

structure Result where
  type : String
  kind : ResponseKind
  event : Option String := none

def eventStream (event : String) : Result :=
  { type := "AsyncIterable<" ++ event ++ ">", kind := .events, event := some event }

namespace Scope

def event (s : Scope) (name : String) (data : TypeExpr) : String :=
  braces ["event: " ++ quoted name, "data: " ++ s.type data, "id?: string"]

def result (s : Scope) : Api.Content → Result
  | .empty => { type := "void", kind := .void }
  | .json t => { type := s.type t, kind := .json }
  | .text => { type := "string", kind := .text }
  | .binary => { type := s.builtin "Blob", kind := .blob }
  | .multipart _ => { type := s.builtin "FormData", kind := .formData }
  | .stream .raw =>
    { type := "ReadableStream<" ++ s.builtin "Uint8Array" ++ ">", kind := .stream }
  | .stream (.typed t) => eventStream ("sse.ServerSentEvent<" ++ s.type t ++ ">")
  | .stream (.events []) => eventStream "never"
  | .stream (.events es) =>
    eventStream (String.intercalate " | " (es.map fun e => s.event e.1 e.2))

def signature (s : Scope) (o : Api.Operation) : Signature :=
  let path := s.parameters? .path o.parameters
  let query := s.parameters? .query o.parameters
  let headers := s.parameters? .header o.parameters
  let body := o.body.bind s.body?
  let parts :=
    present [("path", path), ("query", query), ("headers", headers), ("body", body.map (·.1))]
  let result := s.result o.response
  { functionName := camelCase o.name
    method := o.method
    path := o.path
    controller := kebabCase o.controller
    doc := summary o.summary o.description ""
    deprecated := o.deprecated
    pathType := path.map (·.type)
    queryType := query.map (·.type)
    headerType := headers.map (·.type)
    bodyType := body.map (·.1.type)
    bodyKind := body.map (·.2)
    inputType := inputType? parts
    inputOptional := parts.all fun p => !p.2.required
    responseType := result.type
    responseKind := result.kind
    eventType := result.event }

end Scope

namespace Signature

/-- Applies a function to every type in a signature. -/
def mapTypes (f : String → String) (s : Signature) : Signature :=
  { s with
    pathType := s.pathType.map f
    queryType := s.queryType.map f
    headerType := s.headerType.map f
    bodyType := s.bodyType.map f
    inputType := s.inputType.map f
    responseType := f s.responseType
    eventType := s.eventType.map f }

/-- Numbers the repetitions of a name within its controller. `earlier` are the
controllers and names that came before. -/
def numberedFrom (earlier : List (String × String)) : List Signature → List Signature
  | [] => []
  | s :: ss =>
    let place := (s.controller, s.functionName)
    let n := earlier.count place
    (if n = 0 then s else { s with functionName := s.functionName ++ toString (n + 1) }) ::
      numberedFrom (place :: earlier) ss

def numbered (signatures : List Signature) : List Signature := numberedFrom [] signatures

end Signature
end TypedApi.TypeScript
