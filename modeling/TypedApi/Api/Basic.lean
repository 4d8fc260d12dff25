import TypedApi.TypeExpr.Basic
import TypedApi.OpenApi.Document

/-! What a client needs to know of a document. -/
namespace TypedApi

namespace Api

structure Info where
  title : String := "API"
  version : String := "0.0.0"
  description : Option String := none
  baseUrl : Option String := none
deriving DecidableEq, Repr

structure Component where
  title : Option String := none
  description : Option String := none
  type : TypeExpr
deriving Inhabited

/-- What the messages of an event stream carry. -/
inductive Stream where
  /-- Every message has one type. -/
  | typed (type : TypeExpr)
  /-- Each event has a type of its own. -/
  | events (events : List (String × TypeExpr))
  /-- Nothing is known; the bytes are passed on. -/
  | raw

/-- What a request or a response carries. -/
inductive Content where
  | empty
  | json (type : TypeExpr)
  | text
  | binary
  | multipart (type : TypeExpr)
  | stream (stream : Stream)

def Content.isEmpty : Content → Bool
  | .empty => true
  | _ => false

structure Parameter where
  name : String
  location : OpenApi.Location
  required : Bool
  description : Option String := none
  type : TypeExpr

structure Body where
  content : Content
  required : Bool

structure Operation where
  name : String
  method : Method
  path : String
  controller : String
  summary : Option String := none
  description : Option String := none
  deprecated : Bool := false
  parameters : List Parameter := []
  body : Option Body := none
  response : Content := .empty

end Api

structure Api where
  info : Api.Info := {}
  components : List (String × Api.Component) := []
  operations : List Api.Operation := []

namespace Api

/-! ### Renaming components -/

def Stream.rename (f : String → String) : Stream → Stream
  | .typed t => .typed (t.rename f)
  | .events es => .events (es.map fun e => (e.1, e.2.rename f))
  | .raw => .raw

def Content.rename (f : String → String) : Content → Content
  | .json t => .json (t.rename f)
  | .multipart t => .multipart (t.rename f)
  | .stream s => .stream (s.rename f)
  | c => c

def Component.rename (f : String → String) (c : Component) : Component :=
  { c with type := c.type.rename f }

def Operation.rename (f : String → String) (o : Operation) : Operation :=
  { o with
    parameters := o.parameters.map fun p => { p with type := p.type.rename f }
    body := o.body.map fun b => { b with content := b.content.rename f }
    response := o.response.rename f }

/-- Renames components where they stand and where they are referred to. -/
def rename (f : String → String) (api : Api) : Api :=
  { api with
    components := Json.table (api.components.map fun c => (f c.1, c.2.rename f))
    operations := api.operations.map (Operation.rename f) }

end Api
end TypedApi
