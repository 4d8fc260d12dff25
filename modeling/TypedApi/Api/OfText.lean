import TypedApi.Api.OfDocument
import TypedApi.Json.Decoder
import TypedApi.Yaml.Value

/-! Reading an API from text.

A text whose first character that is not blank opens a brace is JSON. Every other
text is YAML. -/
namespace TypedApi

/-- Why a text is no document. -/
inductive SourceFault where
  | json (fault : Json.Fault)
  | yaml
  | notAnObject
deriving DecidableEq, Repr

def SourceFault.message : SourceFault → String
  | .json _ => "malformed JSON document"
  | .yaml => "malformed YAML document"
  | .notAnObject => "document root must be an object"

namespace Api

def isJson (text : String) : Bool := (Text.trimStart text.toList).head? = some '\x7b'

/-- The document in a text. -/
def documentOfText (text : String) : Except SourceFault Json := do
  let v ← if isJson text then (Json.parse text).mapError .json
    else match Yaml.parse? text with
      | some v => .ok v
      | none => .error .yaml
  match v with
  | .obj ms => return .obj ms
  | _ => throw .notAnObject

def ofText (text : String) : Except SourceFault Api := do
  match Api.ofDocument? (← documentOfText text) with
  | some api => return api
  | none => throw .notAnObject

end Api
end TypedApi
