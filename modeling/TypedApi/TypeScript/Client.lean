import TypedApi.TypeScript.Declaration
import TypedApi.TypeScript.Global
import TypedApi.TypeScript.Signature

/-! The client of an API: its declarations and signatures.

The signatures are written over the API as it is, and the components that hide global
types are renamed in them afterwards. The declarations are written over the renamed
API. -/
namespace TypedApi.TypeScript

structure Client where
  /-- The API with its components renamed. -/
  api : Api
  renames : List (String × String)
  declarations : List String
  signatures : List Signature

namespace Client

def scope (api : Api) (renames : List (String × String)) : Scope :=
  { index := .ofComponents api.components, shadowed := renames }

def ofApi (api : Api) : Client :=
  let names := freshNames (api.components.map (·.1))
  let signatures := Signature.numbered (api.operations.map (scope api names).signature)
  let api := api.rename (newName names)
  { api
    renames := names
    declarations := api.components.map fun c => (scope api names).declaration c.1 c.2
    signatures := signatures.map (·.mapTypes (renamed names)) }

end Client
end TypedApi.TypeScript
