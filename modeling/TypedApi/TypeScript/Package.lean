import TypedApi.TypeScript.Controller

/-! The files of a client. -/
namespace TypedApi.TypeScript

structure File where
  name : String
  content : String
deriving DecidableEq, Repr

namespace Client

def controllers (c : Client) : List Controller :=
  Controller.ofSignatures c.signatures

def typesFile (c : Client) : File :=
  { name := "types.ts"
    content :=
      heading c.api.info.title c.api.info.version ++
        String.join (c.declarations.map ("\n" ++ ·)) ++ "\n" }

def controllerFile (c : Client) (controller : Controller) : File :=
  { name := controller.stem ++ ".ts"
    content := controller.source c.api.info.title c.api.info.version
      (c.api.components.map (·.1)) }

/-- Exports all other files, each controller under a name of its own. -/
def indexFile (c : Client) : File :=
  { name := "index.ts"
    content :=
      heading c.api.info.title c.api.info.version ++
        "\nexport * from \"./types\";\nexport * from \"./runtime\";\nexport * from \"./sse\";\n" ++
        "export * from \"./form-data\";" ++
        String.join (c.controllers.map fun controller =>
          "\nexport * as " ++ camelCase controller.name ++ " from \"./" ++ controller.stem ++
            "\";") ++ "\n" }

/-- The files of a client that sends its requests to `baseUrl`, or else to the address
that the API names. -/
def files (c : Client) (baseUrl : Option String) : List File :=
  let info := c.api.info
  let address := (baseUrl <|> info.baseUrl).getD ""
  [ c.typesFile,
    { name := "runtime.ts", content := runtime info.title info.version address },
    { name := "sse.ts", content := eventStreams },
    { name := "form-data.ts", content := formData }] ++
    c.controllers.map c.controllerFile ++ [c.indexFile]

end Client
end TypedApi.TypeScript
