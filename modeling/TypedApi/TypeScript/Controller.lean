import TypedApi.TypeScript.Client
import TypedApi.TypeScript.Support

/-! The file of a controller: a function for each of its operations, and one that
binds them all to a configuration. -/
namespace TypedApi.TypeScript

/-- A controller with the signatures of its operations. -/
structure Controller where
  name : String
  signatures : List Signature

namespace Controller

/-- Adds a signature to its controller, which comes last if it is new. -/
def add (s : Signature) : List Controller → List Controller
  | [] => [{ name := s.controller, signatures := [s] }]
  | c :: cs =>
    if c.name = s.controller then { c with signatures := c.signatures ++ [s] } :: cs
    else c :: add s cs

/-- The controllers in the order in which their first operations come. -/
def ofSignatures (signatures : List Signature) : List Controller :=
  signatures.foldl (fun cs s => add s cs) []

/-- The files that every client has, without their extension. -/
def supportFiles : List String := ["types", "runtime", "sse", "form-data", "index"]

/-- The name of the file of a controller, without its extension. -/
def stem (c : Controller) : String :=
  if supportFiles.contains c.name then c.name ++ "-client" else c.name

def usesEvents (c : Controller) : Bool := c.signatures.any (·.responseKind = .events)

/-! ### Imports -/

/-- The types that a function mentions. -/
def mentioned (s : Signature) : List String :=
  s.inputType.toList ++ s.eventType.toList ++ [s.responseType]

/-- The components that the functions refer to, in sorted order. -/
def imports (c : Controller) (components : List String) : List String :=
  let names := (c.signatures.flatMap mentioned).flatMap references
  TypeExpr.sorted (names.filter components.contains).eraseDups

/-! ### Functions -/

/-- The argument of a function, up to its type or a member of it. -/
def input (s : Signature) : String := "input" ++ optionalMark (!s.inputOptional)

/-- An argument for the part of the input under `name`, if it is there. -/
def forwarded (s : Signature) (name argument : String) (part : Option String) : String :=
  match part with
  | none => ""
  | some _ => "\n    " ++ argument ++ ": " ++ input s ++ "." ++ name ++ ","

/-- The type of the data of a result. -/
def dataType (s : Signature) : String :=
  match s.responseKind with
  | .events => "AsyncIterable<" ++ s.eventType.getD "" ++ ">"
  | _ => s.responseType

/-- The function that sends a request of this kind. -/
def sender (s : Signature) : String :=
  match s.responseKind with
  | .events => "sse.streamEvents<" ++ s.eventType.getD "" ++ ">"
  | _ => "runtime.request<" ++ s.responseType ++ ">"

def function (s : Signature) : String :=
  s.doc ++ (if s.deprecated then "/** @deprecated */\n" else "") ++
    "export async function " ++ s.functionName ++ "(" ++
    (match s.inputType with
      | none => ""
      | some type => "\n  " ++ input s ++ ": " ++ type ++ ",") ++
    "\n  config: runtime.ClientConfig = runtime.defaultConfig,\n): Promise<runtime.ApiResult<" ++
    dataType s ++ ">> \x7b\n  return " ++ sender s ++ "(config, \x7b\n    method: \"" ++
    s.method.name ++ "\",\n    path: \"" ++ s.path ++ "\"," ++
    forwarded s "path" "pathParams" s.pathType ++
    forwarded s "query" "query" s.queryType ++
    forwarded s "headers" "headers" s.headerType ++
    forwarded s "body" "body" (s.bodyKind.map BodyKind.name) ++
    (match s.bodyKind with
      | none => ""
      | some kind => "\n    bodyKind: \"" ++ kind.name ++ "\",") ++
    "\n    responseKind: \"" ++ s.responseKind.name ++ "\",\n  \x7d);\n\x7d\n"

/-- A function with its configuration given. -/
def boundFunction (s : Signature) : String :=
  "\n    " ++ s.functionName ++ ": (" ++
    (match s.inputType with
      | none => ""
      | some type => input s ++ ": " ++ type) ++
    ") =>\n      " ++ s.functionName ++ "(" ++ (if s.inputType.isSome then "input, " else "") ++
    "resolved),"

/-! ### The file -/

def source (c : Controller) (title version : String) (components : List String) : String :=
  let imported := c.imports components
  heading title version ++ "\nimport * as runtime from \"./runtime\";" ++
    (if c.usesEvents then "\nimport * as sse from \"./sse\";" else "") ++
    (if imported.isEmpty then ""
      else "\nimport type \x7b " ++ String.intercalate ", " imported ++
        " \x7d from \"./types\";") ++
    "\n" ++ String.join (c.signatures.map fun s => "\n" ++ function s) ++
    "\nexport function create" ++ pascalCase c.name ++
    "Client(config: Partial<runtime.ClientConfig> = \x7b\x7d) \x7b\n" ++
    "  const resolved: runtime.ClientConfig = \x7b ...runtime.defaultConfig, ...config \x7d;\n" ++
    "  return \x7b" ++ String.join (c.signatures.map boundFunction) ++ "\n  \x7d;\n\x7d\n"

end Controller
end TypedApi.TypeScript
