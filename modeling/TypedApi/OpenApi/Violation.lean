import TypedApi.Json.Basic
import TypedApi.Method
import TypedApi.OpenApi.ComponentKey
import TypedApi.OpenApi.Schema

/-! What is wrong with a document.

The whole document is walked once and every problem is reported, with the place
where it stands. Nothing that is wrong in one place hides what is wrong in
another. -/
namespace TypedApi.OpenApi

structure Violation where
  /-- A place such as `paths./users.get.responses`. -/
  place : String
  message : String
deriving DecidableEq, Repr

namespace Violation

/-! ### Schemas -/

/-- The keywords that hold one schema. -/
def singleKeywords : List String := ["items", "additionalProperties", "not", "contentSchema"]

/-- The keywords that hold a list of schemas. -/
def listKeywords : List String := ["anyOf", "oneOf", "allOf", "prefixItems"]

def ofRef (names : List String) (members : List (String × Json)) (place : String) :
    List Violation :=
  match members.lookup "$ref" with
  | none => []
  | some r =>
    match r.asString?.bind (Text.afterPrefixText? componentRoot) with
    | none => [⟨place, "unsupported $ref form"⟩]
    | some name =>
      if names.contains name then [] else [⟨place, "unresolved $ref to '" ++ name ++ "'"⟩]

/-- Required names need a property when properties are declared. -/
def ofRequired (members : List (String × Json)) (place : String) : List Violation :=
  match (members.lookup "required").bind Json.asArray?,
    (members.lookup "properties").bind Json.asObject? with
  | some required, some properties =>
    ((required.filterMap Json.asString?).filter fun name => (properties.lookup name).isNone).map
      fun name => ⟨place, "required property '" ++ name ++ "' is not declared"⟩
  | _, _ => []

def ofDiscriminator (members : List (String × Json)) (place : String) : List Violation :=
  match members.lookup "discriminator" with
  | none => []
  | some d =>
    if ((d.get? "propertyName").bind Json.asString?).isSome then []
    else [⟨place ++ ".discriminator", "discriminator is missing 'propertyName'"⟩]

mutual
def ofSchema (names : List String) : Json → String → List Violation
  | .bool _, _ => []
  | .obj members, place =>
    let parts := ofParts names members
    let within (keys : List String) := keys.flatMap fun k =>
      match parts.lookup k with
      | some report => report place
      | none => []
    ofRef names members place ++ ofRequired members place ++ within ["properties"] ++
      within singleKeywords ++ within listKeywords ++ ofDiscriminator members place
  | _, place => [⟨place, "schema must be an object or boolean"⟩]
/-- The reports of the schemas under each key, by the place of the whole. -/
def ofParts (names : List String) :
    List (String × Json) → List (String × (String → List Violation))
  | [] => []
  | (k, v) :: rest =>
    (k,
      if k = "properties" then ofProperties names v
      else if listKeywords.contains k then ofList names k v
      else fun place => ofSchema names v (place ++ "." ++ k)) :: ofParts names rest
def ofProperties (names : List String) : Json → String → List Violation
  | .obj ps, place => ofNamed names ps (place ++ ".properties.")
  | _, _ => []
def ofNamed (names : List String) : List (String × Json) → String → List Violation
  | [], _ => []
  | (name, v) :: rest, place => ofSchema names v (place ++ name) ++ ofNamed names rest place
def ofList (names : List String) (key : String) : Json → String → List Violation
  | .arr xs, place => ofItems names xs 0 (place ++ "." ++ key)
  | _, place => [⟨place ++ "." ++ key, "must be an array"⟩]
def ofItems (names : List String) : List Json → Nat → String → List Violation
  | [], _, _ => []
  | x :: xs, i, place =>
    ofSchema names x (place ++ "[" ++ toString i ++ "]") ++ ofItems names xs (i + 1) place
end

/-! ### Parameters -/

/-- One parameter: the path parameter it declares, and what is wrong with it. A
reference is taken as it is. -/
def ofParameter (names : List String) (place : String) (p : Json) :
    Option String × List Violation :=
  if (p.get? "$ref").isSome then (none, [])
  else
    let name := (p.get? "name").bind Json.asString?
    let unnamed := if name.isNone then [⟨place, "parameter is missing 'name'"⟩] else []
    let schema := match p.get? "schema" with
      | some s => ofSchema names s (place ++ ".schema")
      | none => []
    match (p.get? "in").bind Json.asString? with
    | some "path" =>
      let loose := if (p.get? "required").bind Json.asBool? = some true then []
        else [⟨place, "path parameters must be required"⟩]
      (name, unnamed ++ loose ++ schema)
    | some "query" | some "header" | some "cookie" => (none, unnamed ++ schema)
    | some other => (none, unnamed ++ [⟨place, "invalid location '" ++ other ++ "'"⟩] ++ schema)
    | none => (none, unnamed ++ [⟨place, "parameter is missing 'in'"⟩] ++ schema)

/-- A list of parameters: the path parameters declared, and what is wrong. -/
def ofParameters (names : List String) (place : String) (owner : Json) :
    List String × List Violation :=
  match owner.get? "parameters" with
  | none => ([], [])
  | some (.arr ps) =>
    let checked := ps.mapIdx fun i p => ofParameter names (place ++ "[" ++ toString i ++ "]") p
    (checked.filterMap (·.1), checked.flatMap (·.2))
  | some _ => ([], [⟨place, "must be an array"⟩])

/-! ### Operations -/

/-- The schemas of the media types of a body or a response. -/
def ofContent (names : List String) (place : String) (owner : Json) : List Violation :=
  match (owner.get? "content").bind Json.asObject? with
  | none => []
  | some content => content.flatMap fun (mediaType, media) =>
    ["schema", "itemSchema"].flatMap fun key =>
      match media.get? key with
      | some s => ofSchema names s (place ++ ".content." ++ mediaType ++ "." ++ key)
      | none => []

/-- `default`, or three digits from 100 to 599, the last two of which may be `XX`. -/
def isStatusKey (status : String) : Bool :=
  status == "default" ||
    match status.toList with
    | [a, b, c] =>
      '1' ≤ a && a ≤ '5' && ((Text.isDigit b && Text.isDigit c) || (b == 'X' && c == 'X'))
    | _ => false

def ofResponse (names : List String) (place status : String) (response : Json) : List Violation :=
  (if isStatusKey status then [] else [⟨place, "invalid status code"⟩]) ++
  (if (response.get? "$ref").isNone && ((response.get? "description").bind Json.asString?).isNone
    then [⟨place, "response is missing 'description'"⟩] else []) ++
  ofContent names place response

def ofResponses (names : List String) (place : String) (op : Json) : List Violation :=
  match (op.get? "responses").bind Json.asObject? with
  | some (r :: rs) => (r :: rs).flatMap fun (status, response) =>
    ofResponse names (place ++ ".responses." ++ status) status response
  | _ => [⟨place ++ ".responses", "operation must declare at least one response"⟩]

/-- One operation. `ids` are the operation ids met before, then those met so far. -/
def ofOperation (names ids : List String) (place : String) (op : Json) :
    List String × List Violation :=
  let (ids, repeated) := match (op.get? "operationId").bind Json.asString? with
    | none => (ids, [])
    | some id =>
      if ids.contains id then (ids, [⟨place, "duplicate operationId '" ++ id ++ "'"⟩])
      else (ids ++ [id], [])
  let body := match op.get? "requestBody" with
    | some b => ofContent names (place ++ ".requestBody") b
    | none => []
  (ids, repeated ++ body ++ ofResponses names place op)

/-! ### Paths -/

/-- The placeholders of a template: texts without `/` and `}` between braces, at
least one character long. `opened` holds what has come since the brace, last
character first. -/
def scanPlaceholders (opened : Option (List Char)) : List Char → List (List Char)
  | [] => []
  | c :: cs =>
    match opened with
    | none => if c = '\x7b' then scanPlaceholders (some []) cs else scanPlaceholders none cs
    | some acc =>
      if c = '\x7d' then
        if acc.isEmpty then scanPlaceholders none cs
        else acc.reverse :: scanPlaceholders none cs
      else if c = '/' then scanPlaceholders none cs
      else scanPlaceholders (some (c :: acc)) cs

def templatePlaceholders (path : String) : List String :=
  (scanPlaceholders none path.toList).map String.ofList

def ofMethod (names shared placeholders : List String) (place : String) (item : Json)
    (ids : List String) (m : Method) : List String × List Violation :=
  match item.get? m.key with
  | none => (ids, [])
  | some (.obj members) =>
    let op := Json.obj members
    let place := place ++ "." ++ m.key
    let (declared, wrong) := ofParameters names (place ++ ".parameters") op
    let missing := (placeholders.filter fun p => !(shared ++ declared).contains p).map fun p =>
      ⟨place, "path placeholder '\x7b" ++ p ++ "\x7d' has no path parameter"⟩
    let (ids, rest) := ofOperation names ids place op
    (ids, wrong ++ missing ++ rest)
  | some _ => (ids, [⟨place ++ "." ++ m.key, "operation must be an object"⟩])

/-- Runs a check that passes ids on over a list. -/
def collect {α : Type} (check : List String → α → List String × List Violation)
    (ids : List String) : List α → List String × List Violation
  | [] => (ids, [])
  | x :: xs =>
    let (ids, found) := check ids x
    let (ids, others) := collect check ids xs
    (ids, found ++ others)

def ofPathItem (names ids : List String) (path : String) (item : Json) :
    List String × List Violation :=
  let place := "paths." ++ path
  let relative :=
    if path.toList.head? = some '/' then [] else [⟨place, "path must start with '/'"⟩]
  match item with
  | .obj _ =>
    let (shared, wrong) := ofParameters names (place ++ ".parameters") item
    let (ids, found) :=
      collect (ofMethod names shared (templatePlaceholders path) place item) ids Method.all
    (ids, relative ++ wrong ++ found)
  | _ => (ids, relative ++ [⟨place, "path item must be an object"⟩])

/-! ### Documents -/

def ofVersion (root : Json) : List Violation :=
  match (root.get? "openapi").bind Json.asString? with
  | some v =>
    if (Text.afterPrefixText? "3." v).isSome then []
    else [⟨"openapi", "unsupported version '" ++ v ++ "'"⟩]
  | none => [⟨"openapi", "missing required string field"⟩]

def ofInfo (root : Json) : List Violation :=
  match root.get? "info" with
  | some (.obj info) => ["title", "version"].flatMap fun field =>
    if ((info.lookup field).bind Json.asString?).isSome then []
    else [⟨"info." ++ field, "missing required string field"⟩]
  | _ => [⟨"info", "missing required object"⟩]

/-- The component schemas of a document. -/
def componentSchemas (root : Json) : List (String × Json) :=
  (((root.get? "components").bind (·.get? "schemas")).bind Json.asObject?).getD []

def ofComponents (root : Json) : List Violation :=
  let schemas := componentSchemas root
  let names := schemas.map (·.1)
  (names.filter (!isComponentKey ·)).map (fun name =>
    ⟨"components.schemas." ++ name, "component name must match ^[a-zA-Z0-9._-]+$"⟩) ++
  schemas.flatMap fun (name, s) => ofSchema names s ("components.schemas." ++ name)

def ofPaths (root : Json) : List Violation :=
  let names := (componentSchemas root).map (·.1)
  match root.get? "paths" with
  | some (.obj paths) =>
    (collect (fun ids (path, item) => ofPathItem names ids path item) [] paths).2
  | some _ => [⟨"paths", "must be an object"⟩]
  | none => []

/-- Every violation in a document, in document order. -/
def ofDocument (document : Json) : List Violation :=
  match document with
  | .obj _ => ofVersion document ++ ofInfo document ++ ofComponents document ++ ofPaths document
  | _ => [⟨"", "document root must be an object"⟩]

end Violation
end TypedApi.OpenApi
