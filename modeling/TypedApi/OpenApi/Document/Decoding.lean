import TypedApi.OpenApi.Document
import TypedApi.OpenApi.Schema.Decoding

/-! Documents from JSON text.

Documents and operations keep the members they do not know; every other record
passes over them. -/
namespace TypedApi.OpenApi

open Json (Draft Fault Layout Decoder)

def Info.layout : Layout Info where
  known := ["title", "version", "description"]
  required := ["title", "version"]
  init := { title := "", version := "" }
  put := fun i key d =>
    match key with
    | "title" => return { i with title := ← Decoder.text d }
    | "version" => return { i with version := ← Decoder.text d }
    | _ => return { i with description := ← Decoder.option .text d }

def Server.layout : Layout Server where
  known := ["url", "description"]
  required := ["url"]
  init := { url := "" }
  put := fun s key d =>
    match key with
    | "url" => return { s with url := ← Decoder.text d }
    | _ => return { s with description := ← Decoder.option .text d }

def Tag.layout : Layout Tag where
  known := ["name", "description"]
  required := ["name"]
  init := { name := "" }
  put := fun t key d =>
    match key with
    | "name" => return { t with name := ← Decoder.text d }
    | _ => return { t with description := ← Decoder.option .text d }

def Parameter.layout : Layout Parameter where
  known := ["name", "in", "description", "required", "deprecated", "style", "explode", "schema"]
  required := ["name", "in"]
  init := { name := "", location := .query }
  put := fun p key d =>
    match key with
    | "name" => return { p with name := ← Decoder.text d }
    | "in" => return { p with location := ← Decoder.choice false Location.named? d }
    | "description" => return { p with description := ← Decoder.option .text d }
    | "required" => return { p with required := ← Decoder.option .bool d }
    | "deprecated" => return { p with deprecated := ← Decoder.option .bool d }
    | "style" => return { p with style := ← Decoder.option .text d }
    | "explode" => return { p with explode := ← Decoder.option .bool d }
    | _ => return { p with schema := ← Decoder.option Schema.decode d }

def MediaType.layout : Layout MediaType where
  known := ["schema", "itemSchema", "example"]
  init := {}
  put := fun m key d =>
    match key with
    | "schema" => return { m with schema := ← Decoder.option Schema.decode d }
    | "itemSchema" => return { m with itemSchema := ← Decoder.option Schema.decode d }
    | _ => return { m with example? := ← Decoder.option .value d }

def RequestBody.layout : Layout RequestBody where
  known := ["description", "content", "required"]
  required := ["content"]
  init := { content := [] }
  put := fun b key d =>
    match key with
    | "description" => return { b with description := ← Decoder.option .text d }
    | "content" => return { b with content := ← Decoder.map MediaType.layout.decode d }
    | _ => return { b with required := ← Decoder.option .bool d }

def Response.layout : Layout Response where
  known := ["description", "content"]
  required := ["description"]
  init := { description := "" }
  put := fun r key d =>
    match key with
    | "description" => return { r with description := ← Decoder.text d }
    | _ => return { r with content := ← Decoder.option (.map MediaType.layout.decode) d }

def SecurityRequirement.decode : Decoder SecurityRequirement := Decoder.map (.list .text)

def Operation.layout : Layout Operation where
  known := ["tags", "summary", "description", "operationId", "parameters", "requestBody",
    "responses", "deprecated", "security"]
  init := {}
  put := fun o key d =>
    match key with
    | "tags" => return { o with tags := ← Decoder.list .text d }
    | "summary" => return { o with summary := ← Decoder.option .text d }
    | "description" => return { o with description := ← Decoder.option .text d }
    | "operationId" => return { o with operationId := ← Decoder.option .text d }
    | "parameters" => return { o with parameters := ← Decoder.list Parameter.layout.decode d }
    | "requestBody" =>
      return { o with requestBody := ← Decoder.option RequestBody.layout.decode d }
    | "responses" => return { o with responses := ← Decoder.map Response.layout.decode d }
    | "deprecated" => return { o with deprecated := ← Decoder.option .bool d }
    | _ => return { o with security := ← Decoder.option (.list SecurityRequirement.decode) d }
  other := fun o key d => do
    let v ← d.value
    return { o with extensions := Json.assign key v o.extensions }

def PathItem.layout : Layout PathItem where
  known := "parameters" :: Method.all.map Method.key
  listed := Method.all.map Method.key
  init := {}
  put := fun i key d =>
    match Method.keyed? key with
    | some m => return i.withOperation m (← Decoder.option Operation.layout.decodeOpen d)
    | none => return { i with parameters := ← Decoder.list Parameter.layout.decode d }

def Components.layout : Layout Components where
  known := ["schemas", "securitySchemes"]
  init := {}
  put := fun c key d =>
    match key with
    | "schemas" => return { c with schemas := ← Decoder.map Schema.decode d }
    | _ => return { c with securitySchemes := ← Decoder.map .value d }

def Document.layout : Layout Document where
  known := ["openapi", "info", "servers", "paths", "components", "tags"]
  required := ["openapi", "info"]
  init := { openapi := "", info := default }
  put := fun doc key d =>
    match key with
    | "openapi" => return { doc with openapi := ← Decoder.text d }
    | "info" => return { doc with info := ← Info.layout.decode d }
    | "servers" => return { doc with servers := ← Decoder.list Server.layout.decode d }
    | "paths" => return { doc with paths := ← Decoder.map PathItem.layout.decode d }
    | "components" => return { doc with components := ← Decoder.option Components.layout.decode d }
    | _ => return { doc with tags := ← Decoder.list Tag.layout.decode d }
  other := fun doc key d => do
    let v ← d.value
    return { doc with extensions := Json.assign key v doc.extensions }

/-- Reads the text of a document. -/
def Document.ofText (text : String) : Except Fault Document := Document.layout.decodeOpen.run text

end TypedApi.OpenApi
