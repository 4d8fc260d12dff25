import TypedApi.Route.Basic
import TypedApi.SourceType.Decoding
import TypedApi.OpenApi.Document.Decoding

/-! Manifests and document options from JSON. -/
namespace TypedApi

open Json (Draft Fault Layout Decoder)

namespace Route

/-- A status is a natural number of 16 bits. -/
def statusCode : Decoder Nat := Decoder.natUpTo 65535

def Parameter.layout : Layout Parameter where
  known := ["category", "name", "type", "required", "description"]
  required := ["category", "type"]
  init := { category := .body, type := default }
  put := fun p key d =>
    match key with
    | "category" => return { p with category := ← Decoder.choice false Category.named? d }
    | "name" => return { p with name := ← Decoder.option .text d }
    | "type" => return { p with type := ← SourceType.decode d }
    | "required" => return { p with required := ← Decoder.option .bool d }
    | _ => return { p with description := ← Decoder.option .text d }

def Failure.layout : Layout Failure where
  known := ["status", "description", "type"]
  required := ["status"]
  init := { status := 0 }
  put := fun f key d =>
    match key with
    | "status" => return { f with status := ← statusCode d }
    | "description" => return { f with description := ← Decoder.option .text d }
    | _ => return { f with type := ← Decoder.option SourceType.decode d }

def Event.layout : Layout Event where
  known := ["name", "type"]
  required := ["name", "type"]
  init := { name := "", data := default }
  put := fun e key d =>
    match key with
    | "name" => return { e with name := ← Decoder.text d }
    | _ => return { e with data := ← SourceType.decode d }

def layout : Layout Route where
  known := ["controller", "handler", "method", "path", "parameters", "returns", "status",
    "summary", "description", "tags", "security", "errors", "sse", "events", "versions",
    "deprecated", "contentType"]
  required := ["controller", "handler", "method", "path"]
  init := { controller := "", handler := "", method := .get, path := "" }
  put := fun r key d =>
    match key with
    | "controller" => return { r with controller := ← Decoder.text d }
    | "handler" => return { r with handler := ← Decoder.text d }
    | "method" => return { r with method := ← Decoder.choice false Method.named? d }
    | "path" => return { r with path := ← Decoder.text d }
    | "parameters" => return { r with parameters := ← Decoder.list Parameter.layout.decode d }
    | "returns" => return { r with returns := ← Decoder.option SourceType.decode d }
    | "status" => return { r with status := ← Decoder.option statusCode d }
    | "summary" => return { r with summary := ← Decoder.option .text d }
    | "description" => return { r with description := ← Decoder.option .text d }
    | "tags" => return { r with tags := ← Decoder.list .text d }
    | "security" =>
      return { r with security := ← Decoder.list OpenApi.SecurityRequirement.decode d }
    | "errors" => return { r with errors := ← Decoder.list Failure.layout.decode d }
    | "sse" => return { r with streams := ← Decoder.bool d }
    | "events" => return { r with events := ← Decoder.list Event.layout.decode d }
    | "versions" => return { r with versions := ← Decoder.list .text d }
    | "deprecated" => return { r with deprecated := ← Decoder.bool d }
    | _ => return { r with contentType := ← Decoder.option .text d }

def decode : Decoder Route := layout.decode

end Route

/-- The types of a program by name. -/
def Registry.decode : Decoder Registry := fun d =>
  (Decoder.map SourceType.decode d).map Registry.ofList

def Manifest.layout : Layout Manifest where
  known := ["types", "routes"]
  init := {}
  put := fun m key d =>
    match key with
    | "types" => return { m with types := ← Registry.decode d }
    | _ => return { m with routes := ← Decoder.list Route.decode d }

/-- Reads the text of a manifest. -/
def Manifest.ofText (text : String) : Except Fault Manifest := Manifest.layout.decode.run text

def Versioning.layout : Layout Versioning where
  known := ["mode", "headerName", "prefix"]
  init := {}
  put := fun v key d =>
    match key with
    | "mode" => return { v with mode := ← Decoder.choice false VersionMode.named? d }
    | "headerName" => return { v with headerName := ← Decoder.text d }
    | _ => return { v with mark := ← Decoder.text d }

def Versioning.decode : Decoder Versioning := Versioning.layout.decode

def DocumentOptions.layout : Layout DocumentOptions where
  known := ["title", "version", "description", "servers", "versioning"]
  init := {}
  put := fun o key d =>
    match key with
    | "title" => return { o with title := ← Decoder.text d }
    | "version" => return { o with version := ← Decoder.text d }
    | "description" => return { o with description := ← Decoder.option .text d }
    | "servers" => return { o with servers := ← Decoder.list OpenApi.Server.layout.decode d }
    | _ => return { o with versioning := ← Versioning.decode d }

def DocumentOptions.decode : Decoder DocumentOptions := DocumentOptions.layout.decode

end TypedApi
