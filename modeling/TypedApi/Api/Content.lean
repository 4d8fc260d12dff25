import TypedApi.Api.Basic
import TypedApi.TypeExpr.OfSchema
import TypedApi.Text.Blank

/-! What media types carry. The first media type decides. -/
namespace TypedApi.Api

open TypeExpr (ofSchema)

/-- The media type without its parameters, in lower case. -/
def bareMediaType (mediaType : String) : List Char :=
  (Text.trim ((mediaType.toList.splitOn ';').headD [])).map Char.toLower

def beginsWith (p : String) (cs : List Char) : Bool := p.toList.isPrefixOf cs

def endsIn (p : String) (cs : List Char) : Bool := p.toList.reverse.isPrefixOf cs.reverse

/-- The type of the data of a message. -/
def messageData? (item : Json) : Option TypeExpr := do
  let data ← (← item.get? "properties").get? "data"
  return ofSchema (← data.get? "contentSchema")

/-- The name of the event that a branch describes, and its data. -/
def event? (branch : Json) : Option (String × TypeExpr) := do
  let event ← (← branch.get? "properties").get? "event"
  let name ← match event.get? "const" with
    | some v => v.asString?
    | none => (do let values ← (← event.get? "enum").asArray?; (← values[0]?).asString?)
  return (name, (messageData? branch).getD .unknown)

def streamOf (media : Json) : Stream :=
  match media.get? "itemSchema" with
  | none => .raw
  | some item =>
    match (((item.get? "oneOf").bind Json.asArray?).getD []).filterMap event? with
    | [] =>
      match messageData? item with
      | some t => .typed t
      | none => .raw
    | events => .events events

def Content.ofMedia (mediaType : String) (media : Json) : Content :=
  let bare := bareMediaType mediaType
  let type := ((media.get? "schema").map ofSchema).getD .unknown
  if bare = "text/event-stream".toList then .stream (streamOf media)
  else if bare = "application/json".toList || endsIn "+json" bare then .json type
  else if bare = "multipart/form-data".toList then .multipart type
  else if beginsWith "text/" bare then .text
  else if bare = "application/octet-stream".toList || bare = "application/pdf".toList
      || beginsWith "image/" bare || beginsWith "audio/" bare || beginsWith "video/" bare then
    .binary
  else .json type

/-- What a table of media types carries. -/
def Content.ofTable : List (String × Json) → Content
  | [] => .empty
  | (mediaType, media) :: _ => .ofMedia mediaType media

end TypedApi.Api
