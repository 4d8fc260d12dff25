import TypedApi.Json.Reader

/-! Decoders of typed values.

A decoder takes a draft to a value or to the first fault met in text order. A
`Layout` says how an object becomes a record: members with a known name are
decoded as they come, a known name may come once, and at the end the required
names must all have come. A record may also be written as the list of its values
in the order of the names; the list may then stop before values that have a
default. -/
namespace TypedApi.Json

abbrev Decoder (α : Type) := Draft → Except Fault α

namespace Draft

/-- The items of a list and its end. -/
def items : Decoder (List Draft × Option Stop)
  | .arr xs ending => .ok (xs, ending)
  | .deep (.arr _ _) => .error .malformed
  | d => .error d.refusal

/-- The members of an object and its end. -/
def members : Decoder (List (Option String × Draft) × Option Stop)
  | .obj ms ending => .ok (ms, ending)
  | .deep (.obj _ _) => .error .malformed
  | d => .error d.refusal

end Draft

namespace Decoder

def text : Decoder String
  | .str s => .ok s
  | d => .error d.refusal

def bool : Decoder Bool
  | .bool b => .ok b
  | d => .error d.refusal

def number : Decoder Number
  | .num n => .ok n
  | .deep _ => .error .malformed
  | d => .error d.refusal

/-- An integer from 0 to `bound`. -/
def natUpTo (bound : Nat) : Decoder Nat
  | .num (.int n) => if 0 ≤ n && n.toNat ≤ bound then .ok n.toNat else .error .mismatch
  | d => .error d.refusal

/-- A natural number of 64 bits. -/
def nat : Decoder Nat := natUpTo 0xFFFFFFFFFFFFFFFF

def value : Decoder Json := Draft.value

/-- Null is no value. -/
def option {α : Type} (decode : Decoder α) : Decoder (Option α)
  | .null => .ok none
  | .stopped s => if s.inNull then .error s.reading else (decode (.stopped s)).map some
  | d => (decode d).map some

def list {α : Type} (decode : Decoder α) : Decoder (List α) := fun d => do
  let (xs, ending) ← d.items
  let values ← xs.mapM decode
  Draft.ended ending
  return values

def entries {α : Type} (decode : Decoder α) :
    List (Option String × Draft) → Except Fault (List (String × α))
  | [] => .ok []
  | (none, _) :: _ => .error .malformed
  | (some k, d) :: rest => do
    let v ← decode d
    let vs ← entries decode rest
    return (k, v) :: vs

/-- A table with text keys, in the order of the first appearance of each. -/
def map {α : Type} (decode : Decoder α) : Decoder (List (String × α)) := fun d => do
  let (ms, ending) ← d.members
  let values ← entries decode ms
  Draft.ended ending
  return table values

/-- One of several names, written as a string or as the key of a null. Where the value
is `buffered`, that is read before its place is known, an empty object does for the
null. -/
def choice {α : Type} (buffered : Bool) (named? : String → Option α) : Decoder α
  | .str s => found s
  | .obj [] (some s) => .error s.naming
  | .obj ((none, _) :: _) _ => .error .malformed
  | .obj ((some k, d) :: rest) ending => do
    let a ← found k
    if !(d.isNull || (buffered && d.isEmpty)) then .error d.refusal
    else if !rest.isEmpty then .error .malformed
    else
      match ending with
      | none => return a
      | some s => .error s.naming
  | .stopped s => .error s.naming
  | _ => .error .malformed
where
  found (s : String) : Except Fault α :=
    match named? s with
    | some a => .ok a
    | none => .error .mismatch

/-- The whole text must be the value. -/
def run {α : Type} (decode : Decoder α) (text : String) : Except Fault α := do
  let reading := Reading.ofText text
  let a ← decode reading.draft
  if reading.trailing then .error .malformed else return a

/-- Decodes a value that has been read already: the one fault left is its shape. -/
def ofValue {α : Type} (decode : Decoder α) (v : Json) : Option α :=
  (decode (Draft.ofValue v)).toOption

end Decoder

/-- How the members of an object become a record. `put` takes the members with
a known name and `other` the rest. -/
structure Layout (α : Type) where
  known : List String
  required : List String := []
  /-- The names that a list of values must reach. -/
  listed : List String := required
  init : α
  put : α → String → Draft → Except Fault α
  other : α → String → Draft → Except Fault α := fun a _ d => do d.skip; return a

namespace Layout

/-- Takes the members in turn; `seen` are the known names that have come. -/
def run {α : Type} (layout : Layout α) (seen : List String) (a : α) :
    List (Option String × Draft) → Except Fault (α × List String)
  | [] => .ok (a, seen)
  | (none, _) :: _ => .error .malformed
  | (some k, d) :: rest =>
    if layout.known.contains k then
      if seen.contains k then .error .mismatch
      else do
        let a ← layout.put a k d
        layout.run (k :: seen) a rest
    else do
      let a ← layout.other a k d
      layout.run seen a rest

def finish {α : Type} (layout : Layout α)
    (object : List (Option String × Draft) × Option Stop) : Except Fault α := do
  let (a, seen) ← layout.run [] layout.init object.1
  Draft.ended object.2
  if layout.required.all seen.contains then return a else .error .mismatch

/-- Takes the values of a list for the names in turn. -/
def runList {α : Type} (layout : Layout α) (a : α) (ending : Option Stop) :
    List String → List Draft → Except Fault α
  | [], [] => do
    Draft.ended ending
    return a
  | [], _ :: _ => .error .malformed
  | names, [] => do
    Draft.ended ending
    if names.any layout.listed.contains then .error .mismatch else return a
  | name :: names, d :: ds => do
    let a ← layout.put a name d
    layout.runList a ending names ds

/-- A record that ignores members it does not know. -/
def decode {α : Type} (layout : Layout α) : Decoder α
  | .obj ms ending => layout.finish (ms, ending)
  | .arr xs ending => layout.runList layout.init ending layout.known xs
  | .deep _ => .error .malformed
  | d => .error d.refusal

/-- A record that keeps or inspects every member. It is never a list. -/
def decodeOpen {α : Type} (layout : Layout α) : Decoder α := fun d => do
  layout.finish (← d.members)

end Layout

/-- Decodes the text of one whole JSON value. -/
def parse (text : String) : Except Fault Json := Decoder.value.run text

end TypedApi.Json
