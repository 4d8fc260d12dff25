import TypedApi.Yaml.Scalar

/-! Tags, anchors and directives. -/
namespace TypedApi.Yaml

/-- The name of an anchor or an alias. It ends before a gap or one of a few marks. -/
def anchorName? (c : Cursor) : Option (String × Cursor) :=
  let c := c.skip
  let name := c.rest.takeWhile isNameChar
  let c := c.skipMany name.length
  let ended := atGap c.rest || "?:,]\x7d%@\x60".toList.any fun m => c.rest.head? = some m
  if name.isEmpty || !ended then none else some (String.ofList name, c)

def isUriChar (verbatim : Bool) (c : Char) : Bool :=
  isNameChar c || ";/?:@&=+$.%!~*'()".toList.contains c || (verbatim && ",[]".toList.contains c)

/-- The bytes of a text in ASCII. -/
def asciiBytes (s : String) : List UInt8 := s.toList.map fun c => UInt8.ofNat c.toNat

/-- How many bytes a character has whose first byte is `n`; a byte that begins none
has zero. -/
def byteCount (n : Nat) : Nat :=
  if n < 0x80 then 1 else if n < 0xC0 then 0 else if n < 0xE0 then 2 else if n < 0xF0 then 3
  else if n < 0xF8 then 4 else 0

/-- Further bytes of one character, each written as `%` and two digits. -/
def moreBytes? : Nat → List Char → Option (List UInt8 × List Char)
  | 0, cs => some ([], cs)
  | n + 1, '%' :: a :: b :: rest => do
    let byte := (← hexDigit? a) * 16 + (← hexDigit? b)
    if byte / 0x40 = 2 then
      let (bytes, rest) ← moreBytes? n rest
      return (UInt8.ofNat byte :: bytes, rest)
    else none
  | _ + 1, _ => none

/-- The bytes of the part of a tag that is written like a URI, in front of `out`,
last one first, with its length in the text. They need not be UTF-8. -/
def uriFrom (verbatim : Bool) (out : List UInt8) (length : Nat) :
    Nat → List Char → Option (List UInt8 × Nat)
  | 0, _ => none
  | fuel + 1, cs =>
    match cs with
    | '%' :: a :: b :: rest => do
      let first := (← hexDigit? a) * 16 + (← hexDigit? b)
      let count := byteCount first
      if count = 0 then none
      else
        let (bytes, rest) ← moreBytes? (count - 1) rest
        uriFrom verbatim (bytes.reverse ++ UInt8.ofNat first :: out) (length + 3 * count) fuel rest
    | '%' :: _ => none
    | x :: rest =>
      if isUriChar verbatim x then
        uriFrom verbatim (UInt8.ofNat x.toNat :: out) (length + 1) fuel rest
      else some (out, length)
    | [] => some (out, length)

def uri? (verbatim : Bool) (c : Cursor) : Option (List UInt8 × Cursor) := do
  let (out, length) ← uriFrom verbatim [] 0 (c.rest.length + 1) c.rest
  return (out.reverse, c.skipMany length)

/-- A tag as written: a handle, which directives give a meaning, and a suffix. An
empty handle leaves the suffix as it is. -/
structure TagText where
  handle : String
  suffix : List UInt8

/-- `!`, and a name that may end in another `!`. -/
def handle? (c : Cursor) : Option (List Char × Cursor) :=
  match c.rest with
  | '!' :: rest =>
    let name := rest.takeWhile isNameChar
    let c := c.skipMany (name.length + 1)
    match c.rest with
    | '!' :: _ => some ('!' :: (name ++ ['!']), c.skip)
    | _ => some ('!' :: name, c)
  | _ => none

/-- Whether the text reads as a handle with two marks. -/
def isFullHandle (handle : List Char) : Bool :=
  1 < handle.length && handle.getLast? = some '!'

def tagBody? (c : Cursor) : Option (TagText × Cursor) :=
  match c.rest with
  | '!' :: '<' :: _ => do
    let (suffix, c) ← uri? true (c.skipMany 2)
    if suffix.isEmpty || c.rest.head? ≠ some '>' then none
    else some (⟨"", suffix⟩, c.skip)
  | _ => do
    let (handle, c) ← handle? c
    let (suffix, c) ← uri? false c
    if isFullHandle handle then
      if suffix.isEmpty then none else some (⟨String.ofList handle, suffix⟩, c)
    else
      let suffix := asciiBytes (String.ofList (handle.drop 1)) ++ suffix
      if suffix.head?.all (· = 0) then some (⟨"", asciiBytes "!"⟩, c)
      else some (⟨"!", suffix⟩, c)

/-- A tag. It ends at a gap, or at a comma inside brackets. -/
def tag? (flow : Bool) (c : Cursor) : Option (TagText × Cursor) := do
  let (t, c) ← tagBody? c
  if atGap c.rest || (flow && c.rest.head? = some ',') then some (t, c) else none

/-! ### Meaning -/

/-- What a tag says of its node. -/
inductive Tag where
  | bool | int | float | null
  /-- A local tag, by its name. -/
  | own (name : String)
  /-- A local tag whose name is no text. -/
  | nameless
  | other

namespace Tag

def isOwn : Tag → Bool
  | .own _ => true
  | _ => false

/-- What the core tags begin with. -/
def core : String := "tag:yaml.org,2002:"

/-- The name of a local tag that begins with `!`. The lone mark is its own name. -/
def ofName (rest : List UInt8) : Tag :=
  if rest.isEmpty then .own "!"
  else (String.fromUTF8? rest.toByteArray).elim .nameless .own

/-- The meaning of a tag with a handle put in. -/
def ofBytes (bytes : List UInt8) : Tag :=
  if bytes = asciiBytes (core ++ "bool") then .bool
  else if bytes = asciiBytes (core ++ "int") then .int
  else if bytes = asciiBytes (core ++ "float") then .float
  else if bytes = asciiBytes (core ++ "null") then .null
  else
    match bytes with
    | 0x21 :: rest => ofName rest
    | _ => .other

/-- The replacement of a handle and a suffix make a tag. Each counts up to its first
zero byte. -/
def join (start suffix : List UInt8) : Tag :=
  ofBytes (start.takeWhile (· ≠ 0) ++ suffix.takeWhile (· ≠ 0))

end Tag

/-! ### Directives -/

inductive Directive where
  | version (major minor : Nat)
  | tag (handle : String) (replacement : List UInt8)

/-- A number of at most nine digits. -/
def versionNumber? (c : Cursor) : Option (Nat × Cursor) :=
  let ds := c.rest.takeWhile fun d => '0' ≤ d && d ≤ '9'
  if ds.isEmpty || 9 < ds.length then none
  else some (Nat.ofDigitChars 10 ds 0, c.skipMany ds.length)

def versionDirective? (c : Cursor) : Option (Directive × Cursor) := do
  let (major, c) ← versionNumber? (c.skipWhile isBlank)
  if c.rest.head? ≠ some '.' then none
  else
    let (minor, c) ← versionNumber? c.skip
    return (.version major minor, c)

def tagDirective? (c : Cursor) : Option (Directive × Cursor) := do
  let (handle, c) ← handle? (c.skipWhile isBlank)
  if !(isFullHandle handle || handle = ['!']) || !(c.rest.head?.any isBlank) then none
  else
    let (replacement, c) ← uri? true (c.skipWhile isBlank)
    if replacement.isEmpty || !atGap c.rest then none
    else some (.tag (String.ofList handle) replacement, c)

/-- A directive after its `%`, up to the end of its line. -/
def directive? (c : Cursor) : Option (Directive × Cursor) := do
  let name := (c.skip).rest.takeWhile isNameChar
  let after := c.skipMany (name.length + 1)
  if !atGap after.rest then none
  else
    let (d, c) ← match String.ofList name with
      | "YAML" => versionDirective? after
      | "TAG" => tagDirective? after
      | _ => none
    return (d, ← c.finishLine?)

end TypedApi.Yaml
