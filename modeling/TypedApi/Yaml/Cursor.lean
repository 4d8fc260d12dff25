/-! Places in YAML text.

Line breaks are made uniform before anything is read: a carriage return, a line
feed, both together and U+0085 all become a line feed, while U+2028 and U+2029
stay as they are. -/
namespace TypedApi.Yaml

/-- The characters that a text may hold. -/
def isAllowed (c : Char) : Bool :=
  let n := c.toNat
  n == 0x09 || n == 0x0A || n == 0x0D || (0x20 ≤ n && n ≤ 0x7E) || n == 0x85 ||
    (0xA0 ≤ n && n ≤ 0xD7FF) || (0xE000 ≤ n && n ≤ 0xFFFD) || 0x10000 ≤ n

/-- Makes line breaks uniform. `pending` says that a carriage return came before. -/
def uniformBreaks (pending : Bool) : List Char → List Char
  | [] => []
  | c :: cs =>
    if c = '\n' && pending then uniformBreaks false cs
    else if c = '\r' then '\n' :: uniformBreaks true cs
    else if c = '\x85' then '\n' :: uniformBreaks false cs
    else c :: uniformBreaks false cs

def isBreak (c : Char) : Bool := c = '\n' || c = '\u2028' || c = '\u2029'

def isBlank (c : Char) : Bool := c = ' ' || c = '\t'

/-- Letters, digits, `_` and `-`: the characters of names. -/
def isNameChar (c : Char) : Bool :=
  ('a' ≤ c && c ≤ 'z') || ('A' ≤ c && c ≤ 'Z') || ('0' ≤ c && c ≤ '9') || c = '_' || c = '-'

/-- A text begins with a blank or a break, or is over. -/
def atGap : List Char → Bool
  | [] => true
  | c :: _ => isBlank c || isBreak c

/-- A place in a text: what follows, and where it is. -/
structure Cursor where
  rest : List Char
  /-- The number of bytes before it. -/
  offset : Nat := 0
  line : Nat := 0
  /-- The number of characters before it in its line. -/
  column : Nat := 0

namespace Cursor

/-- Passes characters, none of them a break. -/
def skipMany (c : Cursor) (n : Nat) : Cursor :=
  { c with
    rest := c.rest.drop n
    offset := c.offset + (String.ofList (c.rest.take n)).utf8ByteSize
    column := c.column + n }

/-- Passes a character that is no break. -/
def skip (c : Cursor) : Cursor := c.skipMany 1

/-- Passes a break. -/
def skipBreak (c : Cursor) : Cursor :=
  { c.skip with line := c.line + 1, column := 0 }

/-- Passes the characters of a kind, none of them a break. -/
def skipWhile (c : Cursor) (p : Char → Bool) : Cursor :=
  c.skipMany (c.rest.takeWhile p).length

def atEnd (c : Cursor) : Bool := c.rest.isEmpty

/-- The line holds one of the two document marks. -/
def atDocumentMark (c : Cursor) : Bool :=
  c.column == 0 &&
    match c.rest with
    | '-' :: '-' :: '-' :: rest => atGap rest
    | '.' :: '.' :: '.' :: rest => atGap rest
    | _ => false

/-- Passes blanks and a comment, up to the end of the line and over its break. -/
def finishLine? (c : Cursor) : Option Cursor :=
  let c := c.skipWhile isBlank
  let c := if c.rest.head? = some '#' then c.skipWhile (!isBreak ·) else c
  match c.rest with
  | [] => some c
  | b :: _ => if isBreak b then some c.skipBreak else none

end Cursor
end TypedApi.Yaml
