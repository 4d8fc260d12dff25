import TypedApi.Text.Blank
import TypedApi.Text.Search
import TypedApi.Json.Printer

/-! Literals. -/
namespace TypedApi.TypeScript

/-! ### Identifiers -/

def isIdentifierStart (c : Char) : Bool := Text.isLetter c || c == '_' || c == '$'

def isIdentifierPart (c : Char) : Bool := Text.isAlphanumeric c || c == '_' || c == '$'

def isIdentifier : List Char → Bool
  | [] => false
  | c :: cs => isIdentifierStart c && cs.all isIdentifierPart

/-! ### Strings -/

/-- The lower-case hexadecimal digit of a number below 16. -/
def hexDigit (n : Nat) : Char := Nat.digitChar n

/-- Four hexadecimal digits. -/
def hex4 (n : Nat) : List Char :=
  [hexDigit (n / 4096 % 16), hexDigit (n / 256 % 16), hexDigit (n / 16 % 16), hexDigit (n % 16)]

/-- A character of a string literal in double quotes. -/
def escapeChar (c : Char) : List Char :=
  if c = '\\' then ['\\', '\\']
  else if c = '"' then ['\\', '"']
  else if c = '\n' then ['\\', 'n']
  else if c = '\r' then ['\\', 'r']
  else if c = '\t' then ['\\', 't']
  else if Text.isControl c || c = '\u2028' || c = '\u2029' then '\\' :: 'u' :: hex4 c.toNat
  else [c]

def escape (s : String) : String := String.ofList (s.toList.flatMap escapeChar)

/-- A string literal. -/
def quoted (s : String) : String := "\"" ++ escape s ++ "\""

/-- The key of a member: an identifier stands as it is. -/
def key (name : String) : String := if isIdentifier name.toList then name else quoted name

/-- The literal type of a JSON value. Lists and objects have none. -/
def literal : Json → String
  | .str s => quoted s
  | .arr _ => "unknown"
  | .obj _ => "unknown"
  | v => v.compact

end TypedApi.TypeScript
