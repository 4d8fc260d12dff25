import TypedApi.Json.Basic

/-! Writing JSON.

Each writer takes the text that follows, so a value is written in front of it.
Strings escape the quote, the backslash and the characters below U+0020. -/
namespace TypedApi.Json

def hexDigit (n : Nat) : Char := Nat.digitChar (n % 16)

/-- The escaped form of one character. -/
def escapeChar (c : Char) : List Char :=
  if c = '"' then ['\\', '"']
  else if c = '\\' then ['\\', '\\']
  else if c = '\n' then ['\\', 'n']
  else if c = '\r' then ['\\', 'r']
  else if c = '\t' then ['\\', 't']
  else if c = '\x08' then ['\\', 'b']
  else if c = '\x0c' then ['\\', 'f']
  else if c.toNat < 0x20 then
    ['\\', 'u', '0', '0', hexDigit (c.toNat / 16), hexDigit c.toNat]
  else [c]

def writeText (cs rest : List Char) : List Char :=
  '"' :: cs.foldr (fun c acc => escapeChar c ++ acc) ('"' :: rest)

def writeString (s : String) (rest : List Char) : List Char := writeText s.toList rest

def Number.render : Number → List Char
  | .int n => (if n < 0 then ['-'] else []) ++ Nat.toDigits 10 n.natAbs
  | .real d => d.render

mutual
/-- The compact form: no blank anywhere outside strings. -/
def write : Json → List Char → List Char
  | .null, rest => "null".toList ++ rest
  | .bool true, rest => "true".toList ++ rest
  | .bool false, rest => "false".toList ++ rest
  | .num n, rest => n.render ++ rest
  | .str s, rest => writeString s rest
  | .arr xs, rest => '[' :: writeItems true xs (']' :: rest)
  | .obj ms, rest => '\x7b' :: writeMembers true ms ('\x7d' :: rest)
def writeItems : Bool → List Json → List Char → List Char
  | _, [], rest => rest
  | true, x :: xs, rest => write x (writeItems false xs rest)
  | false, x :: xs, rest => ',' :: write x (writeItems false xs rest)
def writeMembers : Bool → List (String × Json) → List Char → List Char
  | _, [], rest => rest
  | true, (k, x) :: ms, rest => writeString k (':' :: write x (writeMembers false ms rest))
  | false, (k, x) :: ms, rest => ',' :: writeString k (':' :: write x (writeMembers false ms rest))
end

/-- A new line at a nesting level, two spaces each. -/
def newLine (level : Nat) (rest : List Char) : List Char :=
  '\n' :: (List.replicate (2 * level) ' ' ++ rest)

mutual
/-- The indented form: one item or member a line; empty ones stay closed up. -/
def writePretty (level : Nat) : Json → List Char → List Char
  | .arr [], rest => '[' :: ']' :: rest
  | .obj [], rest => '\x7b' :: '\x7d' :: rest
  | .arr (x :: xs), rest =>
    '[' :: newLine (level + 1) (writePretty (level + 1) x
      (writePrettyItems (level + 1) xs (newLine level (']' :: rest))))
  | .obj ((k, x) :: ms), rest =>
    '\x7b' :: newLine (level + 1) (writeString k (':' :: ' ' :: writePretty (level + 1) x
      (writePrettyMembers (level + 1) ms (newLine level ('\x7d' :: rest)))))
  | .null, rest => "null".toList ++ rest
  | .bool true, rest => "true".toList ++ rest
  | .bool false, rest => "false".toList ++ rest
  | .num n, rest => n.render ++ rest
  | .str s, rest => writeString s rest
def writePrettyItems (level : Nat) : List Json → List Char → List Char
  | [], rest => rest
  | x :: xs, rest => ',' :: newLine level (writePretty level x (writePrettyItems level xs rest))
def writePrettyMembers (level : Nat) : List (String × Json) → List Char → List Char
  | [], rest => rest
  | (k, x) :: ms, rest =>
    ',' :: newLine level (writeString k (':' :: ' ' :: writePretty level x
      (writePrettyMembers level ms rest)))
end

def compact (v : Json) : String := String.ofList (write v [])

def pretty (v : Json) : String := String.ofList (writePretty 0 v [])

end TypedApi.Json
