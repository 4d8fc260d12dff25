/-! Blank characters and lines.

A character is blank when it has the property White_Space: the 25 characters of
`isBlank`. `trim` takes blanks off both ends, `trimEnd` off the end alone, and
`lines` cuts a text at its line feeds. -/
namespace TypedApi.Text

/-- The White_Space characters. -/
def isBlank (c : Char) : Bool :=
  let n := c.toNat
  (9 ≤ n && n ≤ 13) || n == 0x20 || n == 0x85 || n == 0xA0 || n == 0x1680 ||
    (0x2000 ≤ n && n ≤ 0x200A) || n == 0x2028 || n == 0x2029 || n == 0x202F ||
    n == 0x205F || n == 0x3000

/-- Control characters: U+0000 to U+001F and U+007F to U+009F. -/
def isControl (c : Char) : Bool :=
  c.toNat < 0x20 || (0x7F ≤ c.toNat && c.toNat ≤ 0x9F)

def trimStart (cs : List Char) : List Char := cs.dropWhile isBlank

/-- Drops the blanks at the end: a blank goes when nothing but blanks follows. -/
def trimEnd : List Char → List Char
  | [] => []
  | c :: rest =>
    match trimEnd rest with
    | [] => if isBlank c then [] else [c]
    | kept => c :: kept

def trim (cs : List Char) : List Char := trimEnd (trimStart cs)

/-- Takes one carriage return off the end of a line. -/
def dropReturn : List Char → List Char
  | [] => []
  | ['\r'] => []
  | c :: rest => c :: dropReturn rest

/-- Cuts at every line feed; a line feed at the very end opens no further line,
and a carriage return before a line feed belongs to neither side. -/
def lines (cs : List Char) : List (List Char) :=
  match (cs.splitOn '\n').reverse with
  | [] => []
  | [] :: full => (full.map dropReturn).reverse
  | last :: full => (last :: full.map dropReturn).reverse

end TypedApi.Text
