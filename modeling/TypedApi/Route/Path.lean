import TypedApi.Text.Search

/-! Path templates.

A source path marks a parameter with a colon, `/users/:id`, and the rest of the
path with `*`. A template writes both in braces, `/users/{id}`. -/
namespace TypedApi.Route

/-- A segment of a source path as a segment of a template. -/
def templateSegment : List Char → List Char
  | ':' :: name => '\x7b' :: ((name.reverse.dropWhile (· = '?')).reverse ++ ['\x7d'])
  | ['*'] => '\x7b' :: "path".toList ++ ['\x7d']
  | segment => segment

/-- The segments of a path; empty ones do not count. -/
def segments (cs : List Char) : List (List Char) := (cs.splitOn '/').filter (!·.isEmpty)

/-- Each segment behind a slash; a path without segments is a slash alone. -/
def joinSegments : List (List Char) → List Char
  | [] => ['/']
  | ss => ss.flatMap ('/' :: ·)

/-- The template of a source path. -/
def template (path : String) : String :=
  String.ofList (joinSegments ((segments path.toList).map templateSegment))

/-- The texts between an opening brace and the next closing one. `opened` holds what
has come since the brace, last character first. -/
def scanBraces (opened : Option (List Char)) : List Char → List (List Char)
  | [] => []
  | c :: cs =>
    match opened with
    | none => if c = '\x7b' then scanBraces (some []) cs else scanBraces none cs
    | some acc =>
      if c = '\x7d' then acc.reverse :: scanBraces none cs else scanBraces (some (c :: acc)) cs

/-- Drops an item that equals an earlier one. -/
def distinct {α : Type} [BEq α] (xs : List α) : List α :=
  xs.foldl (fun acc x => if acc.contains x then acc else acc ++ [x]) []

/-- The names of the parameters in a template, in order. -/
def placeholders (path : String) : List String :=
  distinct (((scanBraces none path.toList).filter (!·.isEmpty)).map String.ofList)

end TypedApi.Route
