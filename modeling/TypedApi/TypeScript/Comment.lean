import TypedApi.Text.Blank
import TypedApi.Text.Search

/-! Comments in front of declarations. -/
namespace TypedApi.TypeScript

/-- Takes blanks off both ends and breaks every end mark inside. -/
def commentText (s : String) : List Char :=
  Text.replace ['*', '/'] ['*', '\\', '/'] (Text.trim s.toList)

/-- A line of a block. -/
def commentLine (line : List Char) : List Char :=
  if (Text.trim line).isEmpty then " *\n".toList
  else " * ".toList ++ Text.trimEnd line ++ ['\n']

/-- A comment in one line, or a block if the text has several. -/
def comment (s indent : String) : String :=
  let text := commentText s
  let margin := indent.toList
  String.ofList <|
    if text.contains '\n' then
      margin ++ "/**\n".toList ++
        (Text.lines text).flatMap (fun line => margin ++ commentLine line) ++
        margin ++ " */\n".toList
    else margin ++ "/** ".toList ++ text ++ " */\n".toList

/-- A text that has more than blanks, without those at its ends. -/
def filled? (s : Option String) : Option String :=
  match s with
  | none => none
  | some s =>
    let cs := Text.trim s.toList
    if cs.isEmpty then none else some (String.ofList cs)

/-- The comment of a title and a description. Of two equal ones only one is written,
and two different ones stand apart. -/
def summary (title description : Option String) (indent : String) : String :=
  match filled? title, filled? description with
  | none, none => ""
  | some s, none => comment s indent
  | none, some s => comment s indent
  | some t, some d => if t = d then comment t indent else comment (t ++ "\n\n" ++ d) indent

end TypedApi.TypeScript
