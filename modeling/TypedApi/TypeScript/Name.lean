import TypedApi.Text.Search
import TypedApi.Text.Uppercase

/-! Names of functions, types and files.

A name is cut into words of ASCII letters and digits, and the words are put together
again in one of three cases. Identifiers are kept away from the reserved words. -/
namespace TypedApi.TypeScript

/-- The words that are no identifiers. -/
def reservedWords : List String := [
  "break", "case", "catch", "class", "const", "continue", "debugger", "default", "delete", "do",
  "else", "enum", "export", "extends", "false", "finally", "for", "function", "if", "import", "in",
  "instanceof", "new", "null", "return", "super", "switch", "this", "throw", "true", "try",
  "typeof", "var", "void", "while", "with", "yield", "let", "static", "implements", "interface",
  "package", "private", "protected", "public", "await", "async"]

/-! ### Words -/

def isUpper (c : Char) : Bool := 'A' ≤ c && c ≤ 'Z'

/-- A word that is complete, before others. -/
def closeWord (word : List Char) (rest : List (List Char)) : List (List Char) :=
  if word.isEmpty then rest else word :: rest

/-- Cuts words at every other character and before a capital that follows a small
letter or a digit. `word` is the word so far, and `small` says that it ends in such a
letter. -/
def wordsFrom (word : List Char) (small : Bool) : List Char → List (List Char)
  | [] => closeWord word []
  | c :: cs =>
    if !Text.isAlphanumeric c then closeWord word (wordsFrom [] false cs)
    else if isUpper c && small then closeWord word (wordsFrom [c] false cs)
    else wordsFrom (word ++ [c]) (!isUpper c) cs

def words (name : List Char) : List (List Char) := wordsFrom [] false name

/-! ### Cases -/

/-- Makes an identifier of letters and digits. -/
def guarded (cs : List Char) : List Char :=
  if cs.isEmpty then "_empty".toList
  else
    let cs := if cs.head?.any Text.isDigit then '_' :: cs else cs
    if reservedWords.contains (String.ofList cs) then '_' :: cs else cs

def lowerFirst : List Char → List Char
  | [] => []
  | c :: cs => c.toLower :: cs

/-- As in `getUserById`. -/
def camelCase (name : String) : String :=
  String.ofList (guarded (match words name.toList with
    | [] => []
    | w :: ws => lowerFirst w ++ ws.flatMap Text.capitalize))

/-- As in `UserAdmin`. -/
def pascalCase (name : String) : String :=
  String.ofList (guarded ((words name.toList).flatMap Text.capitalize))

/-- As in `user-admin`. -/
def kebabCase (name : String) : String :=
  match words name.toList with
  | [] => "default"
  | ws => String.intercalate "-" (ws.map fun w => String.ofList (w.map Char.toLower))

end TypedApi.TypeScript
