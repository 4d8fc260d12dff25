import TypedApi.Text.Search

/-! Keys of components.

A key consists of letters, digits, `.`, `_` and `-`. The name of a source type is
brought into that alphabet; names that fall together are told apart by a number. -/
namespace TypedApi.OpenApi

/-- The characters of component keys. -/
def isKeyChar (c : Char) : Bool := Text.isAlphanumeric c || c = '.' || c = '_' || c = '-'

/-- Keeps the key characters. What stands between two of them becomes one `_`,
unless an `_` precedes it. -/
def keyChars (last : Option Char) (gap : Bool) : List Char → List Char
  | [] => []
  | c :: cs =>
    if isKeyChar c then
      let separator := if gap && last.isSome && last != some '_' then ['_'] else []
      separator ++ c :: keyChars (some c) false cs
    else keyChars last true cs

/-- The key for a type name: `Paginated<Campaign>` becomes `Paginated_Campaign` and
`User[]` becomes `UserArray`. -/
def componentKey (name : String) : String :=
  match keyChars none false (Text.replace ['[', ']'] "Array".toList name.toList) with
  | [] => "Anonymous"
  | cs => String.ofList cs

def isComponentKey (s : String) : Bool := !s.isEmpty && s.toList.all isKeyChar

/-- The base itself, then the base with 2, 3 and so on. -/
def keyCandidates (base : String) (count : Nat) : List String :=
  base :: (List.range count).map fun i => base ++ toString (i + 2)

/-- The first candidate that is not taken. One more candidate than there are taken
keys leaves one free. -/
def freshKey (base : String) (taken : List String) : String :=
  ((keyCandidates base taken.length).find? fun k => !taken.contains k).getD base

end TypedApi.OpenApi
