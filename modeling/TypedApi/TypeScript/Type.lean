import TypedApi.Api.Index
import TypedApi.TypeScript.Literal

/-! Type expressions as text.

An inline object that the index knows is written as the name of its component. An
array type binds tighter than an intersection, and that tighter than a union, so the
item of an array and the members of an intersection stand in parentheses where they
would fall apart. -/
namespace TypedApi.TypeScript

/-- What type expressions are written in view of: the components by structure, and
the global names that components take for themselves. -/
structure Scope where
  index : Api.Index := {}
  shadowed : List (String × String) := []

namespace Scope

/-- A global type. A shadowed one is reached through the global object. -/
def builtin (s : Scope) (name : String) : String :=
  if (s.shadowed.lookup name).isSome then "globalThis." ++ name else name

end Scope

/-- Joins parts, each of which is written once. -/
def joined (separator : String) (parts : List String) : String :=
  String.intercalate separator parts.eraseDups

def alternatives (parts : List String) : String :=
  if parts.isEmpty then "never" else joined " | " parts

def primitive : Primitive → String
  | .string => "string"
  | .number => "number"
  | .integer => "number"
  | .boolean => "boolean"
  | .null => "null"

def braces (parts : List String) : String := "\x7b " ++ String.intercalate "; " parts ++ " \x7d"

/-- A member up to its type. -/
def memberHead (m : Member) : String :=
  (if m.readOnly then "readonly " else "") ++ key m.name ++ (if m.required then "" else "?")

/-- The type of further members. The declared members have to fit it, so it takes in
their types. -/
def furtherType (value : String) (types : List String) : String :=
  if value = "unknown" || types.isEmpty then value else joined " | " (value :: types)

/-- The item of an array falls apart unless it is in parentheses. -/
def isCompound : TypeExpr → Bool
  | .union variants _ => 1 < variants.length
  | .enum values => 1 < values.length
  | .intersection _ => true
  | _ => false

def arrayOf (item : TypeExpr) (text : String) : String :=
  if isCompound item then "(" ++ text ++ ")[]" else text ++ "[]"

def isUnion : TypeExpr → Bool
  | .union .. => true
  | _ => false

namespace Scope

mutual
/-- The text of a type names a component. -/
def refersToComponent (s : Scope) : TypeExpr → Bool
  | .ref _ => true
  | .array item => refersToComponent s item
  | .tuple elements rest => anyRefers s elements || restRefers s rest
  | .object members additional =>
    (s.index.find? (.object members additional)).isSome || additionalRefers s additional ||
      membersRefer s members
  | .union variants _ => anyRefers s variants
  | .intersection members => anyRefers s members
  | _ => false
def anyRefers (s : Scope) : List TypeExpr → Bool
  | [] => false
  | t :: ts => refersToComponent s t || anyRefers s ts
def restRefers (s : Scope) : Option TypeExpr → Bool
  | none => false
  | some t => refersToComponent s t
def membersRefer (s : Scope) : List Member → Bool
  | [] => false
  | { type, .. } :: ms => refersToComponent s type || membersRefer s ms
def additionalRefers (s : Scope) : Option Additional → Bool
  | some (.of t) => refersToComponent s t
  | _ => false
end

/-- An object without declared members. The type of a component may refer to itself
through an index signature, but not through `Record`. -/
def recordType (s : Scope) (additional : Option Additional) (value : Option String) : String :=
  match additional, value with
  | some .forbidden, _ => "Record<string, never>"
  | some (.of t), some value =>
    if s.refersToComponent t then braces ["[key: string]: " ++ value]
    else "Record<string, " ++ value ++ ">"
  | _, _ => "Record<string, unknown>"

/-- An object type with its members: their heads and types, and the type of further
members. -/
def objectType (members : List (String × String)) (value : Option String) : String :=
  let further := match value with
    | none => []
    | some value => ["[key: string]: " ++ furtherType value (members.map (·.2))]
  braces (members.map (fun (head, type) => head ++ ": " ++ type) ++ further)

mutual
/-- The text of a type where it is used. -/
def type (s : Scope) : TypeExpr → String
  | .ref name => name
  | .primitive kind _ => primitive kind
  | .binary => s.builtin "Blob"
  | .const v => literal v
  | .enum values => alternatives (values.map literal)
  | .array item => arrayOf item (type s item)
  | .tuple elements rest =>
    "[" ++ String.intercalate ", " (types s elements ++ restType s rest) ++ "]"
  | .object members additional =>
    match s.index.find? (.object members additional) with
    | some name => name
    | none =>
      if members.isEmpty then s.recordType additional (furtherValue s additional)
      else objectType (memberTypes s members) (furtherValue s additional)
  | .union variants _ => alternatives (types s variants)
  | .intersection members => joined " & " (operands s members)
  | .unknown => "unknown"
def types (s : Scope) : List TypeExpr → List String
  | [] => []
  | t :: ts => type s t :: types s ts
def restType (s : Scope) : Option TypeExpr → List String
  | none => []
  | some t => ["..." ++ arrayOf t (type s t)]
/-- The heads of members with their types. -/
def memberTypes (s : Scope) : List Member → List (String × String)
  | [] => []
  | { name, type := t, required, description, readOnly } :: ms =>
    (memberHead { name, type := t, required, description, readOnly }, type s t) :: memberTypes s ms
/-- The type that is declared for further members. -/
def furtherValue (s : Scope) : Option Additional → Option String
  | none => none
  | some .any => some "unknown"
  | some .forbidden => none
  | some (.of t) => some (type s t)
/-- The members of an intersection. -/
def operands (s : Scope) : List TypeExpr → List String
  | [] => []
  | t :: ts => (if isUnion t then "(" ++ type s t ++ ")" else type s t) :: operands s ts
end

end Scope
end TypedApi.TypeScript
