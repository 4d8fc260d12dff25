import TypedApi.TypeScript.Comment
import TypedApi.TypeScript.Type

/-! Declarations of components. -/
namespace TypedApi.TypeScript.Scope

def memberDeclaration (s : Scope) (m : Member) : String :=
  (match m.description with
    | none => ""
    | some d => summary none (some d) "  ") ++
    "  " ++ memberHead m ++ ": " ++ s.type m.type ++ ";\n"

def interface (name : String) (members : List String) : String :=
  "export interface " ++ name ++ " \x7b\n" ++ String.join members ++ "\x7d\n"

def furtherDeclaration (value : String) : String := "  [key: string]: " ++ value ++ ";\n"

/-- The declaration of a type under a name. An object is an interface, so that it may
refer to itself, unless it can have no members at all. -/
def typeDeclaration (s : Scope) (name : String) : TypeExpr → String
  | .object [] (some .forbidden) => "export type " ++ name ++ " = Record<string, never>;\n"
  | .object [] additional =>
    interface name [furtherDeclaration ((s.furtherValue additional).getD "unknown")]
  | .object members additional =>
    let further := match s.furtherValue additional with
      | none => []
      | some value =>
        [furtherDeclaration (furtherType value (members.map fun m => s.type m.type))]
    interface name (members.map s.memberDeclaration ++ further)
  | t => "export type " ++ name ++ " = " ++ s.type t ++ ";\n"

/-- The declaration of a component with its comment. -/
def declaration (s : Scope) (name : String) (c : Api.Component) : String :=
  summary c.title c.description "" ++ s.typeDeclaration name c.type

end TypedApi.TypeScript.Scope
