import TypedApi.TypeExpr.Basic
import TypedApi.Json.Printer

/-! Fingerprints of type expressions.

A fingerprint is a text that shows the structure of a type: the members of an object
in sorted order, each with its name, whether it is required and its type, and all
the parts of every other type in their own order. Descriptions and the names of
discriminators do not show.

`abridged names` writes a component's name in place of a nested object whose own
text `names` knows; with no names it is the plain `fingerprint`. -/
namespace TypedApi

def Primitive.name : Primitive → String
  | .string => "string"
  | .number => "number"
  | .integer => "integer"
  | .boolean => "boolean"
  | .null => "null"

namespace TypeExpr

/-- An object with members. Without them there is too little to recognise it by. -/
def hasMembers : TypeExpr → Bool
  | .object (_ :: _) _ => true
  | _ => false

def commas (parts : List String) : String := String.intercalate "," parts

def sorted (parts : List String) : List String := parts.mergeSort fun a b => decide (a ≤ b)

/-- The text of a nested type: the name of the component that has its own text, if
there is one. -/
def nested (names : String → Option String) (t : TypeExpr) (own : String) : String :=
  if t.hasMembers then
    match names own with
    | some name => "$" ++ name
    | none => own
  else own

mutual
def abridged (names : String → Option String) : TypeExpr → String
  | .ref name => "$" ++ name
  | .primitive kind none => kind.name
  | .primitive kind (some format) => kind.name ++ "(" ++ format ++ ")"
  | .binary => "binary"
  | .const v => "const(" ++ v.compact ++ ")"
  | .enum vs => "enum(" ++ commas (vs.map Json.compact) ++ ")"
  | .array item => "[" ++ nested names item (abridged names item) ++ "]"
  | .tuple elements rest =>
    "tuple(" ++ commas (abridgedAll names elements ++ abridgedRest names rest) ++ ")"
  | .object members additional =>
    "\x7b" ++ commas (sorted (abridgedMembers names members)) ++
      abridgedAdditional names additional ++ "\x7d"
  | .union variants _ => "anyOf(" ++ commas (abridgedAll names variants) ++ ")"
  | .intersection members => "allOf(" ++ commas (abridgedAll names members) ++ ")"
  | .unknown => "unknown"
def abridgedAll (names : String → Option String) : List TypeExpr → List String
  | [] => []
  | t :: ts => nested names t (abridged names t) :: abridgedAll names ts
def abridgedRest (names : String → Option String) : Option TypeExpr → List String
  | none => []
  | some t => ["..." ++ nested names t (abridged names t)]
def abridgedMembers (names : String → Option String) : List Member → List String
  | [] => []
  | { name, type, required, .. } :: ms =>
    (name ++ (if required then "!" else "?") ++ ":" ++ nested names type (abridged names type)) ::
      abridgedMembers names ms
def abridgedAdditional (names : String → Option String) : Option Additional → String
  | none => ""
  | some .any => "|*"
  | some .forbidden => "|closed"
  | some (.of t) => "|*:" ++ nested names t (abridged names t)
end

def fingerprint (t : TypeExpr) : String := abridged (fun _ => none) t

end TypeExpr
end TypedApi
