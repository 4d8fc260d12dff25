import TypedApi.Json.Basic

/-! Type expressions: the shapes that a client declares.

A type expression is what is left of a schema once everything that a type
declaration cannot say is gone. -/
namespace TypedApi

inductive Primitive where
  | string | number | integer | boolean | null
deriving DecidableEq, Repr

mutual
inductive TypeExpr where
  /-- A component, by name. -/
  | ref (name : String)
  | primitive (kind : Primitive) (format : Option String)
  /-- Raw bytes. -/
  | binary
  | const (value : Json)
  | enum (values : List Json)
  | array (item : TypeExpr)
  | tuple (elements : List TypeExpr) (rest : Option TypeExpr)
  | object (members : List Member) (additional : Option Additional)
  | union (variants : List TypeExpr) (discriminator : Option String)
  | intersection (members : List TypeExpr)
  | unknown

structure Member where
  name : String
  type : TypeExpr
  required : Bool := false
  description : Option String := none
  readOnly : Bool := false

/-- What an object has besides its declared members. -/
inductive Additional where
  | any
  | forbidden
  | of (type : TypeExpr)
end

instance : Inhabited TypeExpr := ⟨.unknown⟩

namespace TypeExpr

def string : TypeExpr := .primitive .string none

def null : TypeExpr := .primitive .null none

def isObject : TypeExpr → Bool
  | .object .. => true
  | _ => false

def isNull : TypeExpr → Bool
  | .primitive .null none => true
  | _ => false

/-- The type or null. Null is added to a union that lacks it. -/
def orNull : TypeExpr → TypeExpr
  | .union variants discriminator =>
    if variants.any isNull then .union variants discriminator
    else .union (variants ++ [null]) discriminator
  | .primitive .null format => .primitive .null format
  | t => .union [t, null] none

mutual
/-- Renames the components that a type refers to. -/
def rename (f : String → String) : TypeExpr → TypeExpr
  | .ref name => .ref (f name)
  | .primitive kind format => .primitive kind format
  | .binary => .binary
  | .const v => .const v
  | .enum vs => .enum vs
  | .array item => .array (rename f item)
  | .tuple es rest => .tuple (renameAll f es) (renameOption f rest)
  | .object ms additional => .object (renameMembers f ms) (renameAdditional f additional)
  | .union vs d => .union (renameAll f vs) d
  | .intersection ms => .intersection (renameAll f ms)
  | .unknown => .unknown
def renameAll (f : String → String) : List TypeExpr → List TypeExpr
  | [] => []
  | t :: ts => rename f t :: renameAll f ts
def renameOption (f : String → String) : Option TypeExpr → Option TypeExpr
  | none => none
  | some t => some (rename f t)
def renameMembers (f : String → String) : List Member → List Member
  | [] => []
  | { name, type, required, description, readOnly } :: ms =>
    { name, type := rename f type, required, description, readOnly } :: renameMembers f ms
def renameAdditional (f : String → String) : Option Additional → Option Additional
  | some (.of t) => some (.of (rename f t))
  | a => a
end

end TypeExpr
end TypedApi
