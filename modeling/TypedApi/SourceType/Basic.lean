import TypedApi.SourceType.Constraints

/-! Types of a source program.

A type is a form together with the modifiers that every form may carry. What
belongs to one form only is part of that form. -/
namespace TypedApi

inductive Atomic where
  | string | number | boolean | bigint | null | undefined
deriving DecidableEq, Repr

namespace Atomic

def name : Atomic → String
  | .string => "string"
  | .number => "number"
  | .boolean => "boolean"
  | .bigint => "bigint"
  | .null => "null"
  | .undefined => "undefined"

def all : List Atomic := [.string, .number, .boolean, .bigint, .null, .undefined]

def named? (s : String) : Option Atomic := all.find? (·.name == s)

theorem named?_name (a : Atomic) : named? a.name = some a := by
  cases a <;> decide

end Atomic

/-- What an object does with members it does not declare. -/
inductive Strictness where
  | strip | strict | passthrough
deriving DecidableEq, Repr

namespace Strictness

def name : Strictness → String
  | .strip => "strip"
  | .strict => "strict"
  | .passthrough => "passthrough"

def all : List Strictness := [.strip, .strict, .passthrough]

def named? (s : String) : Option Strictness := all.find? (·.name == s)

theorem named?_name (s : Strictness) : named? s.name = some s := by
  cases s <;> decide

end Strictness

structure EnumMember where
  name : String
  value : Json
deriving Repr

/-- The property by whose literal value the members of a union are told apart,
and the member that each value selects. -/
structure Discriminant where
  property : String
  mapping : List (String × Nat)
deriving DecidableEq, Repr

mutual
structure SourceType where
  form : Form
  nullable : Bool := false
  optional : Bool := false
  /-- Named types are compiled once and referred to by name. -/
  name : Option String := none
  description : Option String := none
  constraints : Option Constraints := none

inductive Form where
  | any
  | unknown
  | never
  | void
  | atomic (atomic : Atomic)
  | literal (value : Json)
  | object (properties : List Property) (index : Option IndexSignature) (strictness : Strictness)
  | array (element : SourceType)
  | tuple (elements : List TupleElement)
  | union (members : List SourceType) (discriminant : Option Discriminant)
  | intersection (members : List SourceType)
  | enum (members : List EnumMember)
  /-- A type that the runtime provides, such as a date or a map. -/
  | native (name : String) (args : List SourceType)
  | ref (target : String)

structure Property where
  name : String
  type : SourceType
  required : Bool := false
  readonly : Bool := false
  writeOnly : Bool := false
  description : Option String := none
  example? : Option Json := none
  constraints : Option Constraints := none

/-- The type of a rest element is the array type of the tail, not its item type. -/
structure TupleElement where
  type : SourceType
  optional : Bool := false
  rest : Bool := false

structure IndexSignature where
  key : SourceType
  value : SourceType
end

instance : Inhabited SourceType := ⟨{ form := .any }⟩

namespace SourceType

def ofForm (f : Form) : SourceType := { form := f }

def isLiteral (t : SourceType) : Bool :=
  match t.form with
  | .literal _ => true
  | _ => false

def isUndefined (t : SourceType) : Bool :=
  match t.form with
  | .atomic .undefined => true
  | _ => false

/-- Nothing is sent for such a type. -/
def isVoid (t : SourceType) : Bool :=
  match t.form with
  | .void => true
  | .atomic .undefined => true
  | _ => false

/-- Natives that travel as raw bytes. -/
def binaryNatives : List String := ["File", "Blob", "Buffer", "ArrayBuffer"]

end SourceType

mutual
/-- Raw bytes, or a list of them. -/
def SourceType.isBinary : SourceType → Bool
  | { form, .. } => form.isBinary
def Form.isBinary : Form → Bool
  | .native n _ => SourceType.binaryNatives.contains n
  | .array e => e.isBinary
  | _ => false
end

mutual
/-- The nesting of a type. -/
def SourceType.height : SourceType → Nat
  | { form, .. } => form.height + 1
def Form.height : Form → Nat
  | .array e => e.height
  | .object ps index _ => max (heightProperties ps) (heightIndex index)
  | .tuple es => heightElements es
  | .union ms _ => heightTypes ms
  | .intersection ms => heightTypes ms
  | .native _ args => heightTypes args
  | _ => 0
def heightTypes : List SourceType → Nat
  | [] => 0
  | t :: ts => max t.height (heightTypes ts)
def heightProperties : List Property → Nat
  | [] => 0
  | { type, .. } :: ps => max type.height (heightProperties ps)
def heightElements : List TupleElement → Nat
  | [] => 0
  | { type, .. } :: es => max type.height (heightElements es)
def heightIndex : Option IndexSignature → Nat
  | none => 0
  | some { key, value } => max key.height value.height
end

end TypedApi
