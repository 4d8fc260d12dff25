import TypedApi.Api.Basic
import TypedApi.TypeExpr.Fingerprint

/-! The components of an API by structure.

An inline object is recognised as the component of the same structure, the first one
if there are several. The index holds the fingerprint of every component, and then
the text that each component has when the components inside it are abridged to their
names, so that a component is found whether it holds another one by reference or
written out. -/
namespace TypedApi.Api

structure Index where
  /-- The name of the component for each text. -/
  names : List (String × String) := []

namespace Index

def name? (index : Index) (key : String) : Option String := index.names.lookup key

/-- Adds a text, unless it is there. -/
def add (index : Index) (key name : String) : Index :=
  match index.name? key with
  | some _ => index
  | none => ⟨index.names ++ [(key, name)]⟩

def addAll (index : Index) (entries : List (String × String)) : Index :=
  entries.foldl (fun index (key, name) => index.add key name) index

def abridged (index : Index) (t : TypeExpr) : String := t.abridged index.name?

def ofComponents (components : List (String × Component)) : Index :=
  let objects := components.filter fun c => c.2.type.hasMembers
  let plain := ({} : Index).addAll (objects.map fun c => (c.2.type.fingerprint, c.1))
  plain.addAll (objects.map fun c => (plain.abridged c.2.type, c.1))

/-- The component that an inline object stands for. -/
def find? (index : Index) (t : TypeExpr) : Option String :=
  if t.hasMembers then index.name? (index.abridged t) <|> index.name? t.fingerprint else none

def size (index : Index) : Nat := index.names.length

end Index
end TypedApi.Api
