import TypedApi.Json.Basic
import TypedApi.Text.Search

/-! References inside a document.

A reference `#/a/b` names the value that is reached from the root by the keys
`a` and `b`. In a key `~1` stands for a slash and `~0` for a tilde. -/
namespace TypedApi.Api

def unescapeKey (cs : List Char) : List Char :=
  Text.replace ['~', '0'] ['~'] (Text.replace ['~', '1'] ['/'] cs)

/-- A place in a list: digits without a leading zero. -/
def index? (cs : List Char) : Option Nat :=
  if cs.isEmpty || !cs.all Text.isDigit then none
  else if cs.head? = some '0' && cs.length != 1 then none
  else some (Nat.ofDigitChars 10 cs 0)

def child? (v : Json) (key : List Char) : Option Json :=
  match v with
  | .obj ms => ms.lookup (String.ofList key)
  | .arr xs => (index? key).bind fun i => xs[i]?
  | _ => none

/-- The value that a pointer names. -/
def pointee? (root : Json) (pointer : List Char) : Option Json :=
  match pointer with
  | [] => some root
  | '/' :: path => ((path.splitOn '/').map unescapeKey).foldlM child? root
  | _ => none

/-- Follows a reference, at most `hops` times; one that leads nowhere stays. -/
def resolve (root : Json) : Nat → Json → Json
  | 0, v => v
  | hops + 1, v =>
    match (v.get? "$ref").bind Json.asString? with
    | none => v
    | some r =>
      match r.toList with
      | '#' :: pointer =>
        match pointee? root pointer with
        | some target => resolve root hops target
        | none => v
      | _ => v

def maxHops : Nat := 16

end TypedApi.Api
