import TypedApi.Json.Basic

/-! JSON text as far as it can be read.

A text is decoded in one pass, so of several faults the first one met decides.
To keep that order without mixing reading and decoding, a text is first turned
into a draft: the values that can be read, in place, and where reading stops.
Decoders then walk the draft in text order. A sound draft is a value
(`Draft.value`, `Draft.ofValue`).

Some texts keep the grammar of JSON but name no value: a string with half a
surrogate pair, a number too large for binary64, a container nested too deep.
They are faults for a decoder that reads them and none for one that passes over
them. -/
namespace TypedApi.Json

/-- Why a text is refused: it is not JSON, it ends too early, or it is JSON of
the wrong shape. -/
inductive Fault where
  | malformed
  | truncated
  | mismatch
deriving DecidableEq, Repr, Inhabited

/-- The fault at which a text stops: for a decoder that reads the value there, for
one that passes over it, and for one that asks for a name. The last looks no
further than the first character of another value. -/
structure Stop where
  reading : Fault
  skipping : Fault
  naming : Fault
  /-- The text stops inside `null`. -/
  inNull : Bool := false
deriving DecidableEq, Repr

namespace Stop

/-- One fault for all decoders. -/
def all (f : Fault) : Stop := ⟨f, f, f, false⟩

/-- Whoever asks for a name finds something else. -/
def nameless (s : Stop) : Stop := { s with naming := .malformed }

end Stop

inductive Draft where
  | null
  | bool (value : Bool)
  | num (value : Number)
  | str (value : String)
  /-- A string or number that keeps the grammar but names no value. -/
  | unfit
  | stopped (stop : Stop)
  /-- A container below the nesting limit. -/
  | deep (inner : Draft)
  | arr (items : List Draft) (ending : Option Stop)
  /-- A key that names no string is absent. -/
  | obj (members : List (Option String × Draft)) (ending : Option Stop)
deriving Repr, Inhabited

namespace Draft

mutual
def ofValue : Json → Draft
  | .null => .null
  | .bool b => .bool b
  | .num n => .num n
  | .str s => .str s
  | .arr xs => .arr (ofItems xs) none
  | .obj ms => .obj (ofMembers ms) none
def ofItems : List Json → List Draft
  | [] => []
  | x :: xs => ofValue x :: ofItems xs
def ofMembers : List (String × Json) → List (Option String × Draft)
  | [] => []
  | (k, x) :: ms => (some k, ofValue x) :: ofMembers ms
end

def isNull : Draft → Bool
  | .null => true
  | _ => false

/-- An object without members. -/
def isEmpty : Draft → Bool
  | .obj [] none => true
  | _ => false

/-- The fault of a draft that is none of the values asked for. -/
def refusal : Draft → Fault
  | .stopped s => s.reading
  | .unfit => .malformed
  | _ => .mismatch

/-- The fault found where a container has to end. -/
def ended : Option Stop → Except Fault Unit
  | none => .ok ()
  | some s => .error s.reading

mutual
/-- The value a draft stands for. Of two members with one key the last value
counts, at the first place. -/
def value : Draft → Except Fault Json
  | .null => .ok .null
  | .bool b => .ok (.bool b)
  | .num n => .ok (.num n)
  | .str s => .ok (.str s)
  | .unfit => .error .malformed
  | .stopped s => .error s.reading
  | .deep _ => .error .malformed
  | .arr xs ending => do
    let items ← values xs
    ended ending
    return .arr items
  | .obj ms ending => do
    let members ← memberValues ms
    ended ending
    return .obj (table members)
def values : List Draft → Except Fault (List Json)
  | [] => .ok []
  | x :: xs => do
    let v ← value x
    let vs ← values xs
    return v :: vs
def memberValues : List (Option String × Draft) → Except Fault (List (String × Json))
  | [] => .ok []
  | (none, _) :: _ => .error .malformed
  | (some k, x) :: ms => do
    let v ← value x
    let vs ← memberValues ms
    return (k, v) :: vs
end

mutual
/-- Passes over a value: only the grammar counts. -/
def skip : Draft → Except Fault Unit
  | .stopped s => .error s.skipping
  | .deep d => skip d
  | .arr xs ending => do skipItems xs; skipEnd ending
  | .obj ms ending => do skipMembers ms; skipEnd ending
  | _ => .ok ()
def skipItems : List Draft → Except Fault Unit
  | [] => .ok ()
  | x :: xs => do skip x; skipItems xs
def skipMembers : List (Option String × Draft) → Except Fault Unit
  | [] => .ok ()
  | (_, x) :: ms => do skip x; skipMembers ms
def skipEnd : Option Stop → Except Fault Unit
  | none => .ok ()
  | some s => .error s.skipping
end

mutual
/-- The nesting of a draft. -/
def height : Draft → Nat
  | .deep d => height d + 1
  | .arr xs _ => heightItems xs + 1
  | .obj ms _ => heightMembers ms + 1
  | _ => 1
def heightItems : List Draft → Nat
  | [] => 0
  | x :: xs => max (height x) (heightItems xs)
def heightMembers : List (Option String × Draft) → Nat
  | [] => 0
  | (_, x) :: ms => max (height x) (heightMembers ms)
end

end Draft
end TypedApi.Json
