import TypedApi.Json.Decimal

/-! JSON values.

Objects keep their members in the order they were given. Equality does not look
at that order, and an integer is never equal to a number with a fraction. -/
namespace TypedApi

namespace Json

/-- A number is an integer or a settled decimal. -/
inductive Number where
  | int (value : Int)
  | real (value : Decimal)
deriving DecidableEq, Repr, Inhabited

/-- Numbers are equal within one kind; both zeros with a fraction are equal. -/
def Number.same : Number → Number → Bool
  | .int a, .int b => a == b
  | .real a, .real b => a == b || (a.digits == 0 && b.digits == 0)
  | _, _ => false

end Json

inductive Json where
  | null
  | bool (value : Bool)
  | num (value : Json.Number)
  | str (value : String)
  | arr (items : List Json)
  | obj (members : List (String × Json))
deriving Repr, Inhabited

namespace Json

mutual
/-- Equality of values. Members are compared by key. -/
def same : Json → Json → Bool
  | .null, .null => true
  | .bool a, .bool b => a == b
  | .num a, .num b => a.same b
  | .str a, .str b => a == b
  | .arr as, .arr bs => sameItems as bs
  | .obj as, .obj bs => as.length == bs.length && sameMembers as bs
  | _, _ => false
def sameItems : List Json → List Json → Bool
  | [], [] => true
  | a :: as, b :: bs => same a b && sameItems as bs
  | _, _ => false
def sameMembers : List (String × Json) → List (String × Json) → Bool
  | [], _ => true
  | (k, a) :: as, bs =>
    (match bs.lookup k with
      | some b => same a b
      | none => false) && sameMembers as bs
end

/-- Sets the value of a key: in place if the key is there, else at the end. -/
def assign {α : Type} (key : String) (value : α) : List (String × α) → List (String × α)
  | [] => [(key, value)]
  | (k, v) :: rest => if k = key then (k, value) :: rest else (k, v) :: assign key value rest

/-- A list of assignments as a table: the last value of a key at its first place. -/
def table {α : Type} (entries : List (String × α)) : List (String × α) :=
  entries.foldl (fun acc e => assign e.1 e.2 acc) []

theorem lookup_assign_self {α : Type} (key : String) (value : α) (entries : List (String × α)) :
    (assign key value entries).lookup key = some value := by
  induction entries with
  | nil => simp [assign]
  | cons e rest ih =>
    obtain ⟨k, v⟩ := e
    by_cases h : k = key
    · simp [assign, h]
    · have hk : (key == k) = false := by simpa using fun hk => h hk.symm
      simp [assign, h, List.lookup_cons, hk, ih]

theorem lookup_assign_of_ne {α : Type} {key other : String} (h : other ≠ key) (value : α)
    (entries : List (String × α)) :
    (assign key value entries).lookup other = entries.lookup other := by
  have hne : (other == key) = false := by simpa using h
  induction entries with
  | nil => simp [assign, List.lookup_cons, hne]
  | cons e rest ih =>
    obtain ⟨k, v⟩ := e
    by_cases hk : k = key
    · simp [assign, List.lookup_cons, hk, hne]
    · simp [assign, hk, List.lookup_cons, ih]

/-! ### Access -/

def asObject? : Json → Option (List (String × Json))
  | .obj ms => some ms
  | _ => none

def asArray? : Json → Option (List Json)
  | .arr xs => some xs
  | _ => none

def asString? : Json → Option String
  | .str s => some s
  | _ => none

def asBool? : Json → Option Bool
  | .bool b => some b
  | _ => none

/-- A natural number: an integer that is not negative. -/
def asNat? : Json → Option Nat
  | .num (.int n) => if 0 ≤ n then some n.toNat else none
  | _ => none

/-- The member of an object under a key. -/
def get? (v : Json) (key : String) : Option Json :=
  match v with
  | .obj ms => ms.lookup key
  | _ => none

def ofNat (n : Nat) : Json := .num (.int n)

end Json
end TypedApi
