import TypedApi.Yaml.Node
import TypedApi.Json.Draft

/-! What scalars stand for.

A plain scalar without a tag is null, a truth value, a number or else a text. Four
core tags ask for one of these and refuse a text that does not fit; any other tag
that is not local leaves a text. -/
namespace TypedApi.Yaml

/-- The value of a scalar. Integers beyond 64 bits but within 128 are recognised and
have no place in the values. -/
inductive Scalar where
  | null
  | bool (value : Bool)
  | int (value : Int)
  | wide
  | real (value : Json.Decimal)
  /-- An infinity, or not a number. -/
  | notFinite
  | text (value : String)

namespace Scalar

def isNull (s : String) : Bool := s = "null" || s = "Null" || s = "NULL" || s = "~"

def bool? (s : String) : Option Bool :=
  if s = "true" || s = "True" || s = "TRUE" then some true
  else if s = "false" || s = "False" || s = "FALSE" then some false
  else none

/-! ### Integers -/

def digit? (base : Nat) (c : Char) : Option Nat :=
  (hexDigit? c).bind fun v => if v < base then some v else none

/-- Digits of a base, at least one. -/
def digits? (base : Nat) (cs : List Char) : Option Nat :=
  if cs.isEmpty then none
  else cs.foldlM (fun n c => (digit? base c).map fun v => n * base + v) 0

/-- A natural number in base 16, 8, 2 or 10. -/
def magnitude? : List Char → Option Nat
  | '0' :: 'x' :: cs => digits? 16 cs
  | '0' :: 'o' :: cs => digits? 8 cs
  | '0' :: 'b' :: cs => digits? 2 cs
  | cs => digits? 10 cs

def afterSign : List Char → List Char
  | '+' :: cs => cs
  | '-' :: cs => cs
  | cs => cs

/-- Decimal digits with a zero in front are a text. -/
def isPaddedDigits (cs : List Char) : Bool :=
  match afterSign cs with
  | '0' :: c :: rest => (c :: rest).all fun d => '0' ≤ d && d ≤ '9'
  | _ => false

def integer? (cs : List Char) : Option Int :=
  if isPaddedDigits cs then none
  else
    match cs with
    | '-' :: rest => (magnitude? rest).map fun n => -(n : Int)
    | '+' :: rest => (magnitude? rest).map fun n => (n : Int)
    | cs => (magnitude? cs).map fun n => (n : Int)

/-- An integer by its size. -/
def ofInteger (n : Int) : Option Scalar :=
  if -0x8000000000000000 ≤ n && n < 0x10000000000000000 then some (.int n)
  else if -0x80000000000000000000000000000000 ≤ n &&
      n < 0x100000000000000000000000000000000 then some .wide
  else none

/-! ### Numbers with a fraction -/

def isDecimalDigit (c : Char) : Bool := '0' ≤ c && c ≤ '9'

/-- An exponent with its mark, or nothing at all. -/
def exponent? : List Char → Option Int
  | [] => some 0
  | e :: cs =>
    if e = 'e' || e = 'E' then
      match cs with
      | '-' :: ds => (digits? 10 ds).map fun n => -(n : Int)
      | '+' :: ds => (digits? 10 ds).map fun n => (n : Int)
      | ds => (digits? 10 ds).map fun n => (n : Int)
    else none

/-- A decimal with digits before or after the point, and perhaps an exponent. -/
def decimal? (negative : Bool) (cs : List Char) : Option Json.Decimal := do
  let whole := cs.takeWhile isDecimalDigit
  let rest := cs.dropWhile isDecimalDigit
  let (places, rest) := match rest with
    | '.' :: more => (more.takeWhile isDecimalDigit, more.dropWhile isDecimalDigit)
    | rest => ([], rest)
  if whole.isEmpty && places.isEmpty then none
  else
    let e ← exponent? rest
    let digits := Nat.ofDigitChars 10 (whole ++ places) 0
    return (⟨negative, digits, e - places.length⟩ : Json.Decimal).trim

def isInfinity (cs : List Char) : Bool :=
  let s := String.ofList cs
  s = ".inf" || s = ".Inf" || s = ".INF"

def isNotANumber (cs : List Char) : Bool :=
  let s := String.ofList cs
  s = ".nan" || s = ".NaN" || s = ".NAN"

/-- A finite number, or one of the words for those that are not. -/
def real? (cs : List Char) : Option Scalar :=
  if isInfinity (afterSign cs) || isNotANumber cs then some .notFinite
  else
    let d := match cs with
      | '-' :: rest => decimal? true rest
      | '+' :: rest => decimal? false rest
      | cs => decimal? false cs
    (d.bind Json.Decimal.settle).map .real

/-! ### Tags -/

def ofPlain (s : String) : Scalar :=
  if s.isEmpty || isNull s then .null
  else
    match bool? s with
    | some b => .bool b
    | none =>
      match (integer? s.toList).bind ofInteger with
      | some v => v
      | none =>
        if isPaddedDigits s.toList then .text s else (real? s.toList).getD (.text s)

/-- The value without a tag: only a plain scalar is more than a text. -/
def untagged (s : String) (style : Style) : Scalar :=
  if style = .plain then ofPlain s else .text s

/-- The value with a tag. A local tag has no meaning here. -/
def resolve? (s : String) (style : Style) : Option Tag → Option Scalar
  | none => some (untagged s style)
  | some .nameless => some (untagged s style)
  | some .bool => (bool? s).map .bool
  | some .int => (integer? s.toList).bind ofInteger
  | some .float => real? s.toList
  | some .null => if isNull s then some .null else none
  | some (.own _) => none
  | some .other => some (.text s)

end Scalar
end TypedApi.Yaml
