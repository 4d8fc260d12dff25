/-! Decimal numbers that name a binary64 value.

A number with a fraction or an exponent is held as a decimal: a sign, digits and
a power of ten. Of all decimals that round to one binary64 value, `settle`
chooses the one with the fewest digits and, among those, the nearest to the
value. So two settled decimals name one value only if they are equal, and a
settled decimal is already its own printed form. -/
namespace TypedApi.Json

/-- `± digits · 10 ^ exponent`. -/
structure Decimal where
  negative : Bool
  digits : Nat
  exponent : Int
deriving DecidableEq, Repr, Inhabited

/-- A finite binary64 magnitude, `mantissa · 2 ^ exponent`. -/
structure Binary where
  mantissa : Nat
  exponent : Int
deriving DecidableEq, Repr

namespace Decimal

/-- Divides out the factors ten, at most `fuel` of them. -/
def stripZeros : Nat → Nat → Int → Nat × Int
  | 0, m, e => (m, e)
  | fuel + 1, m, e =>
    if m != 0 && m % 10 == 0 then stripZeros fuel (m / 10) (e + 1) else (m, e)

/-- The same number with no zero at the end of its digits; zero has exponent 0. -/
def trim (d : Decimal) : Decimal :=
  if d.digits = 0 then { d with exponent := 0 }
  else
    let (m, e) := stripZeros (Nat.toDigits 10 d.digits).length d.digits d.exponent
    { d with digits := m, exponent := e }

def natLength (n : Nat) : Nat := (Nat.toDigits 10 n).length

end Decimal

/-- The quotient rounded to the nearest integer, a half to the even neighbour. -/
def divideToEven (num den : Nat) : Nat :=
  let q := num / den
  let r := num % den
  if 2 * r < den then q else if 2 * r > den then q + 1 else q + q % 2

namespace Binary

/-- `num / den` with the binary exponent fixed at `e`. -/
def mantissaAt (num den : Nat) (e : Int) : Nat :=
  if 0 ≤ e then divideToEven num (den * Nat.pow 2 e.toNat)
  else divideToEven (num * Nat.pow 2 (-e).toNat) den

/-- The exponent of the last place of a value of size `num / den`: 53 bits of
mantissa, and never below that of the smallest subnormal. -/
def lastPlace (num den : Nat) : Int :=
  let guess : Int := (num.log2 : Int) - (den.log2 : Int) - 52
  let floor := fun (e : Int) =>
    if 0 ≤ e then num / (den * Nat.pow 2 e.toNat) else num * Nat.pow 2 (-e).toNat / den
  let e := if floor guess < Nat.pow 2 52 then guess - 1 else guess
  max e (-1074)

/-- The binary64 magnitude nearest to `num / den`, or nothing when that is
beyond the largest one. -/
def nearest? (num den : Nat) : Option Binary :=
  if num = 0 then some ⟨0, -1074⟩
  else
    let e := lastPlace num den
    let m := mantissaAt num den e
    let (m, e) := if m = Nat.pow 2 53 then (Nat.pow 2 52, e + 1) else (m, e)
    if e > 971 then none else some ⟨m, e⟩

end Binary

namespace Decimal

/-- The binary64 magnitude of a decimal. Beyond 400 places on either side the
answer is known without computing it. -/
def toBinary? (d : Decimal) : Option Binary :=
  let size := (natLength d.digits : Int) + d.exponent
  if d.digits = 0 then some ⟨0, -1074⟩
  else if size > 400 then none
  else if size < -400 then some ⟨0, -1074⟩
  else if 0 ≤ d.exponent then Binary.nearest? (d.digits * Nat.pow 10 d.exponent.toNat) 1
  else Binary.nearest? d.digits (Nat.pow 10 (-d.exponent).toNat)

end Decimal

namespace Binary

/-- The value as a fraction. -/
def fraction (b : Binary) : Nat × Nat :=
  if 0 ≤ b.exponent then (b.mantissa * Nat.pow 2 b.exponent.toNat, 1)
  else (b.mantissa, Nat.pow 2 (-b.exponent).toNat)

/-- The value measured in units of `10 ^ e`, as a fraction. -/
def scaled (b : Binary) (e : Int) : Nat × Nat :=
  let (num, den) := b.fraction
  if 0 ≤ e then (num, den * Nat.pow 10 e.toNat) else (num * Nat.pow 10 (-e).toNat, den)

/-- The power of ten of the first digit: `10 ^ k ≤ value < 10 ^ (k + 1)`. -/
def firstPlace (b : Binary) : Int :=
  let (num, den) := b.fraction
  if den ≤ num then (Decimal.natLength (num / den) : Int) - 1
  else
    let quotient := den / num
    let k : Int := -(Decimal.natLength quotient : Int)
    if den % num = 0 && quotient = Nat.pow 10 (Decimal.natLength quotient - 1) then k + 1 else k

/-- Of the two neighbours of the value with `places` digits, the nearest one
that rounds back to it. -/
def candidate? (b : Binary) (places : Nat) : Option Decimal :=
  let e := b.firstPlace + 1 - places
  let (num, den) := b.scaled e
  let low := num / den
  let good := fun m => (Decimal.toBinary? ⟨false, m, e⟩ == some b)
  let nearestFirst := if 2 * (num % den) > den then [low + 1, low]
    else if 2 * (num % den) = den && low % 2 = 1 then [low + 1, low]
    else [low, low + 1]
  (nearestFirst.find? good).map fun m => Decimal.trim ⟨false, m, e⟩

/-- Searches the digit counts upwards from `places`. -/
def search (b : Binary) : Nat → Nat → Option Decimal
  | 0, _ => none
  | fuel + 1, places =>
    match b.candidate? places with
    | some d => some d
    | none => search b fuel (places + 1)

end Binary

namespace Decimal

/-- The shortest decimal with the same binary64 value, or nothing when the
number is too large for one. A decimal stands for itself when the search would
not bring its value back. -/
def settle (d : Decimal) : Option Decimal :=
  match d.toBinary? with
  | none => none
  | some b =>
    if b.mantissa = 0 then some ⟨d.negative, 0, 0⟩
    else
      match b.search 17 1 with
      | some s => if s.toBinary? = some b then some { s with negative := d.negative } else some d
      | none => some d

theorem toBinary?_sign (d : Decimal) (s : Bool) :
    toBinary? { d with negative := s } = toBinary? d := rfl

end Decimal

/-! ### Arithmetic

Each operation is the exact one, rounded to the nearest value. -/

namespace Binary

def mul? (a b : Binary) : Option Binary :=
  nearest? (a.fraction.1 * b.fraction.1) (a.fraction.2 * b.fraction.2)

def div? (a b : Binary) : Option Binary :=
  nearest? (a.fraction.1 * b.fraction.2) (a.fraction.2 * b.fraction.1)

/-- The largest power of ten that binary64 values are scaled by at once. -/
def maxPower : Nat := 308

def powerOfTen? (k : Nat) : Option Binary := nearest? (Nat.pow 10 k) 1

/-- Divides by the largest power, as long as anything is left. -/
def shrink? : Nat → Binary → Option Binary
  | 0, b => some b
  | rounds + 1, b =>
    if b.mantissa = 0 then some b
    else do shrink? rounds (← b.div? (← powerOfTen? maxPower))

/-- `m · 10 ^ e` in binary64 arithmetic: `m`, the powers of ten and each product or quotient are
rounded. -/
def scale? (m : Nat) (e : Int) : Option Binary := do
  let b ← nearest? m 1
  if 0 ≤ e then
    if e ≤ maxPower then b.mul? (← powerOfTen? e.toNat)
    else if b.mantissa = 0 then some b
    else none
  else
    let places := (-e).toNat
    let rounds := (places - 1) / maxPower
    (← b.shrink? rounds).div? (← powerOfTen? (places - maxPower * rounds))

/-- The value with all its digits. -/
def decimal (negative : Bool) (b : Binary) : Decimal :=
  if 0 ≤ b.exponent then ⟨negative, b.mantissa * Nat.pow 2 b.exponent.toNat, 0⟩
  else ⟨negative, b.mantissa * Nat.pow 5 (-b.exponent).toNat, b.exponent⟩

end Binary

namespace Decimal

/-- The text of a settled decimal: plain from `10 ^ -5` to below `10 ^ 16` and
always with a fraction, otherwise one digit before the point and an exponent
that carries its sign. -/
def render (d : Decimal) : List Char :=
  let sign := if d.negative then ['-'] else []
  let ds := Nat.toDigits 10 d.digits
  let place : Int := d.exponent + ds.length - 1
  let body :=
    if d.digits = 0 then ['0', '.', '0']
    else if -5 ≤ place && place < 0 then
      '0' :: '.' :: (List.replicate (-place - 1).toNat '0' ++ ds)
    else if 0 ≤ place && place ≤ 15 then
      if 0 ≤ d.exponent then ds ++ List.replicate d.exponent.toNat '0' ++ ['.', '0']
      else ds.take (place.toNat + 1) ++ '.' :: ds.drop (place.toNat + 1)
    else
      let mantissa := match ds with
        | [] => []
        | [c] => [c]
        | c :: rest => c :: '.' :: rest
      let size := Nat.toDigits 10 place.natAbs
      mantissa ++ 'e' :: (if place < 0 then '-' else '+') :: size
  sign ++ body

end Decimal
end TypedApi.Json
