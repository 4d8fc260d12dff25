import TypedApi.Json.Basic

/-! Numbers as they are written.

A numeral is a sign, digits before and behind the point and an exponent. Where it writes an
integer of 64 bits it names that integer. Any other numeral stands for a binary64 value, and
there are two ways to find one. `nearest?` takes the value nearest to the number that is
written. `stepwise?` computes with binary64 values: it scales the digits by a power of ten and
rounds at each step, so it may miss the nearest value. -/
namespace TypedApi.Json

structure Numeral where
  negative : Bool
  /-- The digits before the point. -/
  whole : List Char
  /-- The digits behind the point. -/
  places : List Char := []
  exponent : Option Int := none
deriving DecidableEq, Repr

namespace Numeral

/-- The number that is written, with a fraction or not. -/
def decimal (n : Numeral) : Decimal where
  negative := n.negative
  digits := Nat.ofDigitChars 10 (n.whole ++ n.places) 0
  exponent := n.exponent.getD 0 - n.places.length

/-- An integer stays one if it fits 64 bits, and negative zero does not. -/
def int? (n : Numeral) : Option Int :=
  match n.places, n.exponent with
  | [], none =>
    let m := Nat.ofDigitChars 10 n.whole 0
    if n.negative && m != 0 && m ≤ 0x8000000000000000 then some (-(m : Int))
    else if !n.negative && m < 0x10000000000000000 then some m
    else none
  | _, _ => none

/-- The number of a numeral, a real one chosen by `real?`. -/
def number? (real? : Numeral → Option Decimal) (n : Numeral) : Option Number :=
  match n.int? with
  | some i => some (.int i)
  | none => (real? n).map .real

/-- The nearest number. -/
def nearest? : Numeral → Option Number := number? fun n => n.decimal.trim.settle

/-- Appends digits to `m` up to the first with which it would not fit 64 bits. That one and
those behind it are left over. -/
def fill (m : Nat) : List Char → Nat × List Char
  | [] => (m, [])
  | c :: cs =>
    let more := 10 * m + (c.toNat - '0'.toNat)
    if more < 0x10000000000000000 then fill more cs else (m, c :: cs)

/-- The leading digits that fit 64 bits, and the power of ten that they count. A digit before the
point that is left over raises the power, and the digits behind the point are still tried. -/
def significand (n : Numeral) : Nat × Int :=
  let (m, large) := fill 0 n.whole
  let (m, small) := fill m n.places
  (m, n.exponent.getD 0 + large.length - (n.places.length - small.length))

/-- The number found in binary64 arithmetic. -/
def stepwise? : Numeral → Option Number := number? fun n =>
  let (m, e) := n.significand
  (Binary.scale? m e).bind fun b => (b.decimal n.negative).trim.settle

end Numeral
end TypedApi.Json
