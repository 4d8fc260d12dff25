import TypedApi.Json.Draft
import TypedApi.Json.Numeral

/-! Reading JSON text.

The grammar is that of RFC 8259. Blanks are space, tab, line feed and carriage
return. At most `nestingLimit` containers may be open at once. An integer of 64
bits, signed or unsigned, stays an integer; any other number, and a negative
zero, is computed in binary64 arithmetic (`Numeral.stepwise?`). -/
namespace TypedApi.Json

def nestingLimit : Nat := 127

def isSpace (c : Char) : Bool := c = ' ' || c = '\n' || c = '\t' || c = '\r'

def skipSpace (cs : List Char) : List Char := cs.dropWhile isSpace

/-- A draft and, unless the text stops in it, what follows. -/
abbrev Taken := Draft × Option (List Char)

def halt (stop : Stop) : Taken := (.stopped stop, none)

/-! ### Strings -/

def hexValue? (c : Char) : Option Nat :=
  if '0' ≤ c && c ≤ '9' then some (c.toNat - 48)
  else if 'a' ≤ c && c ≤ 'f' then some (c.toNat - 87)
  else if 'A' ≤ c && c ≤ 'F' then some (c.toNat - 55)
  else none

def hexCode? (a b c d : Char) : Option Nat := do
  let a ← hexValue? a
  let b ← hexValue? b
  let c ← hexValue? c
  let d ← hexValue? d
  return ((a * 16 + b) * 16 + c) * 16 + d

def isLead (n : Nat) : Bool := 0xD800 ≤ n && n ≤ 0xDBFF

def isTrail (n : Nat) : Bool := 0xDC00 ≤ n && n ≤ 0xDFFF

/-- The character of a surrogate pair. -/
def pairChar (lead trail : Nat) : Char :=
  Char.ofNat ((lead - 0xD800) * 0x400 + (trail - 0xDC00) + 0x10000)

/-- The character after a backslash, for the escapes of one letter. -/
def escaped? : Char → Option Char
  | '"' => some '"'
  | '\\' => some '\\'
  | '/' => some '/'
  | 'b' => some '\x08'
  | 'f' => some '\x0c'
  | 'n' => some '\n'
  | 'r' => some '\r'
  | 't' => some '\t'
  | _ => none

/-- What a string is made of: characters, and code units written in hexadecimal. -/
inductive TextUnit where
  | plain (c : Char)
  | code (n : Nat)

/-- The characters that units name. Code units of surrogates count in pairs only. -/
def unitChars? : List TextUnit → Option (List Char)
  | [] => some []
  | .plain c :: us => (unitChars? us).map (c :: ·)
  | .code n :: .code m :: us =>
    if isTrail n then none
    else if isLead n then
      if isTrail m then (unitChars? us).map (pairChar n m :: ·) else none
    else (unitChars? (.code m :: us)).map (Char.ofNat n :: ·)
  | .code n :: us =>
    if isTrail n || isLead n then none else (unitChars? us).map (Char.ofNat n :: ·)

/-- Units that more text may still turn into a string: the last of them, first in
the list, may wait for its pair. -/
def mayFit (reversed : List TextUnit) : Bool :=
  match reversed with
  | .code n :: us =>
    if isLead n then (unitChars? us.reverse).isSome else (unitChars? reversed.reverse).isSome
  | us => (unitChars? us.reverse).isSome

/-- A string up to its closing quote; the text is absent when the string names
none. -/
inductive TextEnd where
  | closed (text : Option String) (rest : List Char)
  | stopped (stop : Stop)

/-- A string that can no longer name a text is malformed for its reader. -/
def textStop (acc : List TextUnit) (f : Fault) : TextEnd :=
  let read := if mayFit acc then f else .malformed
  .stopped ⟨read, f, read, false⟩

/-- Fewer than four bytes cannot hold the digits of an escape. -/
def shortEscape (cs : List Char) : Fault :=
  if (String.ofList cs).utf8ByteSize < 4 then .truncated else .malformed

/-- Reads a string after its opening quote; `acc` holds the units read, last one
first. -/
def readText (acc : List TextUnit) : List Char → TextEnd
  | [] => textStop acc .truncated
  | '"' :: rest => .closed ((unitChars? acc.reverse).map String.ofList) rest
  | '\\' :: 'u' :: a :: b :: c :: d :: rest =>
    match hexCode? a b c d with
    | some n => readText (.code n :: acc) rest
    | none => textStop acc .malformed
  | '\\' :: 'u' :: rest => textStop acc (shortEscape rest)
  | '\\' :: c :: rest =>
    match escaped? c with
    | some e => readText (.plain e :: acc) rest
    | none => textStop acc .malformed
  | ['\\'] => textStop acc .truncated
  | c :: rest =>
    if c.toNat < 0x20 then textStop acc .malformed else readText (.plain c :: acc) rest

/-! ### Numbers -/

def isNumeral (c : Char) : Bool := '0' ≤ c && c ≤ '9'

/-- Splits the leading digits off. -/
def spanDigits (cs : List Char) : List Char × List Char :=
  (cs.takeWhile isNumeral, cs.dropWhile isNumeral)

/-- In a number, a text that ends too early is malformed for whoever passes over
it. -/
def numberStop : List Char → Stop
  | [] => ⟨.truncated, .malformed, .malformed, false⟩
  | _ => .all .malformed

/-- A numeral and what follows it, or where the text stops in it. -/
abbrev Scanned := Except Stop (Numeral × List Char)

/-- The digits after the mark of an exponent and its sign. -/
def scanExponent (n : Numeral) (down : Bool) (cs : List Char) : Scanned :=
  let (es, rest) := spanDigits cs
  if es.isEmpty then .error (numberStop rest)
  else
    let e : Int := Nat.ofDigitChars 10 es 0
    .ok ({ n with exponent := some (if down then -e else e) }, rest)

/-- What may follow the digits of a number: an exponent or nothing. -/
def scanTail (n : Numeral) : List Char → Scanned
  | 'e' :: '+' :: cs | 'E' :: '+' :: cs => scanExponent n false cs
  | 'e' :: '-' :: cs | 'E' :: '-' :: cs => scanExponent n true cs
  | 'e' :: cs | 'E' :: cs => scanExponent n false cs
  | cs => .ok (n, cs)

/-- A number after its sign. -/
def scanNumber (negative : Bool) (cs : List Char) : Scanned :=
  let (whole, rest) := spanDigits cs
  match whole with
  | [] => .error (numberStop rest)
  | '0' :: _ :: _ => .error (.all .malformed)
  | _ =>
    match rest with
    | '.' :: more =>
      let (places, after) := spanDigits more
      if places.isEmpty then .error (numberStop after)
      else scanTail ⟨negative, whole, places, none⟩ after
    | _ => scanTail ⟨negative, whole, [], none⟩ rest

/-- A number too large for binary64 keeps the grammar but names no value. -/
def Draft.ofNumber? : Option Number → Draft
  | some n => .num n
  | none => .unfit

def readNumber (value? : Numeral → Option Number) (negative : Bool) (cs : List Char) : Taken :=
  match scanNumber negative cs with
  | .error s => halt s
  | .ok (n, rest) => (.ofNumber? (value? n), some rest)

/-! ### Values -/

/-- One of the three words, after its first letter. -/
def readWord (value : Draft) : List Char → List Char → Taken
  | [], cs => (value, some cs)
  | _ :: _, [] => halt ⟨.truncated, .truncated, .malformed, value.isNull⟩
  | n :: ns, c :: cs => if n = c then readWord value ns cs else halt (.all .malformed)

/-- Reads a value that is no container, if one begins here. The number of a numeral is
that of `value?`. -/
def readScalar (value? : Numeral → Option Number) : List Char → Taken
  | [] => halt (.all .truncated)
  | 'n' :: rest => readWord .null ['u', 'l', 'l'] rest
  | 't' :: rest => readWord (.bool true) ['r', 'u', 'e'] rest
  | 'f' :: rest => readWord (.bool false) ['a', 'l', 's', 'e'] rest
  | '-' :: rest => readNumber value? true rest
  | '"' :: rest =>
    match readText [] rest with
    | .closed (some s) rest => (.str s, some rest)
    | .closed none rest => (.unfit, some rest)
    | .stopped s => halt s
  | c :: rest => if isNumeral c then readNumber value? false (c :: rest) else halt (.all .malformed)

/-- An object stops where its first key has to begin. Whoever asks for a name there
finds another value. -/
def keyStop : List Char → Stop
  | [] => .all .truncated
  | '[' :: _ | '\x7b' :: _ => ⟨.malformed, .malformed, .mismatch, false⟩
  | cs => ⟨.malformed, .malformed, (readScalar Numeral.stepwise? cs).1.refusal, false⟩

/-- Wraps a container that opens with no room left. -/
def nested (room : Nat) (d : Draft) : Draft := if room = 0 then .deep d else d

mutual
/-- Reads one value. `room` counts the containers that may still open, `fuel` the
steps. -/
def readValue : Nat → Nat → List Char → Taken
  | 0, _, _ => halt (.all .malformed)
  | fuel + 1, room, cs =>
    match skipSpace cs with
    | '[' :: rest =>
      let (items, ending) := readItems fuel (room - 1) true rest
      match ending with
      | .inl s => (nested room (.arr items (some s)), none)
      | .inr rest => (nested room (.arr items none), some rest)
    | '\x7b' :: rest =>
      let (members, ending) := readMembers fuel (room - 1) true rest
      match ending with
      | .inl s => (nested room (.obj members (some s)), none)
      | .inr rest => (nested room (.obj members none), some rest)
    | rest => readScalar Numeral.stepwise? rest
/-- The items after an opening bracket or a value, and where they end. -/
def readItems : Nat → Nat → Bool → List Char → List Draft × (Stop ⊕ List Char)
  | 0, _, _, _ => ([], .inl (.all .malformed))
  | fuel + 1, room, first, cs =>
    match skipSpace cs with
    | [] => ([], .inl (.all .truncated))
    | ']' :: rest => ([], .inr rest)
    | ',' :: rest =>
      if first then readItem fuel room (',' :: rest)
      else
        match skipSpace rest with
        | ']' :: _ => ([], .inl (.all .malformed))
        | rest => readItem fuel room rest
    | rest => if first then readItem fuel room rest else ([], .inl (.all .malformed))
def readItem : Nat → Nat → List Char → List Draft × (Stop ⊕ List Char)
  | 0, _, _ => ([], .inl (.all .malformed))
  | fuel + 1, room, cs =>
    match readValue fuel room cs with
    | (.stopped s, none) => ([.stopped s], .inl s)
    | (d, none) => ([d], .inl (.all .malformed))
    | (d, some rest) =>
      let (items, ending) := readItems fuel room false rest
      (d :: items, ending)
/-- The members after an opening brace or a value, and where they end. -/
def readMembers : Nat → Nat → Bool → List Char →
    List (Option String × Draft) × (Stop ⊕ List Char)
  | 0, _, _, _ => ([], .inl (.all .malformed))
  | fuel + 1, room, first, cs =>
    match skipSpace cs with
    | [] => ([], .inl (.all .truncated))
    | '\x7d' :: rest => ([], .inr rest)
    | ',' :: rest =>
      if first then ([], .inl (.all .malformed))
      else
        match skipSpace rest with
        | [] => ([], .inl (Stop.all .truncated).nameless)
        | '"' :: rest => readMember fuel room false rest
        | _ => ([], .inl (.all .malformed))
    | '"' :: rest =>
      if first then readMember fuel room true rest else ([], .inl (.all .malformed))
    | cs => ([], .inl (if first then keyStop cs else .all .malformed))
/-- One member after the quote that opens its key, and those that follow. -/
def readMember : Nat → Nat → Bool → List Char →
    List (Option String × Draft) × (Stop ⊕ List Char)
  | 0, _, _, _ => ([], .inl (.all .malformed))
  | fuel + 1, room, first, cs =>
    match readText [] cs with
    | .stopped s => ([], .inl (if first then s else s.nameless))
    | .closed key rest =>
      match skipSpace rest with
      | ':' :: rest =>
        match readValue fuel room rest with
        | (d, none) => ([(key, d)], .inl (.all .malformed))
        | (d, some rest) =>
          let (members, ending) := readMembers fuel room false rest
          ((key, d) :: members, ending)
      | [] => ([(key, .stopped (.all .truncated))], .inl (.all .truncated))
      | _ => ([(key, .stopped (.all .malformed))], .inl (.all .malformed))
end

/-- A whole text: its draft, and whether anything but blanks follows. -/
structure Reading where
  draft : Draft
  trailing : Bool

def Reading.ofText (text : String) : Reading :=
  let cs := text.toList
  match readValue (3 * cs.length + 3) nestingLimit cs with
  | (d, none) => ⟨d, false⟩
  | (d, some rest) => ⟨d, !(skipSpace rest).isEmpty⟩

end TypedApi.Json
