import TypedApi.Yaml.Cursor

/-! The texts of scalars.

A scalar is plain, quoted or a block. In plain and quoted scalars a single line
break between two words becomes a space, and of several breaks the first is
dropped (`Gap.fold`). In a block the lines keep their breaks, or are folded in the
same way where neither line begins with a blank. All loops take as fuel the number
of characters left. -/
namespace TypedApi.Yaml

/-- How a scalar is written: plainly, as a block after `|`, or in another way. -/
inductive Style where
  | plain | literal | other
deriving DecidableEq, Repr

/-- What stands between two words: blanks, or the end of a line, the empty lines
after it and their breaks. Characters are held last one first. -/
structure Gap where
  blanks : List Char := []
  lineEnd : Option (List Char) := none
  breaks : List Char := []

namespace Gap

def fold (g : Gap) : List Char :=
  match g.lineEnd with
  | none => g.blanks
  | some ['\n'] => if g.breaks.isEmpty then [' '] else g.breaks
  | some b => g.breaks ++ b

/-- Passes blanks and breaks. A tab left of `margin` at the start of a line is
refused. -/
def take? (margin : Nat) : Nat → Gap → Cursor → Option (Gap × Cursor)
  | 0, g, c => some (g, c)
  | fuel + 1, g, c =>
    match c.rest with
    | [] => some (g, c)
    | x :: _ =>
      if isBlank x then
        if g.lineEnd.isSome then
          if x = '\t' && c.column < margin then none else take? margin fuel g c.skip
        else take? margin fuel { g with blanks := x :: g.blanks } c.skip
      else if isBreak x then
        match g.lineEnd with
        | none => take? margin fuel { g with blanks := [], lineEnd := some [x] } c.skipBreak
        | some _ => take? margin fuel { g with breaks := x :: g.breaks } c.skipBreak
      else some (g, c)

end Gap

/-! ### Plain scalars -/

def isFlowMark (c : Char) : Bool :=
  c = ',' || c = '[' || c = ']' || c = '\x7b' || c = '\x7d'

/-- The characters of a plain scalar up to the next gap, in front of `out`. Inside
brackets a colon may not stand before a mark. -/
def plainWord (flow : Bool) (out : List Char) : Nat → Cursor → Option (List Char × Cursor)
  | 0, c => some (out, c)
  | fuel + 1, c =>
    match c.rest with
    | [] => some (out, c)
    | x :: rest =>
      if isBlank x || isBreak x then some (out, c)
      else if flow && x = ':' && (rest.head?.any fun y => isFlowMark y || y = '?') then none
      else if (x = ':' && atGap rest) || (flow && isFlowMark x) then some (out, c)
      else plainWord flow (x :: out) fuel c.skip

/-- A plain scalar, last character first, with what follows it and whether a line
ended after it. -/
def plainFrom (flow : Bool) (margin : Nat) (out : List Char) (g : Gap) :
    Nat → Cursor → Option (List Char × Cursor × Bool)
  | 0, c => some (out, c, g.lineEnd.isSome)
  | fuel + 1, c =>
    if c.atDocumentMark || c.rest.head? = some '#' then some (out, c, g.lineEnd.isSome)
    else do
      let (word, c') ← plainWord flow [] c.rest.length c
      let (out, g) := if word.isEmpty then (out, g) else (word ++ (g.fold ++ out), {})
      if atGap c'.rest && !c'.atEnd then
        let (g, c'') ← g.take? margin c'.rest.length c'
        if !flow && c''.column < margin then some (out, c'', g.lineEnd.isSome)
        else plainFrom flow margin out g fuel c''
      else some (out, c', g.lineEnd.isSome)

def plain? (flow : Bool) (margin : Nat) (c : Cursor) : Option (String × Cursor × Bool) := do
  let (out, c, ended) ← plainFrom flow margin [] {} (c.rest.length + 1) c
  return (String.ofList out.reverse, c, ended)

/-! ### Quoted scalars -/

def hexDigit? (c : Char) : Option Nat :=
  if '0' ≤ c && c ≤ '9' then some (c.toNat - 48)
  else if 'a' ≤ c && c ≤ 'f' then some (c.toNat - 87)
  else if 'A' ≤ c && c ≤ 'F' then some (c.toNat - 55)
  else none

/-- The character with a code of so many hexadecimal digits. -/
def codeChar? (digits : Nat) (cs : List Char) : Option Char := do
  let ds := cs.take digits
  if ds.length ≠ digits then none
  else
    let n ← ds.foldlM (fun n d => (hexDigit? d).map fun v => n * 16 + v) 0
    if (0xD800 ≤ n && n ≤ 0xDFFF) || n > 0x10FFFF then none else some (Char.ofNat n)

/-- The character that an escape names, and how many characters follow the letter
of the escape. -/
def escape? (letter : Char) (cs : List Char) : Option (Char × Nat) :=
  match letter with
  | '0' => some ('\x00', 0)
  | 'a' => some ('\x07', 0)
  | 'b' => some ('\x08', 0)
  | 't' => some ('\t', 0)
  | '\t' => some ('\t', 0)
  | 'n' => some ('\n', 0)
  | 'v' => some ('\x0b', 0)
  | 'f' => some ('\x0c', 0)
  | 'r' => some ('\r', 0)
  | 'e' => some ('\x1b', 0)
  | ' ' => some (' ', 0)
  | '"' => some ('"', 0)
  | '/' => some ('/', 0)
  | '\\' => some ('\\', 0)
  | 'N' => some ('\x85', 0)
  | '_' => some ('\xa0', 0)
  | 'L' => some ('\u2028', 0)
  | 'P' => some ('\u2029', 0)
  | 'x' => (codeChar? 2 cs).map (·, 2)
  | 'u' => (codeChar? 4 cs).map (·, 4)
  | 'U' => (codeChar? 8 cs).map (·, 8)
  | _ => none

/-- The characters of a quoted scalar up to the next gap or its closing quote. The
result says whether a line end was escaped. -/
def quotedWord (single : Bool) (out : List Char) : Nat → Cursor → Option (List Char × Cursor × Bool)
  | 0, c => some (out, c, false)
  | fuel + 1, c =>
    match c.rest with
    | [] => some (out, c, false)
    | x :: rest =>
      if isBlank x || isBreak x then some (out, c, false)
      else if single then
        if x = '\'' then
          if rest.head? = some '\'' then quotedWord single ('\'' :: out) fuel (c.skipMany 2)
          else some (out, c, false)
        else quotedWord single (x :: out) fuel c.skip
      else if x = '"' then some (out, c, false)
      else if x = '\\' then
        match rest with
        | [] => none
        | y :: rest =>
          if isBreak y then some (out, c.skip.skipBreak, true)
          else
            match escape? y rest with
            | some (e, n) => quotedWord single (e :: out) fuel (c.skipMany (2 + n))
            | none => none
      else quotedWord single (x :: out) fuel c.skip

/-- A quoted scalar after its opening quote, last character first. -/
def quotedFrom (single : Bool) (out : List Char) : Nat → Cursor → Option (List Char × Cursor)
  | 0, _ => none
  | fuel + 1, c =>
    if c.atDocumentMark || c.atEnd then none
    else do
      let (out, c, escaped) ← quotedWord single out c.rest.length c
      if c.rest.head? = some (if single then '\'' else '"') then some (out, c.skip)
      else
        let g : Gap := if escaped then { lineEnd := some [] } else {}
        let (g, c) ← g.take? 0 c.rest.length c
        quotedFrom single (g.fold ++ out) fuel c

def quoted? (single : Bool) (c : Cursor) : Option (String × Cursor) := do
  let (out, c) ← quotedFrom single [] (c.rest.length + 1) c.skip
  return (String.ofList out.reverse, c)

/-! ### Block scalars -/

inductive Chomping where
  | strip | clip | keep
deriving DecidableEq

def chomping? : List Char → Option Chomping
  | '+' :: _ => some .keep
  | '-' :: _ => some .strip
  | _ => none

/-- A digit, and whether it is one that an indentation may have. -/
def indentation? : List Char → Option Nat
  | d :: _ => if '0' ≤ d && d ≤ '9' then some (d.toNat - 48) else none
  | [] => none

/-- The marks after `|` or `>`: how the end is treated and how far the lines are
indented, in either order. An indentation of zero is refused. -/
def blockHeader? (c : Cursor) : Option (Chomping × Option Nat × Cursor) := do
  let (chomping, width, c) ← match chomping? c.rest with
    | some ch =>
      match indentation? (c.skip).rest with
      | some n => pure (ch, some n, c.skipMany 2)
      | none => pure (ch, none, c.skip)
    | none =>
      match indentation? c.rest with
      | some n =>
        match chomping? (c.skip).rest with
        | some ch => pure (ch, some n, c.skipMany 2)
        | none => pure (.clip, some n, c.skip)
      | none => pure (.clip, none, c)
  if width = some 0 then none
  else
    let c ← c.finishLine?
    return (chomping, width, c)

/-- Passes indentation and empty lines. `width` is the indentation if it is known;
the greatest one met is returned, with the breaks passed, last one first. A tab
inside the indentation is refused. -/
def blockGap (width : Option Nat) (greatest : Nat) (breaks : List Char) :
    Nat → Cursor → Option (Nat × List Char × Cursor)
  | 0, c => some (greatest, breaks, c)
  | fuel + 1, c =>
    let spaces := (c.rest.takeWhile (· = ' ')).length
    let c := c.skipMany (match width with
      | some w => min spaces (w - c.column)
      | none => spaces)
    let greatest := max greatest c.column
    match c.rest with
    | [] => some (greatest, breaks, c)
    | x :: _ =>
      if x = '\t' && (width.all (c.column < ·)) then none
      else if isBreak x then blockGap width greatest (x :: breaks) fuel c.skipBreak
      else some (greatest, breaks, c)

/-- The state between two lines of a block: the text so far, the end of the last
line and the empty lines after it, all last character first, and whether the last
line began with a blank. -/
structure BlockLines where
  out : List Char := []
  lineEnd : List Char := []
  breaks : List Char := []
  afterBlank : Bool := false

/-- The text with the lines joined, before the next one is added. -/
def BlockLines.joined (s : BlockLines) (literal blank : Bool) : List Char :=
  if !literal && s.lineEnd = ['\n'] && !s.afterBlank && !blank then
    if s.breaks.isEmpty then ' ' :: s.out else s.breaks ++ s.out
  else s.breaks ++ (s.lineEnd ++ s.out)

/-- The lines of a block that stand at its indentation. -/
def blockLines (literal : Bool) (width : Nat) :
    Nat → BlockLines → Cursor → Option (BlockLines × Cursor)
  | 0, s, c => some (s, c)
  | fuel + 1, s, c =>
    if c.column ≠ width || c.atEnd then some (s, c)
    else do
      let blank := c.rest.head?.any isBlank
      let line := c.rest.takeWhile (!isBreak ·)
      let out := line.reverse ++ s.joined literal blank
      let c := c.skipMany line.length
      let (lineEnd, c) := match c.rest with
        | b :: _ => ([b], c.skipBreak)
        | [] => ([], c)
      let (_, breaks, c) ← blockGap (some width) 0 [] (c.rest.length + 1) c
      blockLines literal width fuel { out, lineEnd, breaks, afterBlank := blank } c

/-- A block scalar after its `|` or `>`, inside a block indented by `indent` (-1 at
the top). -/
def block? (literal : Bool) (indent : Int) (c : Cursor) : Option (String × Cursor) := do
  let (chomping, increment, c) ← blockHeader? c
  let known := increment.map fun n => (if 0 ≤ indent then indent + n else n).toNat
  let (greatest, breaks, c) ← blockGap known 0 [] (c.rest.length + 1) c
  let width := known.getD (max greatest (max (indent + 1) 1).toNat)
  let (s, c) ← blockLines literal width (c.rest.length + 1) { breaks := breaks } c
  let out := match chomping with
    | .strip => s.out
    | .clip => s.lineEnd ++ s.out
    | .keep => s.breaks ++ (s.lineEnd ++ s.out)
  return (String.ofList out.reverse, c)

end TypedApi.Yaml
