import TypedApi.Yaml.Tag

/-! Tokens of YAML text.

The tokens show the block structure: where a block of a greater indentation begins
and where it ends. Whether a text is the key of a mapping is known only at the
colon that follows it, so each place where a key may begin is remembered, and the
tokens that open the key are put in there afterwards. Such a key stands on one line
and is at most 1024 bytes long.

A byte order mark at the start of a line is passed over and takes up a column. -/
namespace TypedApi.Yaml

inductive Token where
  | directive (directive : Directive)
  | documentStart
  | documentEnd
  | blockSequenceStart
  | blockMappingStart
  | blockEnd
  | flowSequenceStart
  | flowSequenceEnd
  | flowMappingStart
  | flowMappingEnd
  | blockEntry
  | flowEntry
  | key
  | value
  | alias (name : String)
  | anchor (name : String)
  | tag (tag : TagText)
  | scalar (text : String) (style : Style)

/-- A place where a key may have begun. -/
structure KeyPlace where
  /-- At the indentation of the block only a key can stand. -/
  required : Bool
  /-- The number of tokens before it. -/
  place : Nat
  line : Nat
  offset : Nat
  column : Nat

structure Scanner where
  cursor : Cursor
  /-- The tokens read, last one first. -/
  tokens : List Token := []
  count : Nat := 0
  /-- The indentation of the innermost block, and those around it. -/
  indent : Int := -1
  indents : List Int := []
  keyAllowed : Bool := true
  /-- The possible key of this level of brackets, and those of the levels around. -/
  key : Option KeyPlace := none
  outerKeys : List (Option KeyPlace) := []

namespace Scanner

/-- Inside brackets. -/
def inFlow (s : Scanner) : Bool := !s.outerKeys.isEmpty

def emit (s : Scanner) (t : Token) : Scanner :=
  { s with tokens := t :: s.tokens, count := s.count + 1 }

/-- Puts a token in after the first `place` ones. -/
def insertAt (s : Scanner) (place : Nat) (t : Token) : Scanner :=
  let later := s.count - place
  { s with
    tokens := s.tokens.take later ++ t :: s.tokens.drop later
    count := s.count + 1 }

/-! ### Indentation -/

/-- Opens a block if the column is beyond the indentation. -/
def roll (s : Scanner) (column : Nat) (place : Option Nat) (t : Token) : Scanner :=
  if s.inFlow || (column : Int) ≤ s.indent then s
  else
    let s := match place with
      | some n => s.insertAt n t
      | none => s.emit t
    { s with indent := column, indents := s.indent :: s.indents }

/-- Closes the blocks indented beyond a column. -/
def unroll (column : Int) : List Int → Scanner → Scanner
  | [], s => s
  | outer :: rest, s =>
    if s.inFlow || s.indent ≤ column then s
    else unroll column rest { s.emit .blockEnd with indent := outer, indents := rest }

def unrollTo (s : Scanner) (column : Int) : Scanner := unroll column s.indents s

/-! ### Keys -/

/-- Forgets the possible key, unless it has to be one. -/
def dropKey? (s : Scanner) : Option Scanner :=
  match s.key with
  | some k => if k.required then none else some { s with key := none }
  | none => some s

def saveKey? (s : Scanner) : Option Scanner :=
  if s.keyAllowed then do
    let s ← s.dropKey?
    let c := s.cursor
    return { s with key := some {
      required := !s.inFlow && s.indent = c.column
      place := s.count
      line := c.line
      offset := c.offset
      column := c.column } }
  else some s

def isStale (s : Scanner) (k : KeyPlace) : Bool :=
  k.line < s.cursor.line || k.offset + 1024 < s.cursor.offset

/-- A key that has grown too long is none. -/
def freshKey? (s : Scanner) : Option KeyPlace → Option (Option KeyPlace)
  | none => some none
  | some k => if s.isStale k then (if k.required then none else some none) else some (some k)

def dropStaleKeys? (s : Scanner) : Option Scanner := do
  let key ← s.freshKey? s.key
  let outerKeys ← s.outerKeys.mapM s.freshKey?
  return { s with key, outerKeys }

/-! ### Tokens -/

/-- Passes blanks, comments and breaks. A tab does not separate where a key may
begin. -/
def toNextToken : Nat → Scanner → Scanner
  | 0, s => s
  | fuel + 1, s =>
    let tabs := s.inFlow || !s.keyAllowed
    let c := s.cursor
    let c := if c.column = 0 && c.rest.head? = some '\ufeff' then c.skip else c
    let c := c.skipWhile fun x => x = ' ' || (tabs && x = '\t')
    let c := if c.rest.head? = some '#' then c.skipWhile (!isBreak ·) else c
    match c.rest with
    | [] => { s with cursor := c }
    | x :: _ =>
      if isBreak x then
        toNextToken fuel { s with cursor := c.skipBreak, keyAllowed := s.keyAllowed || !s.inFlow }
      else { s with cursor := c }

/-- Passes the mark of a token. -/
def mark (s : Scanner) (width : Nat) (t : Token) : Scanner :=
  { s with cursor := s.cursor.skipMany width }.emit t

def allowKey (s : Scanner) (allowed : Bool) : Scanner := { s with keyAllowed := allowed }

def documentMark? (s : Scanner) (t : Token) : Option Scanner := do
  let s ← (s.unrollTo (-1)).dropKey?
  return (s.mark 3 t).allowKey false

def directiveToken? (s : Scanner) : Option Scanner := do
  let s ← (s.unrollTo (-1)).dropKey?
  let (d, c) ← directive? s.cursor
  return ({ s with cursor := c }.emit (.directive d)).allowKey false

def flowStart? (s : Scanner) (t : Token) : Option Scanner := do
  let s ← s.saveKey?
  let s := { s with key := none, outerKeys := s.key :: s.outerKeys }
  return (s.mark 1 t).allowKey true

def flowEnd? (s : Scanner) (t : Token) : Option Scanner := do
  let s ← s.dropKey?
  let s := match s.outerKeys with
    | [] => s
    | key :: outer => { s with key := key, outerKeys := outer }
  return (s.mark 1 t).allowKey false

def flowEntry? (s : Scanner) : Option Scanner := do
  let s ← s.dropKey?
  return (s.mark 1 .flowEntry).allowKey true

def blockEntry? (s : Scanner) : Option Scanner := do
  if !s.inFlow && !s.keyAllowed then none
  else
    let s ← (s.roll s.cursor.column none .blockSequenceStart).dropKey?
    return (s.mark 1 .blockEntry).allowKey true

def key? (s : Scanner) : Option Scanner := do
  if !s.inFlow && !s.keyAllowed then none
  else
    let s ← (s.roll s.cursor.column none .blockMappingStart).dropKey?
    return (s.mark 1 .key).allowKey (!s.inFlow)

def value? (s : Scanner) : Option Scanner :=
  match s.key with
  | some k =>
    let s := (s.insertAt k.place .key).roll k.column (some k.place) .blockMappingStart
    some (({ s with key := none }.mark 1 .value).allowKey false)
  | none =>
    if !s.inFlow && !s.keyAllowed then none
    else
      let s := s.roll s.cursor.column none .blockMappingStart
      some ((s.mark 1 .value).allowKey (!s.inFlow))

def named? (s : Scanner) (t : String → Token) : Option Scanner := do
  let s ← s.saveKey?
  let (name, c) ← anchorName? s.cursor
  return ({ s with cursor := c }.emit (t name)).allowKey false

def tagToken? (s : Scanner) : Option Scanner := do
  let s ← s.saveKey?
  let (t, c) ← tag? s.inFlow s.cursor
  return ({ s with cursor := c }.emit (.tag t)).allowKey false

def blockScalar? (s : Scanner) (literal : Bool) : Option Scanner := do
  let s ← s.dropKey?
  let (text, c) ← block? literal s.indent s.cursor.skip
  let style : Style := if literal then .literal else .other
  return ({ s with cursor := c }.emit (.scalar text style)).allowKey true

def quotedScalar? (s : Scanner) (single : Bool) : Option Scanner := do
  let s ← s.saveKey?
  let (text, c) ← quoted? single s.cursor
  return ({ s with cursor := c }.emit (.scalar text .other)).allowKey false

def plainScalar? (s : Scanner) : Option Scanner := do
  let s ← s.saveKey?
  let (text, c, ended) ← plain? s.inFlow (s.indent + 1).toNat s.cursor
  return ({ s with cursor := c }.emit (.scalar text .plain)).allowKey ended

/-- The characters with which no plain scalar begins. -/
def indicators : List Char := "-?:,[]\x7b\x7d#&*!|>'\"%@\x60".toList

/-- Reads the token at the cursor, which stands neither at a blank nor at the end. -/
def token? (s : Scanner) : Option Scanner :=
  let c := s.cursor
  match c.rest with
  | [] => none
  | x :: rest =>
    let blank := rest.head?.any Yaml.isBlank
    let gap := atGap rest
    if c.column = 0 && x = '%' then s.directiveToken?
    else if c.atDocumentMark then
      s.documentMark? (if x = '-' then .documentStart else .documentEnd)
    else if x = '[' then s.flowStart? .flowSequenceStart
    else if x = '\x7b' then s.flowStart? .flowMappingStart
    else if x = ']' then s.flowEnd? .flowSequenceEnd
    else if x = '\x7d' then s.flowEnd? .flowMappingEnd
    else if x = ',' then s.flowEntry?
    else if x = '-' && gap then s.blockEntry?
    else if x = '?' && (s.inFlow || gap) then s.key?
    else if x = ':' && (s.inFlow || gap) then s.value?
    else if x = '*' then s.named? .alias
    else if x = '&' then s.named? .anchor
    else if x = '!' then s.tagToken?
    else if x = '|' && !s.inFlow then s.blockScalar? true
    else if x = '>' && !s.inFlow then s.blockScalar? false
    else if x = '\'' then s.quotedScalar? true
    else if x = '"' then s.quotedScalar? false
    else if !(Yaml.isBlank x || indicators.contains x) || (x = '-' && !blank)
        || (!s.inFlow && (x = '?' || x = ':')) then s.plainScalar?
    else none

/-- Reads all tokens. Every token but the closing of blocks takes up text. -/
def run : Nat → Scanner → Option Scanner
  | 0, _ => none
  | fuel + 1, s => do
    let s ← (toNextToken (s.cursor.rest.length + 1) s).dropStaleKeys?
    let s := s.unrollTo s.cursor.column
    if s.cursor.atEnd then (s.unrollTo (-1)).dropKey?
    else
      let s ← s.token?
      run fuel s

end Scanner

/-- The tokens of a text. -/
def tokens? (text : String) : Option (List Token) := do
  let cs := text.toList
  if cs.all isAllowed then
    let cs := uniformBreaks false cs
    let s ← Scanner.run (cs.length + 1) { cursor := { rest := cs } }
    return s.tokens.reverse
  else none

end TypedApi.Yaml
