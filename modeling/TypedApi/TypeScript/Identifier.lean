import TypedApi.TypeScript.Literal

/-! Identifiers in type expressions.

A type expression is cut into words, which are the identifiers in it, and marks, which
are all other characters. A word refers to a type unless it stands inside quotes,
behind a dot, or in front of the colon of a member. -/
namespace TypedApi.TypeScript

inductive Piece where
  | word (chars : List Char)
  | mark (char : Char)
deriving DecidableEq, Repr

namespace Piece

def chars : Piece → List Char
  | .word cs => cs
  | .mark c => [c]

def isBlank : Piece → Bool
  | .mark c => Text.isBlank c
  | _ => false

end Piece

/-- A word that is complete, before other pieces. -/
def closePiece (word : List Char) (rest : List Piece) : List Piece :=
  if word.isEmpty then rest else .word word :: rest

/-- The pieces of a text. `word` is the word so far. -/
def piecesFrom (word : List Char) : List Char → List Piece
  | [] => closePiece word []
  | c :: cs =>
    if !word.isEmpty && isIdentifierPart c then piecesFrom (word ++ [c]) cs
    else if isIdentifierStart c then closePiece word (piecesFrom [c] cs)
    else closePiece word (.mark c :: piecesFrom [] cs)

def pieces (cs : List Char) : List Piece := piecesFrom [] cs

/-! ### Where a word stands -/

/-- Inside which quotes a place is, and whether a backslash stands before it. -/
structure Quoting where
  opening : Option Char := none
  escaped : Bool := false
deriving DecidableEq, Repr

namespace Quoting

def next (q : Quoting) (c : Char) : Quoting :=
  if q.escaped then { q with escaped := false }
  else
    match q.opening with
    | some opening =>
      if c = '\\' then { q with escaped := true }
      else if c = opening then {}
      else q
    | none => if c = '"' || c = '\'' then { opening := some c } else q

def after (q : Quoting) (cs : List Char) : Quoting := cs.foldl next q

def isInside (q : Quoting) : Bool := q.opening.isSome

end Quoting

/-- What stands before a place. -/
structure Before where
  quoting : Quoting := {}
  last : Option Char := none

def Before.next (b : Before) (p : Piece) : Before :=
  { quoting := b.quoting.after p.chars
    last := p.chars.getLast? <|> b.last }

/-- The pieces that follow make what stands before them the key of a member. -/
def isColon : List Piece → Bool
  | .mark ':' :: _ => true
  | .mark '?' :: .mark ':' :: _ => true
  | _ => false

/-- The pieces that follow apply a type to others. -/
def isApplied (rest : List Piece) : Bool :=
  (rest.dropWhile Piece.isBlank).head? = some (.mark '<')

def isReference (b : Before) (rest : List Piece) : Bool :=
  b.last != some '.' && !b.quoting.isInside && !isColon (rest.dropWhile Piece.isBlank)

/-! ### References -/

/-- The words that refer to types, in order. -/
def referencesFrom (b : Before) : List Piece → List String
  | [] => []
  | .word w :: rest =>
    let later := referencesFrom (b.next (.word w)) rest
    if isReference b rest then String.ofList w :: later else later
  | p :: rest => referencesFrom (b.next p) rest

def references (text : String) : List String := referencesFrom {} (pieces text.toList)

/-- Renames the words that refer to types. A word that is applied to others is a
global type and keeps its name. -/
def renamedFrom (names : List (String × String)) (b : Before) : List Piece → List Piece
  | [] => []
  | .word w :: rest =>
    let later := renamedFrom names (b.next (.word w)) rest
    match names.lookup (String.ofList w) with
    | some new =>
      if isReference b rest && !isApplied rest then .word new.toList :: later
      else .word w :: later
    | none => .word w :: later
  | p :: rest => p :: renamedFrom names (b.next p) rest

def renamed (names : List (String × String)) (text : String) : String :=
  String.ofList ((renamedFrom names {} (pieces text.toList)).flatMap Piece.chars)

end TypedApi.TypeScript
