import TypedApi.Json.Reader
import TypedApi.TypeScript.Literal
import TypedApi.TypeScript.Name

/-! Reading type expressions.

A type expression is an alternative of conjunctions of operands: `[]` binds tighter than `&`, and
that tighter than `|`. `read?` reads a text in one pass. The characters are cut into tokens
(`Scan`), and each token moves a state that holds what has been read in every bracket that is open
(`State`). There is no way back and no choice, so a text is read in one way only. -/
namespace TypedApi.TypeScript

/-! ### What is read -/

/-- What stands before the type of a member. -/
structure Head where
  name : String
  optional : Bool := false
  readOnly : Bool := false
deriving DecidableEq, Repr

/-- What operators stand between. A phrase is a list of alternatives, each a list of operands. -/
inductive Operand where
  | keyword (word : String)
  | name (path : String)
  /-- A string or a number. -/
  | literal (value : Json)
  | array (item : Operand)
  | tuple (elements : List (List (List Operand))) (rest : Option (List (List Operand)))
  | object (members : List (Head × List (List Operand))) (further : Option (List (List Operand)))
  | applied (name : String) (args : List (List (List Operand)))
  | group (inner : List (List Operand))

abbrev Phrase := List (List Operand)

/-! ### Tokens -/

inductive Token where
  | word (text : String)
  | literal (value : Json)
  /-- The three dots before the rest of a tuple. -/
  | dots
  | mark (c : Char)

def marks : List Char :=
  ['(', ')', '[', ']', '\x7b', '\x7d', '<', '>', '|', '&', ',', ';', ':', '?']

/-- A string or a number, and nothing behind it. A number is the nearest one to its digits. -/
def literal? (cs : List Char) : Option Json :=
  match Json.readScalar Json.Numeral.nearest? cs with
  | (.str s, some []) => some (.str s)
  | (.num n, some []) => some (.num n)
  | _ => none

/-- The token that is being cut, with its characters so far. -/
inductive Scan where
  | idle
  | word (cs : List Char)
  | number (cs : List Char)
  | text (cs : List Char) (escaped : Bool)
  | dots (count : Nat)

/-- What goes on in a number or a word. -/
def isInside (c : Char) : Bool := isIdentifierPart c || c == '.' || c == '+' || c == '-'

namespace Scan

/-- The token that ends here. -/
def ended? : Scan → Option (List Token)
  | .idle => some []
  | .word cs => some [.word (String.ofList cs)]
  | .number cs => (literal? cs).map fun v => [.literal v]
  | .text _ _ => none
  | .dots _ => none

/-- A character behind a token. -/
def open? (c : Char) : Option (List Token × Scan) :=
  if c = ' ' then some ([], .idle)
  else if marks.contains c then some ([.mark c], .idle)
  else if c = '"' then some ([], .text [c] false)
  else if c = '.' then some ([], .dots 1)
  else if Json.isNumeral c || c == '-' then some ([], .number [c])
  else if isIdentifierStart c then some ([], .word [c])
  else none

/-- One more character: the tokens that it ends, and the one that goes on. -/
def next? (scan : Scan) (c : Char) : Option (List Token × Scan) :=
  match scan with
  | .text cs true => some ([], .text (cs ++ [c]) false)
  | .text cs false =>
    if c = '\\' then some ([], .text (cs ++ [c]) true)
    else if c = '"' then (literal? (cs ++ [c])).map fun v => ([.literal v], .idle)
    else some ([], .text (cs ++ [c]) false)
  | .dots n =>
    if c = '.' then if n = 2 then some ([.dots], .idle) else some ([], .dots (n + 1)) else none
  | .word cs =>
    if isInside c then some ([], .word (cs ++ [c])) else passed? scan c
  | .number cs =>
    if isInside c then some ([], .number (cs ++ [c])) else passed? scan c
  | .idle => passed? scan c
where
  passed? (scan : Scan) (c : Char) : Option (List Token × Scan) := do
    let ended ← scan.ended?
    let (tokens, after) ← open? c
    return (ended ++ tokens, after)

end Scan

/-! ### Words -/

/-- The words that are types. -/
def keywordTypes : List String :=
  ["string", "number", "boolean", "null", "unknown", "never", "true", "false", "any", "bigint",
    "object", "symbol", "this", "undefined", "void"]

/-- The words that are no names of types. Of the reserved words, `async` is one only in front of a
function. -/
def takenWords : List String :=
  keywordTypes ++ reservedWords.erase "async" ++ ["infer", "keyof", "readonly", "unique"]

/-- What may be the name of a type. -/
def isTypeName (w : String) : Bool := isIdentifier w.toList && !takenWords.contains w

/-- Identifiers with dots between them. -/
def isPathFrom (start : Bool) : List Char → Bool
  | [] => !start
  | c :: cs =>
    if start then isIdentifierStart c && isPathFrom false cs
    else if c = '.' then isPathFrom true cs
    else isIdentifierPart c && isPathFrom false cs

/-- A name, or a name in what is named. -/
def isPath (cs : List Char) : Bool :=
  isPathFrom true cs && !takenWords.contains (String.ofList (cs.takeWhile (· != '.')))

def operandOf? (w : String) : Option Operand :=
  if keywordTypes.contains w then some (.keyword w)
  else if isPath w.toList then some (.name w)
  else none

/-! ### States -/

/-- The alternatives that are complete, and the operands of the one that goes on. -/
structure Level where
  alternatives : Phrase := []
  operands : List Operand := []

def Level.close (l : Level) : Phrase := l.alternatives ++ [l.operands]

def Level.add (l : Level) (o : Operand) : Level := { l with operands := l.operands ++ [o] }

/-- A bracket that is open, with what stands outside it and what is complete inside. -/
inductive Frame where
  | group (outer : Level)
  | tuple (outer : Level) (elements : List Phrase) (isRest : Bool)
  /-- The type that is being read belongs to `head`, or to further members. -/
  | object (outer : Level) (members : List (Head × Phrase)) (further : Option Phrase)
      (head : Option Head)
  | applied (outer : Level) (name : String) (args : List Phrase)

inductive Phase where
  /-- An operand has to come. -/
  | before (l : Level)
  /-- An operand has come. -/
  | behind (l : Level)
  /-- A bracket has come behind the operand. -/
  | suffix (l : Level) (o : Operand)
  /-- A member has to come. -/
  | member
  /-- A word that may be a modifier or a name. -/
  | modifier
  | named (h : Head)
  | optional (h : Head)
  /-- Inside the brackets of an index signature, by the tokens that have come. -/
  | signature (count : Nat)

structure State where
  frames : List Frame := []
  phase : Phase := .before {}

namespace State

/-- A key of a member. -/
def key? (st : State) (name : String) : Option State :=
  match st.phase with
  | .member => some { st with phase := .named { name } }
  | .modifier => some { st with phase := .named { name, readOnly := true } }
  | _ => none

def word? (st : State) (w : String) : Option State :=
  match st.phase with
  | .before l => (operandOf? w).map fun o => { st with phase := .behind (l.add o) }
  | .member =>
    if w = "readonly" then some { st with phase := .modifier }
    else if isIdentifier w.toList then st.key? w
    else none
  | .modifier => if isIdentifier w.toList then st.key? w else none
  | .signature 0 => if isIdentifier w.toList then some { st with phase := .signature 1 } else none
  | .signature 2 => if w = "string" then some { st with phase := .signature 3 } else none
  | _ => none

def literal? (st : State) (v : Json) : Option State :=
  match st.phase, v with
  | .before l, v => some { st with phase := .behind (l.add (.literal v)) }
  | _, .str s => st.key? s
  | _, _ => none

/-- The rest of a tuple is its last element. -/
def dots? (st : State) : Option State :=
  match st.frames, st.phase with
  | .tuple outer elements false :: fs, .before ⟨[], []⟩ =>
    some ⟨.tuple outer elements true :: fs, .before {}⟩
  | _, _ => none

def alternative? (st : State) : Option State :=
  match st.phase with
  | .behind l => some { st with phase := .before { alternatives := l.close } }
  | _ => none

def conjunct? (st : State) : Option State :=
  match st.phase with
  | .behind l => some { st with phase := .before l }
  | _ => none

def openRound? (st : State) : Option State :=
  match st.phase with
  | .before l => some ⟨.group l :: st.frames, .before {}⟩
  | _ => none

def closeRound? (st : State) : Option State :=
  match st.frames, st.phase with
  | .group outer :: fs, .behind l => some ⟨fs, .behind (outer.add (.group l.close))⟩
  | _, _ => none

/-- A square bracket opens a tuple or an index signature, or an array type ends with it. -/
def openSquare? (st : State) : Option State :=
  match st.phase with
  | .before l => some ⟨.tuple l [] false :: st.frames, .before {}⟩
  | .behind l =>
    l.operands.getLast?.map fun o =>
      { st with phase := .suffix { l with operands := l.operands.dropLast } o }
  | .member => some { st with phase := .signature 0 }
  | _ => none

def closeSquare? (st : State) : Option State :=
  match st.phase with
  | .suffix l o => some { st with phase := .behind (l.add (.array o)) }
  | .before ⟨[], []⟩ =>
    match st.frames with
    | .tuple outer [] false :: fs => some ⟨fs, .behind (outer.add (.tuple [] none))⟩
    | _ => none
  | .behind l =>
    match st.frames with
    | .tuple outer elements false :: fs =>
      some ⟨fs, .behind (outer.add (.tuple (elements ++ [l.close]) none))⟩
    | .tuple outer elements true :: fs =>
      some ⟨fs, .behind (outer.add (.tuple elements (some l.close)))⟩
    | _ => none
  | .signature 3 => some { st with phase := .signature 4 }
  | _ => none

def openAngle? (st : State) : Option State :=
  match st.phase with
  | .behind l =>
    match l.operands.getLast? with
    | some (.name n) =>
      some ⟨.applied { l with operands := l.operands.dropLast } n [] :: st.frames, .before {}⟩
    | _ => none
  | _ => none

def closeAngle? (st : State) : Option State :=
  match st.frames, st.phase with
  | .applied outer n args :: fs, .behind l =>
    some ⟨fs, .behind (outer.add (.applied n (args ++ [l.close])))⟩
  | _, _ => none

def comma? (st : State) : Option State :=
  match st.frames, st.phase with
  | .tuple outer elements false :: fs, .behind l =>
    some ⟨.tuple outer (elements ++ [l.close]) false :: fs, .before {}⟩
  | .applied outer n args :: fs, .behind l =>
    some ⟨.applied outer n (args ++ [l.close]) :: fs, .before {}⟩
  | _, _ => none

def openCurly? (st : State) : Option State :=
  match st.phase with
  | .before l => some ⟨.object l [] none none :: st.frames, .member⟩
  | _ => none

def semicolon? (st : State) : Option State :=
  match st.frames, st.phase with
  | .object outer members further (some h) :: fs, .behind l =>
    some ⟨.object outer (members ++ [(h, l.close)]) further none :: fs, .member⟩
  | .object outer members none none :: fs, .behind l =>
    some ⟨.object outer members (some l.close) none :: fs, .member⟩
  | _, _ => none

/-- A brace ends the last member as a semicolon does. -/
def closeCurly? (st : State) : Option State :=
  match st.semicolon? with
  | some ⟨.object outer members further _ :: fs, _⟩ =>
    some ⟨fs, .behind (outer.add (.object members further))⟩
  | _ => none

def question? (st : State) : Option State :=
  match st.phase with
  | .modifier => some { st with phase := .optional { name := "readonly", optional := true } }
  | .named h => some { st with phase := .optional { h with optional := true } }
  | _ => none

/-- The type of a member comes next. -/
def colon? (st : State) : Option State :=
  match st.frames, st.phase with
  | .object outer members further _ :: fs, .modifier =>
    some ⟨.object outer members further (some { name := "readonly" }) :: fs, .before {}⟩
  | .object outer members further _ :: fs, .named h =>
    some ⟨.object outer members further (some h) :: fs, .before {}⟩
  | .object outer members further _ :: fs, .optional h =>
    some ⟨.object outer members further (some h) :: fs, .before {}⟩
  | .object outer members further _ :: fs, .signature 4 =>
    some ⟨.object outer members further none :: fs, .before {}⟩
  | fs, .signature 1 => some ⟨fs, .signature 2⟩
  | _, _ => none

def mark? (st : State) (c : Char) : Option State :=
  match c with
  | '|' => st.alternative?
  | '&' => st.conjunct?
  | '(' => st.openRound?
  | ')' => st.closeRound?
  | '[' => st.openSquare?
  | ']' => st.closeSquare?
  | '<' => st.openAngle?
  | '>' => st.closeAngle?
  | ',' => st.comma?
  | '\x7b' => st.openCurly?
  | ';' => st.semicolon?
  | '\x7d' => st.closeCurly?
  | '?' => st.question?
  | ':' => st.colon?
  | _ => none

def take? (st : State) : Token → Option State
  | .word w => st.word? w
  | .literal v => st.literal? v
  | .dots => st.dots?
  | .mark c => st.mark? c

end State

/-- Reads on from a state and a token that is being cut. -/
def readFrom (scan : Scan) (st : State) : List Char → Option State
  | [] => scan.ended?.bind fun tokens => tokens.foldlM State.take? st
  | c :: cs => do
    let (tokens, after) ← scan.next? c
    let st ← tokens.foldlM State.take? st
    readFrom after st cs

/-- The phrase that a whole text is read as. -/
def read? (text : String) : Option Phrase :=
  match readFrom .idle {} text.toList with
  | some ⟨[], .behind l⟩ => some l.close
  | _ => none

end TypedApi.TypeScript
