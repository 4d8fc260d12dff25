import TypedApi.Yaml.Token

/-! The nodes of a YAML document.

An anchor is numbered by how many names there were before it. A name that comes
again takes a new number, which the next new name then shares; of the nodes with
one number the last to begin is the one that aliases stand for. So an alias may
stand for a later node, or for one that it is part of: such a document has no end. -/
namespace TypedApi.Yaml

inductive Node where
  | scalar (text : String) (style : Style) (tag : Option Tag)
  | sequence (items : List Node) (tag : Option Tag)
  | mapping (entries : List (Node × Node)) (tag : Option Tag)
  | alias (anchor : Nat)
deriving Inhabited

namespace Node

/-- The value of a place where nothing is written. -/
def blank : Node := .scalar "" .plain none

mutual
/-- The number of events that a document consists of: one for a scalar or an alias,
two for the ends of a collection. -/
def events : Node → Nat
  | .scalar .. => 1
  | .alias _ => 1
  | .sequence items _ => 2 + eventsOfItems items
  | .mapping entries _ => 2 + eventsOfEntries entries
def eventsOfItems : List Node → Nat
  | [] => 0
  | n :: ns => events n + eventsOfItems ns
def eventsOfEntries : List (Node × Node) → Nat
  | [] => 0
  | (k, v) :: es => events k + events v + eventsOfEntries es
end

end Node

/-- The tokens left, the anchors met and the handles of tags. -/
structure Composer where
  tokens : List Token
  /-- The number of each name that was given to an anchor. -/
  numbers : List (String × Nat) := []
  /-- The nodes by number, last one first. None is there while its node is read. -/
  anchors : List (Nat × Option Node) := []
  handles : List (String × List UInt8) := []

abbrev Compose := StateT Composer Option

namespace Composer

def peek : Compose (Option Token) := do return (← get).tokens.head?

def advance : Compose Unit := modify fun s => { s with tokens := s.tokens.drop 1 }

/-- Passes a token of a kind, if it is next. -/
def accept (p : Token → Bool) : Compose Bool := do
  if (← peek).any p then
    advance
    return true
  else return false

def isBlockEntry : Token → Bool | .blockEntry => true | _ => false
def isBlockEnd : Token → Bool | .blockEnd => true | _ => false
def isKey : Token → Bool | .key => true | _ => false
def isValue : Token → Bool | .value => true | _ => false
def isFlowEntry : Token → Bool | .flowEntry => true | _ => false
def isSequenceEnd : Token → Bool | .flowSequenceEnd => true | _ => false
def isMappingEnd : Token → Bool | .flowMappingEnd => true | _ => false
def isDocumentStart : Token → Bool | .documentStart => true | _ => false
def isDocumentEnd : Token → Bool | .documentEnd => true | _ => false
def isDirective : Token → Bool | .directive _ => true | _ => false

def isAnyOf (ps : List (Token → Bool)) (t : Token) : Bool := ps.any fun p => p t

/-! ### Anchors and tags -/

def openAnchor (name : String) : Compose Unit :=
  modify fun s =>
    let number := s.numbers.length
    { s with
      numbers := (name, number) :: s.numbers.filter (·.1 ≠ name)
      anchors := (number, none) :: s.anchors }

/-- Gives the innermost open anchor its node. -/
def closeFirst (node : Node) : List (Nat × Option Node) → List (Nat × Option Node)
  | [] => []
  | (number, none) :: rest => (number, some node) :: rest
  | entry :: rest => entry :: closeFirst node rest

def closeAnchor (node : Node) : Compose Unit :=
  modify fun s => { s with anchors := closeFirst node s.anchors }

def defaultHandles : List (String × List UInt8) :=
  [("!", asciiBytes "!"), ("!!", asciiBytes Tag.core)]

def resolveTag (t : TagText) : Compose Tag := do
  if t.handle.isEmpty then return .join [] t.suffix
  else
    match (← get).handles.lookup t.handle with
    | some start => return .join start t.suffix
    | none => failure

/-- The anchor and the tag in front of a node, in either order. -/
def properties : Compose (Option String × Option Tag) := do
  match ← peek with
  | some (.anchor name) =>
    advance
    match ← peek with
    | some (.tag t) =>
      advance
      return (some name, some (← resolveTag t))
    | _ => return (some name, none)
  | some (.tag t) =>
    advance
    match ← peek with
    | some (.anchor name) =>
      advance
      return (some name, some (← resolveTag t))
    | _ => return (none, some (← resolveTag t))
  | _ => return (none, none)

/-! ### Nodes -/

/-- The comma before an item that is not the first. -/
def separator (first : Bool) : Compose Unit := do
  if first then return ()
  else if ← accept isFlowEntry then return ()
  else failure

mutual
/-- Reads a node. Blocks may begin where `block` is set, and entries of a sequence
without indentation where `indentless` is. -/
def node : Nat → Bool → Bool → Compose Node
  | 0, _, _ => failure
  | fuel + 1, block, indentless => do
    match ← peek with
    | some (.alias name) =>
      advance
      match (← get).numbers.lookup name with
      | some number => return .alias number
      | none => failure
    | _ =>
      let (anchor, tag) ← properties
      if let some name := anchor then openAnchor name
      let n ← content fuel block indentless (anchor.isSome || tag.isSome) tag
      if anchor.isSome then closeAnchor n
      return n
def content : Nat → Bool → Bool → Bool → Option Tag → Compose Node
  | 0, _, _, _, _ => failure
  | fuel + 1, block, indentless, marked, tag => do
    match ← peek with
    | some (.scalar text style) =>
      advance
      return .scalar text style tag
    | some .flowSequenceStart =>
      advance
      return .sequence (← flowItems fuel true) tag
    | some .flowMappingStart =>
      advance
      return .mapping (← flowEntries fuel true) tag
    | some .blockEntry =>
      if indentless then return .sequence (← indentlessItems fuel) tag
      else if marked then return .scalar "" .plain tag
      else failure
    | some .blockSequenceStart =>
      if block then
        advance
        return .sequence (← blockItems fuel) tag
      else if marked then return .scalar "" .plain tag
      else failure
    | some .blockMappingStart =>
      if block then
        advance
        return .mapping (← blockEntries fuel) tag
      else if marked then return .scalar "" .plain tag
      else failure
    | _ => if marked then return .scalar "" .plain tag else failure
/-- A node, or nothing before one of the tokens that end its place. -/
def nodeUnless : Nat → List (Token → Bool) → Bool → Bool → Compose Node
  | 0, _, _, _ => failure
  | fuel + 1, ends, block, indentless => do
    if (← peek).any (isAnyOf ends) then return .blank else node fuel block indentless
def blockItems : Nat → Compose (List Node)
  | 0 => failure
  | fuel + 1 => do
    if ← accept isBlockEntry then
      let n ← nodeUnless fuel [isBlockEntry, isBlockEnd] true false
      return n :: (← blockItems fuel)
    else if ← accept isBlockEnd then return []
    else failure
def indentlessItems : Nat → Compose (List Node)
  | 0 => failure
  | fuel + 1 => do
    if ← accept isBlockEntry then
      let n ← nodeUnless fuel [isBlockEntry, isKey, isValue, isBlockEnd] true false
      return n :: (← indentlessItems fuel)
    else return []
def blockEntries : Nat → Compose (List (Node × Node))
  | 0 => failure
  | fuel + 1 => do
    if ← accept isKey then
      let k ← nodeUnless fuel [isKey, isValue, isBlockEnd] true true
      let v ← if ← accept isValue then nodeUnless fuel [isKey, isValue, isBlockEnd] true true
        else pure .blank
      return (k, v) :: (← blockEntries fuel)
    else if ← accept isBlockEnd then return []
    else failure
def flowItems : Nat → Bool → Compose (List Node)
  | 0, _ => failure
  | fuel + 1, first => do
    if ← accept isSequenceEnd then return []
    else
      separator first
      if ← accept isKey then
        let ends := [isValue, isFlowEntry, isSequenceEnd]
        let k ← if (← peek).any (isAnyOf ends) then do
            advance
            pure Node.blank
          else node fuel false false
        let v ← if ← accept isValue then nodeUnless fuel [isFlowEntry, isSequenceEnd] false false
          else pure .blank
        return .mapping [(k, v)] none :: (← flowItems fuel false)
      else if ← accept isSequenceEnd then return []
      else
        let n ← node fuel false false
        return n :: (← flowItems fuel false)
def flowEntries : Nat → Bool → Compose (List (Node × Node))
  | 0, _ => failure
  | fuel + 1, first => do
    if ← accept isMappingEnd then return []
    else
      separator first
      if ← accept isKey then
        let k ← nodeUnless fuel [isValue, isFlowEntry, isMappingEnd] false false
        let v ← if ← accept isValue then nodeUnless fuel [isFlowEntry, isMappingEnd] false false
          else pure .blank
        return (k, v) :: (← flowEntries fuel false)
      else if ← accept isMappingEnd then return []
      else
        let k ← node fuel false false
        return (k, .blank) :: (← flowEntries fuel false)
end

/-! ### Documents -/

/-- The handles that directives declare. A directive may not be repeated, and the
version has to be 1.1 or 1.2. -/
def addDirectives (version : Bool) (declared : List (String × List UInt8)) :
    List Directive → Option (List (String × List UInt8))
  | [] => some declared
  | .version major minor :: rest =>
    if version || major ≠ 1 || !(minor = 1 || minor = 2) then none
    else addDirectives true declared rest
  | .tag handle start :: rest =>
    if (declared.lookup handle).isSome then none
    else addDirectives version (declared ++ [(handle, start)]) rest

def directives : Compose (List Directive) := do
  let ds := (← get).tokens.takeWhile isDirective
  modify fun s => { s with tokens := s.tokens.drop ds.length }
  return ds.filterMap fun t => match t with | .directive d => some d | _ => none

/-- The node of the one document of a text, or nothing when the text is empty. -/
def root (fuel : Nat) : Compose (Option Node) := do
  match ← peek with
  | none => return none
  | some t =>
    if isDocumentStart t || isDirective t then
      let declared ← (addDirectives false [] (← directives) : Option _)
      modify fun s => { s with handles := declared ++ defaultHandles }
      if ← accept isDocumentStart then
        let ends := [isDirective, isDocumentStart, isDocumentEnd]
        match ← peek with
        | none => return some .blank
        | some t =>
          if isAnyOf ends t then return some .blank else return some (← node fuel true false)
      else failure
    else
      modify fun s => { s with handles := defaultHandles }
      return some (← node fuel true false)

end Composer

/-- The node of a document, and the nodes that its aliases stand for, the first one
of a number. -/
structure Document where
  root : Node
  anchors : List (Nat × Option Node) := []

/-- The document of a text that holds at most one. An empty text holds none. -/
def document? (text : String) : Option (Option Document) := do
  let ts ← tokens? text
  let (n, s) ← (Composer.root (4 * ts.length + 4)).run { tokens := ts }
  if s.tokens.all Composer.isDocumentEnd then
    return n.map fun root => { root, anchors := s.anchors }
  else none

end TypedApi.Yaml
