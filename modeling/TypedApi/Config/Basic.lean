import TypedApi.Route.Basic

/-! The settings of a run: what is read, what is made of it and where it goes. -/
namespace TypedApi

namespace Config

structure Input where
  format : Option String := none
  source : String
deriving DecidableEq, Repr

/-- A free value, and the label that its tag puts on it. A key of an object in it may
come more than once. -/
structure Setting where
  value : Json
  label : Option String := none
deriving Inhabited

namespace Setting

/-- The value as JSON. One with a label becomes an object whose one key is the label. -/
def toJson (s : Setting) : Json :=
  match s.label with
  | some label => .obj [(label, s.value)]
  | none => s.value

/-- The text that a setting is, with or without a label. -/
def text? (s : Setting) : Option String := s.value.asString?

end Setting

/-- One client to be made. -/
structure Generation where
  generator : String
  /-- A directory below that of the output. -/
  outputDir : Option String := none
  enabled : Bool := true
  /-- A directory with templates of the user. -/
  template : Option String := none
  options : List (String × Setting) := []
deriving Inhabited

/-- Commands that run around the generation. -/
structure Hooks where
  beforeGenerate : List String := []
  afterGenerate : List String := []
deriving DecidableEq, Repr

/-- A command that is given the files that were written. -/
structure Formatter where
  command : String
  args : List String := []
deriving DecidableEq, Repr

end Config

structure Config where
  version : String
  input : Option Config.Input := none
  output : Option String := none
  document : DocumentOptions := {}
  generations : List Config.Generation := []
  hooks : Config.Hooks := {}
  formatter : Option Config.Formatter := none
deriving Inhabited

namespace Config

/-- The settings where none are given: one client, in `generated`. -/
def standard : Config :=
  { version := "1.0"
    output := some "generated"
    generations := [{ generator := "typescript" }] }

/-- Puts the source and the output of a command line in place of those of the
settings. The format of the source stays. -/
def override (c : Config) (source output : Option String) : Config :=
  { c with
    input := match source, c.input with
      | none, input => input
      | some s, some input => some { input with source := s }
      | some s, none => some { source := s }
    output := output <|> c.output }

/-- An option that is a text. -/
def Generation.textOption? (g : Generation) (key : String) : Option String :=
  (g.options.lookup key).bind Setting.text?

end Config
end TypedApi
