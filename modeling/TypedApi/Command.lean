import TypedApi.Text.Search

/-! The command line.

There are three commands: `openapi` makes a document of a manifest, `client` makes a
client of a document, and `validate` lists what is wrong with a document. An option
may stand anywhere, as `--output file`, `--output=file` or `-o file`. -/
namespace TypedApi

inductive Command where
  | openapi (manifest output : String)
  | client (spec output : Option String)
  | validate (document : String)
deriving DecidableEq, Repr

structure CommandLine where
  /-- A file with settings, in place of the usual one. -/
  config : Option String := none
  command : Command
deriving DecidableEq, Repr

namespace CommandLine

/-- The options, each with its short name. -/
def optionNames : List (String × String) :=
  [("--config", "-c"), ("--output", "-o"), ("--spec", "-s")]

/-- The option that an argument gives, and its value if that is part of the argument. -/
def option? (argument : String) : Option (String × Option String) :=
  match optionNames.find? fun (long, short) => argument = long || argument = short with
  | some (long, _) => some (long, none)
  | none =>
    match Text.cut? '=' argument.toList with
    | none => none
    | some (name, value) =>
      let long := String.ofList name
      if (optionNames.lookup long).isSome then some (long, some (String.ofList value)) else none

/-- The options with their values, and the other arguments. -/
structure Parts where
  options : List (String × String) := []
  operands : List String := []

/-- Sorts the arguments. `waiting` is an option whose value comes next. -/
def sort (parts : Parts) (waiting : Option String) : List String → Option Parts
  | [] => if waiting.isSome then none else some parts
  | argument :: rest =>
    match waiting with
    | some name => sort { parts with options := parts.options ++ [(name, argument)] } none rest
    | none =>
      match option? argument with
      | some (name, some value) =>
        sort { parts with options := parts.options ++ [(name, value)] } none rest
      | some (name, none) => sort parts (some name) rest
      | none =>
        if argument.toList.head? = some '-' then none
        else sort { parts with operands := parts.operands ++ [argument] } none rest

def ofParts? (parts : Parts) : Option CommandLine :=
  let config := parts.options.lookup "--config"
  let output := parts.options.lookup "--output"
  let spec := parts.options.lookup "--spec"
  match parts.operands with
  | ["openapi", manifest] =>
    if spec.isSome then none
    else some { config, command := .openapi manifest (output.getD "openapi.json") }
  | ["client"] => some { config, command := .client spec output }
  | ["validate", document] =>
    if spec.isSome || output.isSome then none else some { config, command := .validate document }
  | _ => none

def ofArguments? (arguments : List String) : Option CommandLine :=
  (sort {} none arguments).bind ofParts?

def usage : String :=
  "usage: openapi MANIFEST [--output FILE] [--config FILE]\n" ++
  "       client [--spec FILE] [--output DIRECTORY] [--config FILE]\n" ++
  "       validate DOCUMENT [--config FILE]"

end CommandLine
end TypedApi
