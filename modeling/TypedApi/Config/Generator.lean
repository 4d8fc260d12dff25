import TypedApi.Config.Basic
import TypedApi.TypeScript.Package

/-! The generators of clients and the formats of documents, by name. -/
namespace TypedApi

inductive Generator where
  | typeScript
deriving DecidableEq, Repr

/-- An option that a generator cannot use. -/
inductive OptionFault where
  | notAText (generator : Generator) (key : String)
deriving DecidableEq, Repr

namespace Generator

def name : Generator → String
  | .typeScript => "typescript"

def all : List Generator := [.typeScript]

def named? (s : String) : Option Generator := all.find? (·.name == s)

end Generator

def OptionFault.message : OptionFault → String
  | .notAText generator key =>
    "invalid option for generator '" ++ generator.name ++ "': " ++ key ++ " must be a string"

namespace Generator

/-- The option that names the address of the server. -/
def baseUrlKey : String := "baseUrl"

/-- The address has to be a text if it is given. -/
def check (g : Generator) (settings : Config.Generation) : Except OptionFault Unit :=
  match settings.options.lookup baseUrlKey with
  | none => .ok ()
  | some v => if v.text?.isSome then .ok () else .error (.notAText g baseUrlKey)

/-- The files of the client of an API. -/
def files (g : Generator) (settings : Config.Generation) (api : Api) : List TypeScript.File :=
  match g with
  | .typeScript => (TypeScript.Client.ofApi api).files (settings.textOption? baseUrlKey)

end Generator

/-- A format of documents. -/
inductive Format where
  | openApi
deriving DecidableEq, Repr

namespace Format

def name : Format → String
  | .openApi => "openapi"

def all : List Format := [.openApi]

def named? (s : String) : Option Format := all.find? (·.name == s)

/-- The extensions of files in a format. -/
def extensions : Format → List String
  | .openApi => ["yaml", "yml", "json"]

/-- The last segment of a path. Empty segments and single dots do not count, and two
dots name no file. -/
def fileName? (path : String) : Option (List Char) :=
  match ((path.toList.splitOn '/').filter fun s => !s.isEmpty && s != ['.']).getLast? with
  | some ['.', '.'] => none
  | name => name

/-- What follows the last dot of a file name, unless the name begins with that dot. -/
def extension? (path : String) : Option String :=
  match fileName? path with
  | none => none
  | some name =>
    match (name.splitOn '.').reverse with
    | [] => none
    | [_] => none
    | [_, []] => none
    | last :: _ => some (String.ofList last)

/-- The format that the name of a file suggests. -/
def ofPath? (path : String) : Option Format :=
  (extension? path).bind fun e => all.find? (·.extensions.contains e)

end Format
end TypedApi
