import TypedApi.Command
import TypedApi.Api.OfText
import TypedApi.Config.Decoding
import TypedApi.Config.Generator
import TypedApi.OpenApi.Document.Encoding
import TypedApi.OpenApi.Violation
import TypedApi.Route.Assembly
import TypedApi.Route.Decoding

/-! The program: reads files, calls the library and writes files. It runs no other
program; the commands of the settings are listed for the user. -/
namespace TypedApi.Main

open OpenApi (Violation)

def fail {α : Type} (message : String) : IO α := throw (IO.userError message)

def usualConfig : String := "./.config/typebridge.yaml"

/-- The settings of a file. Without one, the usual file is read if it is there. -/
def settings (path : Option String) : IO Config := do
  let file := path.getD usualConfig
  let text? ← try some <$> IO.FS.readFile file catch _ => pure none
  match text?, path with
  | some text, _ =>
    match Config.ofText? text with
    | some c => return c
    | none => fail ("failed to parse config file " ++ file)
  | none, some _ => fail ("config file not found: " ++ file)
  | none, none => return Config.standard

/-- The directory that a file is in. -/
def directory (file : String) : Option String :=
  match (file.toList.reverse.dropWhile (· != '/')).drop 1 with
  | [] => none
  | cs => some (String.ofList cs.reverse)

/-- Writes a file unless it holds the text already. -/
def write (file content : String) : IO Unit := do
  let same ← try (· == content) <$> IO.FS.readFile file catch _ => pure false
  if !same then
    match directory file with
    | some d => IO.FS.createDirAll d
    | none => pure ()
    IO.FS.writeFile file content

/-- A line about one violation. -/
def report (v : Violation) : String := v.place ++ ": " ++ v.message

def openapi (config : Option String) (manifest output : String) : IO Unit := do
  let c ← settings config
  match Manifest.ofText (← IO.FS.readFile manifest) with
  | .error _ => fail "malformed route manifest"
  | .ok m =>
    let d := m.document c.document
    for v in Violation.ofDocument d.encode do IO.eprintln (report v)
    write output d.toText

def client (config spec output : Option String) : IO Unit := do
  let c := (← settings config).override spec output
  let some input := c.input
    | fail "No input source specified. Use --spec or configure input in config file"
  let format := input.format.getD (((Format.ofPath? input.source).map Format.name).getD "openapi")
  if (Format.named? format).isNone then fail ("Unknown input format: " ++ format)
  match Api.ofText (← IO.FS.readFile input.source) with
  | .error f => fail f.message
  | .ok api =>
    let target := c.output.getD "generated"
    for hook in c.hooks.beforeGenerate do IO.eprintln ("to be run before: " ++ hook)
    for g in c.generations.filter (·.enabled) do
      match Generator.named? g.generator with
      | none => fail ("unknown generator: " ++ g.generator)
      | some generator =>
        match generator.check g with
        | .error f => fail f.message
        | .ok () =>
          let place := match g.outputDir with
            | none => target
            | some d => target ++ "/" ++ d
          for f in generator.files g api do write (place ++ "/" ++ f.name) f.content
    match c.formatter with
    | some f => IO.eprintln ("to be run on the files: " ++ " ".intercalate (f.command :: f.args))
    | none => pure ()
    for hook in c.hooks.afterGenerate do IO.eprintln ("to be run after: " ++ hook)

def validate (document : String) : IO Unit := do
  match Api.documentOfText (← IO.FS.readFile document) with
  | .error f => fail f.message
  | .ok v =>
    let vs := Violation.ofDocument v
    for v in vs do IO.println (report v)
    if !vs.isEmpty then fail (toString vs.length ++ " violation(s) in " ++ document)

def run (line : CommandLine) : IO Unit :=
  match line.command with
  | .openapi manifest output => openapi line.config manifest output
  | .client spec output => client line.config spec output
  | .validate document => validate document

end TypedApi.Main

def main (arguments : List String) : IO UInt32 := do
  match TypedApi.CommandLine.ofArguments? arguments with
  | none =>
    IO.eprintln TypedApi.CommandLine.usage
    return 2
  | some line =>
    try
      TypedApi.Main.run line
      return 0
    catch e =>
      IO.eprintln (toString e)
      return 1
