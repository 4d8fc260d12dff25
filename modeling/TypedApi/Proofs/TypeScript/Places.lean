import TypedApi.Proofs.TypeScript.Package
import TypedApi.Proofs.TypeScript.StringLiteral

/-! The places of the texts that a client takes from its document.

The title and the version stand in the comment at the top of a file, the address and the paths
between two quotes. They are written as they are, while keys, literal types and the names of events
are escaped. So each keeps its place exactly if nothing in it ends a line, or has a meaning of its
own in a literal (`places_ofApi`). -/
namespace TypedApi.TypeScript

/-- No line ends in the text. -/
def OneLine (s : String) : Prop := ∀ c ∈ s.toList, c ∉ lineEnds

/-- All of the text stands for itself in a literal. -/
def Verbatim (s : String) : Prop := ∀ c ∈ s.toList, c ∉ special

instance (s : String) : Decidable (Verbatim s) := List.decidableBAll _ s.toList

/-! ### The comment at the top -/

/-- The file begins with a comment that says its title and its version, and the notice is on the
next line. -/
def Headed (content title version : String) : Prop :=
  ∃ rest, lineComment? content.toList =
    some ((" " ++ title ++ " " ++ version).toList, ("\n" ++ notice ++ "\n" ++ rest).toList)

theorem heading_eq (title version : String) :
    heading title version =
      "//" ++ (" " ++ title ++ " " ++ version) ++ ("\n" ++ notice ++ "\n") := by
  have hslashes : "// " = "//" ++ " " := by decide
  unfold heading unlines
  rw [hslashes]
  simp only [List.map_cons, List.map_nil, String.join_cons, String.join_nil, String.append_empty,
    String.append_assoc, -String.reduceAppend]

theorem headed_heading (title version body : String) :
    Headed (heading title version ++ body) title version ↔ OneLine title ∧ OneLine version := by
  let line := (" " ++ title ++ " " ++ version).toList
  have hline : (∀ c ∈ line, c ∉ lineEnds) ↔ OneLine title ∧ OneLine version := by
    have hblank : ' ' ∉ lineEnds := by decide
    simp only [line, String.toList_append, List.forall_mem_append]
    simp [OneLine, hblank]
  have htext : (heading title version ++ body).toList =
      '/' :: '/' :: (line ++ '\n' :: (notice ++ "\n" ++ body).toList) := by
    rw [heading_eq]
    simp only [line, String.toList_append, List.append_assoc]
    rfl
  rw [← hline]
  constructor
  · rintro ⟨rest, hrest⟩
    exact notMem_lineComment? hrest
  · intro h
    have hnext : ("\n" ++ notice ++ "\n" ++ body).toList = '\n' :: (notice ++ "\n" ++ body).toList := by
      simp only [String.toList_append, List.append_assoc]
      rfl
    exact ⟨body, by rw [htext, lineComment?_line h, hnext]⟩

/-! ### Literals -/

/-- A place for `s` in a text: between two quotes behind `label`. -/
structure Place (text label s : String) where
  before : String
  after : String
  text_eq : text = before ++ (label ++ ("\"" ++ (s ++ ("\"" ++ after))))

/-- The literal at the place stands for `s` and ends with it, whatever follows the text. -/
def Place.Denotes {text label s : String} (p : Place text label s) : Prop :=
  ∀ rest, stringLiteral? ("\"" ++ (s ++ ("\"" ++ (p.after ++ rest)))).toList =
    some (textUnits s.toList, (p.after ++ rest).toList)

theorem Place.denotes_iff {text label s : String} (p : Place text label s) :
    p.Denotes ↔ Verbatim s := by
  have hliteral : ∀ rest : String, ("\"" ++ (s ++ ("\"" ++ rest))).toList =
      '"' :: (s.toList ++ '"' :: rest.toList) := by
    intro rest
    simp only [String.toList_append]
    rfl
  simp only [Place.Denotes, hliteral, stringLiteral?_iff]
  exact forall_const String

namespace Client

/-! ### Files -/

/-- A file has the title and the version at its top, or it is the same for all documents. -/
theorem content_of_mem_files {c : Client} {baseUrl : Option String} {f : File}
    (h : f ∈ c.files baseUrl) :
    f.content ∈ [eventStreams, formData] ∨
      ∃ body, f.content = heading c.api.info.title c.api.info.version ++ body := by
  simp only [files, List.mem_append, List.mem_cons, List.not_mem_nil, or_false, List.mem_map] at h
  rcases h with ((rfl | rfl | rfl | rfl) | ⟨controller, -, rfl⟩) | rfl
  · refine .inr ?_
    simp only [typesFile, String.append_assoc, -String.reduceAppend]
    exact ⟨_, rfl⟩
  · refine .inr ?_
    simp only [runtime, String.append_assoc, -String.reduceAppend]
    exact ⟨_, rfl⟩
  · exact .inl List.mem_cons_self
  · exact .inl (List.mem_cons_of_mem _ List.mem_cons_self)
  · refine .inr ?_
    simp only [controllerFile, Controller.source, String.append_assoc, -String.reduceAppend]
    exact ⟨_, rfl⟩
  · refine .inr ?_
    simp only [indexFile, String.append_assoc, -String.reduceAppend]
    exact ⟨_, rfl⟩

/-- The place of the address in the file that sends the requests. -/
def addressPlace (title version address : String) :
    Place (runtime title version address) "  baseUrl: " address where
  before := heading title version ++ unlines runtimeStart
  after := ",\n" ++ unlines runtimeEnd
  text_eq := by
    have hopen : "  baseUrl: \"" = "  baseUrl: " ++ "\"" := by decide
    have hclose : "\",\n" = "\"" ++ ",\n" := by decide
    unfold runtime
    rw [hopen, hclose]
    simp only [String.append_assoc, -String.reduceAppend]

/-- The text of a function up to the path of its requests. -/
def pathLabel (s : Signature) : String :=
  Controller.sender s ++ "(config, \x7b\n    method: \"" ++ s.method.name ++ "\",\n    path: "

theorem place_function (s : Signature) :
    Nonempty (Place (Controller.function s) (pathLabel s) s.path) := by
  have hopen : "\",\n    path: \"" = "\",\n    path: " ++ "\"" := by decide
  have hclose : "\"," = "\"" ++ "," := by decide
  have hskip : ∀ {piece text : String} {tail : String → String},
      (∃ before after, text = before ++ tail after) →
        ∃ before after, piece ++ text = before ++ tail after := by
    rintro piece text tail ⟨before, after, rfl⟩
    exact ⟨piece ++ before, after, (String.append_assoc ..).symm⟩
  have htext : ∃ before after, Controller.function s =
      before ++ (pathLabel s ++ ("\"" ++ (s.path ++ ("\"" ++ after)))) := by
    unfold Controller.function pathLabel
    rw [hopen, hclose]
    simp only [String.append_assoc, -String.reduceAppend]
    -- the pieces up to the call of the sender
    iterate 9 refine hskip ?_
    exact ⟨"", _, (String.empty_append ..).symm⟩
  obtain ⟨before, after, heq⟩ := htext
  exact ⟨⟨before, after, heq⟩⟩

theorem Calls.path {api : Api} {o : Api.Operation} {s : Signature} (h : Calls api o s) :
    s.path = o.path := by
  obtain ⟨n, rfl⟩ := h
  rfl

/-- In every file that belongs to the document, the comment at the top says the title and the
version exactly if no line ends in them. The literals of the address and of the paths stand for them
exactly if all of their text stands for itself. -/
theorem places_ofApi (api : Api) (baseUrl : Option String) :
    let client := ofApi api
    let address := (baseUrl <|> api.info.baseUrl).getD ""
    (∀ f ∈ client.files baseUrl, f.content ∈ [eventStreams, formData] ∨
      (Headed f.content api.info.title api.info.version ↔
        OneLine api.info.title ∧ OneLine api.info.version)) ∧
    (∃ f ∈ client.files baseUrl, f.name = "runtime.ts" ∧
      ∃ p : Place f.content "  baseUrl: " address,
        p.before = heading api.info.title api.info.version ++ unlines runtimeStart ∧
          (p.Denotes ↔ Verbatim address)) ∧
    ∀ c ∈ client.controllers, client.controllerFile c ∈ client.files baseUrl ∧
      (∃ before after, (client.controllerFile c).content =
        before ++ String.join (c.signatures.map fun s => "\n" ++ Controller.function s) ++ after) ∧
      List.Forall₂ (fun o s => Calls api o s ∧
          ∃ p : Place (Controller.function s) (pathLabel s) o.path, p.Denotes ↔ Verbatim o.path)
        (api.operations.filter fun o => kebabCase o.controller = c.name) c.signatures := by
  intro client address
  refine ⟨fun f hf => ?_, ?_, fun c hc => ⟨?_, Controller.source_functions .., ?_⟩⟩
  · refine (content_of_mem_files hf).imp_right fun hbody => ?_
    obtain ⟨body, hbody⟩ := hbody
    rw [hbody]
    exact headed_heading ..
  · let p := addressPlace api.info.title api.info.version address
    exact ⟨_, List.mem_append_left _ (List.mem_append_left _ (List.mem_cons_of_mem _
      List.mem_cons_self)), rfl, p, rfl, p.denotes_iff⟩
  · exact List.mem_append_left _ (List.mem_append_right _ (List.mem_map_of_mem hc))
  · refine (functions_of_controller hc).imp fun o s hs => ⟨hs, ?_⟩
    obtain ⟨p⟩ := place_function s
    rw [hs.path] at p
    exact ⟨p, p.denotes_iff⟩

/-- A line ends in the title, a backslash stands in the address and a quote in the path. -/
def displacing : Api where
  info := { title := "Line\nbreak", version := "1.0.0", baseUrl := some "C:\\new" }
  operations := [{ name := "list", method := .get, path := "/a\"b", controller := "x" }]

/-- The comment ends within the title, and the literals of the address and of the path stand for
other texts. -/
theorem displaced_texts :
    let client := ofApi displacing
    let runtimeFile : File := ⟨"runtime.ts", runtime "Line\nbreak" "1.0.0" "C:\\new"⟩
    (lineComment? client.typesFile.content.toList).map (·.1) = some " Line".toList ∧
      runtimeFile ∈ client.files none ∧
      (∀ p : Place runtimeFile.content "  baseUrl: " "C:\\new", ¬ p.Denotes) ∧
      ∃ c ∈ client.controllers, ∃ s ∈ c.signatures, s.path = "/a\"b" ∧
        ∀ p : Place (Controller.function s) (pathLabel s) s.path, ¬ p.Denotes := by
  refine ⟨by decide +kernel, List.mem_append_left _ (List.mem_append_left _
    (List.mem_cons_of_mem _ List.mem_cons_self)), fun p => ?_, ?_⟩
  · rw [p.denotes_iff]
    decide
  · refine ⟨_, List.mem_cons_self, _, List.mem_cons_self, rfl, fun p => ?_⟩
    rw [p.denotes_iff]
    decide +kernel

end Client
end TypedApi.TypeScript
