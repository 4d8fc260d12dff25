import TypedApi.Proofs.TypeScript.Controller
import TypedApi.TypeScript.Package

/-! The files of a client.

Every operation has its function in the file of one controller (`files_ofApi`). The files have
different names unless a controller that makes way for a file of every client meets another one
(`repeated_files`). -/
namespace TypedApi.TypeScript.Client

/-- A function calls an operation: it is the signature of the operation under some number, with the
components under their new names. -/
def Calls (api : Api) (o : Api.Operation) (s : Signature) : Prop :=
  let renames := (ofApi api).renames
  ∃ n, s = (((scope api renames).signature o).number n).mapTypes (renamed renames)

theorem calls_signatures (api : Api) :
    List.Forall₂ (Calls api) api.operations (ofApi api).signatures := by
  let renames := (ofApi api).renames
  have hnumbered := Signature.forall₂_numberedFrom []
    (api.operations.map (scope api renames).signature)
  rw [List.forall₂_map_left_iff] at hnumbered
  refine List.forall₂_map_right_iff.mpr (hnumbered.imp fun o s hs => ?_)
  obtain ⟨n, rfl⟩ := hs
  exact ⟨n, rfl⟩

variable {api : Api} {o : Api.Operation} {s : Signature}

theorem Calls.controller (h : Calls api o s) : s.controller = kebabCase o.controller := by
  obtain ⟨n, rfl⟩ := h
  rfl

/-- The controllers that the operations name. -/
def controllerNames (api : Api) : List String := api.operations.map fun o => kebabCase o.controller

theorem controllers_signatures (api : Api) :
    (ofApi api).signatures.map (·.controller) = controllerNames api := by
  have hsame : List.Forall₂ Eq (controllerNames api)
      ((ofApi api).signatures.map (·.controller)) := by
    rw [controllerNames, List.forall₂_map_left_iff, List.forall₂_map_right_iff]
    exact (calls_signatures api).imp fun _ _ h => h.controller.symm
  rw [List.forall₂_eq_eq_eq] at hsame
  exact hsame.symm

/-- A controller holds the functions of the operations that name it, in order. -/
theorem functions_of_controller {c : Controller} (h : c ∈ (ofApi api).controllers) :
    List.Forall₂ (Calls api) (api.operations.filter fun o => kebabCase o.controller = c.name)
      c.signatures := by
  rw [(Controller.grouped_ofSignatures _).signatures c h]
  refine List.rel_filter (fun o s hs => ?_) (calls_signatures api)
  simp only [decide_eq_true_eq, hs.controller]

/-! ### Names of files -/

theorem names_files (c : Client) (baseUrl : Option String) :
    (c.files baseUrl).map (·.name) =
      (["types", "runtime", "sse", "form-data"] ++ c.controllers.map (·.stem) ++ ["index"]).map
        (· ++ ".ts") := by
  simp only [files, List.map_append, List.map_map]
  rfl

theorem nodup_files_iff (c : Client) (baseUrl : Option String) :
    ((c.files baseUrl).map (·.name)).Nodup ↔ (c.controllers.map (·.stem)).Nodup := by
  have hinjective : Function.Injective fun stem : String => stem ++ ".ts" := fun _ _ h =>
    (String.append_left_inj ".ts").mp h
  have hperm : (["types", "runtime", "sse", "form-data"] ++ c.controllers.map (·.stem) ++
      ["index"]).Perm (Controller.supportFiles ++ c.controllers.map (·.stem)) := by
    rw [List.append_assoc]
    exact List.Perm.append_left _ List.perm_append_comm
  have hapart : ∀ a ∈ Controller.supportFiles, ∀ b ∈ c.controllers.map (·.stem), a ≠ b := by
    intro a ha b hb heq
    obtain ⟨d, -, rfl⟩ := List.mem_map.mp hb
    rw [heq, Controller.stem_eq] at ha
    exact Controller.stemOf_notMem d.name ha
  rw [names_files, List.nodup_map_iff hinjective, hperm.nodup_iff, List.nodup_append]
  exact ⟨fun h => h.2.1, fun h => ⟨by decide, h, hapart⟩⟩

/-- Every operation has its function in the file of one controller, and the functions of a file are
in document order. The files have different names unless a controller is named after a file of every
client and another one after the file that the first is given instead. -/
theorem files_ofApi (api : Api) (baseUrl : Option String) :
    let client := ofApi api
    (((client.files baseUrl).map (·.name)).Nodup ↔
      ∀ name ∈ Controller.supportFiles, name ∈ controllerNames api →
        name ++ "-client" ∉ controllerNames api) ∧
    (∀ o ∈ api.operations, ∃! c, c ∈ client.controllers ∧ c.name = kebabCase o.controller) ∧
    ∀ c ∈ client.controllers, client.controllerFile c ∈ client.files baseUrl ∧
      List.Forall₂ (Calls api) (api.operations.filter fun o => kebabCase o.controller = c.name)
        c.signatures ∧
      ∃ before after, (client.controllerFile c).content =
        before ++ String.join (c.signatures.map fun s => "\n" ++ Controller.function s) ++ after := by
  intro client
  have hgrouped : Controller.Grouped client.signatures client.controllers :=
    Controller.grouped_ofSignatures _
  have hnames : ∀ name, name ∈ client.controllers.map (·.name) ↔ name ∈ controllerNames api :=
    fun name => by rw [hgrouped.names, controllers_signatures]
  refine ⟨?_, fun o ho => ?_, fun c hc => ⟨?_, functions_of_controller hc, ?_⟩⟩
  · have hstems : client.controllers.map (·.stem) =
        (client.controllers.map (·.name)).map Controller.stemOf := by
      rw [List.map_map]
      rfl
    rw [nodup_files_iff, hstems, Controller.nodup_stems hgrouped.nodup]
    simp only [hnames]
  · have hname : kebabCase o.controller ∈ client.controllers.map (·.name) :=
      (hnames _).mpr (List.mem_map_of_mem ho)
    obtain ⟨c, hc, heq⟩ := List.mem_map.mp hname
    exact ⟨c, ⟨hc, heq⟩, fun d hd =>
      List.inj_on_of_nodup_map hgrouped.nodup hd.1 hc (hd.2.trans heq.symm)⟩
  · exact List.mem_append_left _ (List.mem_append_right _ (List.mem_map_of_mem hc))
  · exact Controller.source_functions ..

/-- Two controllers with one file: the first is named after a file of every client. -/
theorem repeated_files :
    let operation (controller : String) : Api.Operation :=
      { name := "list", method := .get, path := "/" ++ controller, controller }
    let client := ofApi { operations := [operation "types", operation "types-client"] }
    client.controllers.map (·.name) = ["types", "types-client"] ∧
      (client.files none).map (·.name) = ["types.ts", "runtime.ts", "sse.ts", "form-data.ts",
        "types-client.ts", "types-client.ts", "index.ts"] := by
  decide +kernel

end TypedApi.TypeScript.Client
