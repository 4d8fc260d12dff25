import TypedApi.Proofs.Api.Closed
import TypedApi.Proofs.TypeScript.Client

/-! Components that hide global types.

A client declares them under new names, and writes those names in every reference. The new names
belong to nothing else, the components keep their places, and no reference is left behind
(`freed_ofApi`). An API whose references all lead to components loses nothing: the table read
backwards gives it back. -/
namespace TypedApi

namespace Api
open TypeExpr (Refers Closed)

/-! ### The types of a renamed API -/

/-- The types of the components and of the operations. -/
def types (api : Api) : List TypeExpr :=
  api.components.map (·.2.type) ++ api.operations.flatMap Operation.types

section
variable (f : String → String)

theorem Stream.types_rename (s : Stream) :
    (s.rename f).types = s.types.map (TypeExpr.rename f) := by
  cases s with
  | events es => simp [Stream.rename, Stream.types]
  | _ => rfl

theorem Content.types_rename (c : Content) :
    (c.rename f).types = c.types.map (TypeExpr.rename f) := by
  cases c with
  | stream s => exact s.types_rename f
  | _ => rfl

theorem Operation.types_rename (o : Operation) :
    (o.rename f).types = o.types.map (TypeExpr.rename f) := by
  have hparameters : (o.rename f).parameters.map (·.type) =
      (o.parameters.map (·.type)).map (TypeExpr.rename f) := by simp [Operation.rename]
  have hbody : (o.rename f).body.toList.flatMap (·.content.types) =
      (o.body.toList.flatMap (·.content.types)).map (TypeExpr.rename f) := by
    unfold Operation.rename
    cases o.body with
    | none => rfl
    | some b => simpa using b.content.types_rename f
  have hresponse := o.response.types_rename f
  rw [Operation.types, hparameters, hbody, show (o.rename f).response = o.response.rename f from rfl,
    hresponse, Operation.types, List.map_append, List.map_append]

end

/-! ### Renaming back -/

section
variable {f g : String → String}

/-- Renaming back gives the type, as every reference in it finds its name again. -/
def Back (f g : String → String) (t : TypeExpr) : Prop := t.All (Refers fun name => g (f name) = name)

theorem Content.rename_rename {c : Content} (h : ∀ t ∈ c.types, Back f g t) :
    (c.rename f).rename g = c := by
  have hback : ∀ t ∈ c.types, (t.rename f).rename g = t := fun t ht => TypeExpr.rename_rename (h t ht)
  cases c with
  | json t => exact congrArg Content.json (hback t (List.mem_singleton_self t))
  | multipart t => exact congrArg Content.multipart (hback t (List.mem_singleton_self t))
  | stream s =>
    refine congrArg Content.stream ?_
    cases s with
    | typed t => exact congrArg Stream.typed (hback t (List.mem_singleton_self t))
    | events es =>
      refine congrArg Stream.events ((List.map_map ..).trans ?_)
      have hevent : ∀ e ∈ es, (e.1, (e.2.rename f).rename g) = id e := fun e he =>
        Prod.ext rfl (hback e.2 (List.mem_map_of_mem he))
      exact (List.map_congr_left hevent).trans (List.map_id es)
    | raw => rfl
  | _ => rfl

theorem Operation.rename_rename {o : Operation} (h : ∀ t ∈ o.types, Back f g t) :
    (o.rename f).rename g = o := by
  have hparameters : ((o.rename f).rename g).parameters = o.parameters := by
    have hparameter : ∀ p ∈ o.parameters,
        { p with type := (p.type.rename f).rename g } = id p := fun p hp =>
      congrArg (fun t => { p with type := t }) (TypeExpr.rename_rename (h p.type
        (List.mem_append_left _ (List.mem_append_left _ (List.mem_map_of_mem hp)))))
    exact ((List.map_map ..).trans (List.map_congr_left hparameter)).trans (List.map_id _)
  have hbody : ((o.rename f).rename g).body = o.body := by
    unfold Operation.rename
    cases hb : o.body with
    | none => rfl
    | some b =>
      have hcontent := Content.rename_rename fun t (ht : t ∈ b.content.types) => h t
        (List.mem_append_left _ (List.mem_append_right _ (by simpa [hb] using ht)))
      exact congrArg (fun c => some { b with content := c }) hcontent
  have hresponse : ((o.rename f).rename g).response = o.response :=
    Content.rename_rename fun t ht => h t (List.mem_append_right _ ht)
  calc (o.rename f).rename g = { o with
        parameters := ((o.rename f).rename g).parameters
        body := ((o.rename f).rename g).body
        response := ((o.rename f).rename g).response } := rfl
    _ = o := by rw [hparameters, hbody, hresponse]

end

/-! ### Every type of an API -/

theorem types_rename {api : Api} {f : String → String}
    (h : (api.rename f).components = api.components.map (renamedBy f)) :
    (api.rename f).types = api.types.map (TypeExpr.rename f) := by
  have hoperations : (api.rename f).operations = api.operations.map (Operation.rename f) := rfl
  rw [types, h, hoperations, types, List.map_append, List.map_flatMap, List.flatMap_map]
  refine congr (congrArg _ ?_) (List.flatMap_congr fun o _ => o.types_rename f)
  rw [List.map_map, List.map_map]
  rfl

/-- An API comes back when its names and the references in all of its types do. -/
theorem rename_rename {api : Api} {f g : String → String} (hn : (api.components.map (·.1)).Nodup)
    (h : (api.rename f).components = api.components.map (renamedBy f))
    (hnames : ∀ name ∈ componentNames api, g (f name) = name)
    (hrefers : ∀ t ∈ api.types, Back f g t) : (api.rename f).rename g = api := by
  have hcomponents : ((api.rename f).rename g).components = api.components := by
    have hcomponent : ∀ c ∈ api.components, (g (f c.1), (c.2.rename f).rename g) = id c := by
      intro c hc
      have htype := TypeExpr.rename_rename (hrefers c.2.type
        (List.mem_append_left _ (List.mem_map_of_mem hc)))
      exact Prod.ext (hnames c.1 (List.mem_map_of_mem hc))
        (congrArg (fun t => { c.2 with type := t }) htype)
    have hmap : ((api.components.map (renamedBy f)).map fun c => (g c.1, c.2.rename g)) =
        api.components :=
      ((List.map_map ..).trans (List.map_congr_left hcomponent)).trans (List.map_id _)
    show Json.table ((api.rename f).components.map fun c => (g c.1, c.2.rename g)) = _
    rw [h, hmap]
    exact Json.table_of_nodup hn
  have hoperations : ((api.rename f).rename g).operations = api.operations := by
    have hoperation : ∀ o ∈ api.operations, (o.rename f).rename g = id o := fun o ho =>
      Operation.rename_rename fun t ht =>
        hrefers t (List.mem_append_right _ (List.mem_flatMap.mpr ⟨o, ho, ht⟩))
    exact ((List.map_map ..).trans (List.map_congr_left hoperation)).trans (List.map_id _)
  calc (api.rename f).rename g = { api with
        components := ((api.rename f).rename g).components
        operations := ((api.rename f).rename g).operations } := rfl
    _ = api := by rw [hcomponents, hoperations]

end Api

namespace TypeScript
open Api (Named componentNames)
open TypeExpr (Refers Closed)

/-- `renamed` is `api` with other names for the components that hide global types, as the table
says. -/
structure Freed (api : Api) (renames : List (String × String)) (renamed : Api) : Prop where
  /-- The table has the components that hide a global type, in their order. -/
  keys : renames.map (·.1) = (componentNames api).filter globalTypes.contains
  /-- The new names are the old ones with underscores behind them. -/
  longer : ∀ e ∈ renames, ∃ n, e.2 = underscored e.1 (n + 1)
  distinct : (renames.map (·.2)).Nodup
  fresh : ∀ e ∈ renames, e.2 ∉ componentNames api ∧ e.2 ∉ globalTypes
  /-- Every component keeps its place and, but for references, what it is. -/
  components : renamed.components = api.components.map (Api.renamedBy (newName renames))
  free : ∀ name ∈ componentNames renamed, name ∉ globalTypes
  types : renamed.types = api.types.map (TypeExpr.rename (newName renames))
  /-- No reference, however deep, is left behind. -/
  gone : ∀ t ∈ renamed.types, t.All (Refers (· ∉ renames.map (·.1)))
  /-- References that led to components still do, and can be taken back. -/
  closed : (∀ t ∈ api.types, Closed (componentNames api) t) →
    (∀ t ∈ renamed.types, Closed (componentNames renamed) t) ∧
      renamed.rename (newName (renames.map Prod.swap)) = api

namespace Fresh

variable {known taken : List String} {renames : List (String × String)}

theorem nodup_new (h : Fresh known taken renames) : (renames.map (·.2)).Nodup :=
  (show renames.Nodup from h.keys.of_map).map_on fun e he e' he' heq => h.apart e he e' he' heq

/-- An old name is given to nothing. -/
theorem newName_notMem_keys (h : Fresh known taken renames) (name : String) :
    newName renames name ∉ renames.map (·.1) := by
  intro hmem
  obtain ⟨e, he, heq⟩ := List.mem_map.mp hmem
  rcases h.newName_cases name with hsame | ⟨-, n, hnew⟩
  · have hlookup := h.lookup_eq name
    rw [if_pos hsame, Json.lookup_eq_none_iff] at hlookup
    exact hlookup (hsame ▸ hmem)
  · exact underscored_notMem_globalTypes name n (hnew ▸ heq ▸ h.global e he)

end Fresh

namespace Client

variable {api : Api}

theorem fresh_renames (api : Api) :
    ∃ taken, Fresh (componentNames api) taken (ofApi api).renames := fresh_freshNames _

theorem mem_componentNames {name : String} : name ∈ componentNames (ofApi api).api ↔
    ∃ n, Named api.components n ∧ newName (ofApi api).renames n = name := by
  have hkeys : name ∈ componentNames (ofApi api).api ↔ name ∈ (api.components.map fun c =>
      (newName (ofApi api).renames c.1, c.2.rename (newName (ofApi api).renames))).map (·.1) :=
    Json.mem_keys_table
  rw [hkeys]
  simp [Named]

/-- Every component that hides a global type is freed from it, and nothing else changes. -/
theorem freed_ofApi (api : Api) (h : (api.components.map (·.1)).Nodup) :
    Freed api (ofApi api).renames (ofApi api).api := by
  obtain ⟨taken, hf⟩ := fresh_renames api
  have hcomponents : (ofApi api).api.components =
      api.components.map (Api.renamedBy (newName (ofApi api).renames)) := components_rename h hf
  have htypes : (ofApi api).api.types =
      api.types.map (TypeExpr.rename (newName (ofApi api).renames)) := Api.types_rename hcomponents
  have hnames : componentNames (ofApi api).api =
      (componentNames api).map (newName (ofApi api).renames) := by
    rw [componentNames, hcomponents, componentNames, List.map_map, List.map_map]
    rfl
  have hrenamed : ∀ t ∈ (ofApi api).api.types, ∃ u ∈ api.types,
      u.rename (newName (ofApi api).renames) = t := fun t ht => List.mem_map.mp (htypes ▸ ht)
  exact {
    keys := keys_freshNames h
    longer := hf.longer
    distinct := hf.nodup_new
    fresh := fun e he => by
      obtain ⟨n, hn⟩ := hf.longer e he
      exact ⟨(hf.new e he).2, hn ▸ underscored_notMem_globalTypes e.1 n⟩
    components := hcomponents
    free := fun name hname => by
      obtain ⟨old, hold, rfl⟩ := List.mem_map.mp (hnames ▸ hname)
      exact newName_notMem_globalTypes hold
    types := htypes
    gone := fun t ht => by
      obtain ⟨u, -, rfl⟩ := hrenamed t ht
      exact TypeExpr.refers_rename (TypeExpr.refers_of_forall hf.newName_notMem_keys u)
    closed := fun hclosed => by
      refine ⟨fun t ht => ?_, ?_⟩
      · obtain ⟨u, hu, rfl⟩ := hrenamed t ht
        refine TypeExpr.refers_rename ((hclosed u hu).refers_imp fun name hname => ?_)
        exact hnames ▸ List.mem_map_of_mem hname
      · exact Api.rename_rename h hcomponents (fun name hname => hf.newName_newName hname)
          fun t ht => (hclosed t ht).refers_imp fun name hname => hf.newName_newName hname }

/-- A component that hides a global type, beside one with its next name, and what refers to both. -/
def crowded : Api where
  components := [("Record", { type := .array (.ref "Map") }),
    ("Record_", { type := .single "a" (.ref "Record") }), ("Map", { type := .string })]
  operations := [{ name := "watch", method := .get, path := "/x", controller := "x",
                   response := .stream (.events [("added", .ref "Record")]) }]

theorem freed_ofApi_crowded :
    (crowded.components.map (·.1)).Nodup ∧
      (ofApi crowded).renames = [("Record", "Record__"), ("Map", "Map_")] ∧
      Freed crowded (ofApi crowded).renames (ofApi crowded).api := by
  have hnodup : (crowded.components.map (·.1)).Nodup := by decide
  exact ⟨hnodup, by decide +kernel, freed_ofApi crowded hnodup⟩

end Client
end TypeScript
end TypedApi
