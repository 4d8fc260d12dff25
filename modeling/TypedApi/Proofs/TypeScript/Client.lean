import TypedApi.Proofs.TypeScript.Signature
import TypedApi.TypeScript.Client

/-! The client of an API whose components hide global types.

The signatures of a client are written over the API as it is, and renamed afterwards. They are the
signatures of the renamed API, and so is the text of every type (`signatures_ofApi`), unless
a renamed component stands behind the dots of the rest of a tuple (`renamed_rest`). -/
namespace TypedApi

open Api (Named)

/-- The names of the components are different identifiers, and their types are legible and only
refer to components. -/
structure Api.WellNamed (api : Api) : Prop where
  nodup : (api.components.map (·.1)).Nodup
  identifier : ∀ name, Named api.components name → TypeScript.isIdentifier name.toList = true
  fits : ∀ c ∈ api.components, c.2.type.Fits (Named api.components)

namespace TypeScript

/-- No mark of a fingerprint is part of an identifier. -/
theorem clear_of_isIdentifier {name : String} (h : isIdentifier name.toList = true) :
    (TypeExpr.ref name).Clear := by
  have hstops : ∀ c ∈ TypeExpr.stops, isIdentifierPart c = false :=
    Json.forall_mem_of_all (by decide)
  intro c hc hstop
  have hpart := isIdentifierPart_of_mem h hc
  rw [hstops c hstop] at hpart
  cases hpart

namespace Client

variable {api : Api} {taken : List String} {names : List (String × String)}

theorem reversible (h : api.WellNamed) (hf : Fresh (api.components.map (·.1)) taken names) :
    TypeExpr.Reversible (Named api.components) (newName names) (newName (names.map Prod.swap)) where
  back _ hname := hf.newName_newName hname
  clear name hname := clear_of_isIdentifier (h.identifier name hname)
  clear_new name hname := clear_of_isIdentifier (hf.isIdentifier_newName (h.identifier name hname))

/-- New names are as different as the old ones, so no component is lost. -/
theorem components_rename (h : (api.components.map (·.1)).Nodup)
    (hf : Fresh (api.components.map (·.1)) taken names) :
    (api.rename (newName names)).components =
      api.components.map (Api.renamedBy (newName names)) := by
  refine Json.table_of_nodup ?_
  have hmap : ((api.components.map fun c => (newName names c.1, c.2.rename (newName names))).map
      (·.1)) = (api.components.map (·.1)).map (newName names) := by
    rw [List.map_map, List.map_map]
    rfl
  rw [hmap]
  refine h.map_on fun name hname other hother heq => ?_
  rw [← hf.newName_newName hname, heq, hf.newName_newName hother]

/-- The scopes of an API and of the renamed API. -/
theorem renaming_scope (h : api.WellNamed) (hf : Fresh (api.components.map (·.1)) taken names) :
    Renaming (Named api.components) (newName names) hf.swap (scope api names)
      (scope (api.rename (newName names)) names) where
  forth name _ := hf.lookup_eq name
  back _ hname := hf.lookup_swap_newName hname
  identifier := h.identifier
  identifier_new name hname := hf.isIdentifier_newName (h.identifier name hname)
  shadowed := ⟨rfl, rfl⟩
  free _ hname := hf.lookup_swap_global hname
  find t ht := by
    rw [scope, scope, components_rename h.nodup hf]
    exact Api.Index.find?_rename (reversible h hf) h.fits ht
  found _ _ := Api.Index.named_of_find?

/-- The text of a type can be written and then renamed, or the type renamed and then written. So
the signatures of a client are those of the renamed API. -/
theorem signatures_ofApi (api : Api) (h : api.WellNamed) :
    let c := ofApi api
    let old := scope api c.renames
    let new := scope c.api c.renames
    let Plain := fun t : TypeExpr =>
      t.Fits (Named api.components) ∧ t.All (old.Steady (newName c.renames))
    (∀ t, Plain t → renamed c.renames (old.type t) = new.type (t.rename (newName c.renames))) ∧
    ((∀ o ∈ api.operations, ∀ t ∈ o.types, Plain t) →
      c.signatures = Signature.numbered (c.api.operations.map new.signature)) := by
  intro c old new Plain
  obtain ⟨taken, hf⟩ := fresh_freshNames (api.components.map (·.1))
  have hagrees : ∀ t, Plain t → Agrees (newName c.renames) hf.swap old new t := fun t ht =>
    (renaming_scope h hf).agrees ht.1 ht.2
  refine ⟨fun t ht => (hagrees t ht).plain.forth.renamed_eq, fun hplain => ?_⟩
  have hsignatures : (api.operations.map old.signature).map (Signature.mapTypes (renamed c.renames)) =
      c.api.operations.map new.signature := by
    show _ = (api.operations.map (Api.Operation.rename (newName c.renames))).map new.signature
    rw [List.map_map, List.map_map]
    exact List.map_congr_left fun o ho =>
      mapTypes_signature (renaming_scope h hf) fun t ht => hagrees t (hplain o ho t ht)
  rw [← hsignatures]
  exact (Signature.numberedFrom_mapTypes _ _ _).symm

/-- A component that hides a global type, and an operation whose answers are lists of it. -/
def recordList : Api where
  components := [("Record", { type := .single "a" .string })]
  operations := [{ name := "list", method := .get, path := "/x", controller := "x",
                   response := .json (.array (.ref "Record")) }]

theorem fits_record : (TypeExpr.ref "Record").Fits (Named recordList.components) :=
  TypeExpr.all_of_childless rfl ⟨clear_of_isIdentifier (by decide), List.mem_cons_self⟩

theorem fits_string : TypeExpr.string.Fits (Named recordList.components) :=
  TypeExpr.all_of_childless rfl ⟨nofun, trivial⟩

theorem wellNamed_recordList : recordList.WellNamed where
  nodup := by decide
  identifier name hname := by
    rw [List.mem_singleton.mp hname]
    decide
  fits c hc := by
    rw [List.mem_singleton.mp hc]
    refine .intro ⟨?_, trivial⟩ (List.forall_mem_singleton.mpr fits_string)
    simp only [TypeExpr.single, TypeExpr.Clear]
    decide

theorem signatures_ofApi_recordList :
    let c := ofApi recordList
    let old := scope recordList c.renames
    let new := scope c.api c.renames
    let Plain := fun t : TypeExpr =>
      t.Fits (Named recordList.components) ∧ t.All (old.Steady (newName c.renames))
    (recordList.WellNamed ∧ ∀ o ∈ recordList.operations, ∀ t ∈ o.types, Plain t) ∧
      c.signatures = Signature.numbered (c.api.operations.map new.signature) ∧
      c.signatures.map (·.responseType) = ["Record_[]"] := by
  intro c old new Plain
  have hplain : Plain (.array (.ref "Record")) :=
    ⟨.intro ⟨trivial, trivial⟩ (List.forall_mem_singleton.mpr fits_record),
      .intro trivial (List.forall_mem_singleton.mpr (TypeExpr.all_of_childless rfl trivial))⟩
  have hoperations : ∀ o ∈ recordList.operations, ∀ t ∈ o.types, Plain t := by
    refine List.forall_mem_singleton.mpr (List.forall_mem_singleton.mpr hplain)
  exact ⟨⟨wellNamed_recordList, hoperations⟩,
    (signatures_ofApi recordList wellNamed_recordList).2 hoperations, by decide +kernel⟩

/-- Behind the dots of the rest of a tuple, the old name stays. -/
theorem renamed_rest :
    let t : TypeExpr := .tuple [.string] (some (.ref "Record"))
    let c := ofApi recordList
    recordList.WellNamed ∧ t.Fits (Named recordList.components) ∧
      renamed c.renames ((scope recordList c.renames).type t) = "[string, ...Record[]]" ∧
      (scope c.api c.renames).type (t.rename (newName c.renames)) = "[string, ...Record_[]]" := by
  intro t c
  have hfits : t.Fits (Named recordList.components) := .intro ⟨trivial, trivial⟩
    (List.forall_mem_cons.mpr ⟨fits_string, List.forall_mem_singleton.mpr fits_record⟩)
  refine ⟨wellNamed_recordList, hfits, ?_, ?_⟩ <;> decide +kernel

end Client
end TypeScript
end TypedApi
