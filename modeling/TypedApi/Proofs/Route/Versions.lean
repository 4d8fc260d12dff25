import Mathlib.Data.List.Forall2
import TypedApi.OpenApi.Document.Encoding
import TypedApi.OpenApi.Violation
import TypedApi.Route.Assembly

/-! Versions that a path segment selects.

A route has one operation for each version that it lists, and these differ in their ids only. The
path takes the segment of the version as it is, but the id has an underscore for each character of it
that is neither a letter nor a digit. So two versions with different paths have one id exactly if
their segments differ in such characters only (`versions_operations`), as those of `1.0` and `1_0` do
(`shared_operationId`). -/
namespace TypedApi.Route

open OpenApi (Operation Violation)

/-! ### Paths and ids -/

/-- The same text but for characters that are neither letters nor digits. -/
def Alike (s u : String) : Prop :=
  List.Forall₂ (fun c d => c = d ∨ Text.isAlphanumeric c = false ∧ Text.isAlphanumeric d = false)
    s.toList u.toList

/-- Letters, digits and underscores only. -/
def Plain (s : String) : Prop := ∀ c ∈ s.toList, Text.isAlphanumeric c = true ∨ c = '_'

instance (s : String) : Decidable (Plain s) := List.decidableBAll _ s.toList

variable {s u : String}

/-- As no letter and no digit is the underscore, it stands for all other characters and for no more. -/
theorem signOf_eq_iff (c d : Char) :
    (if Text.isAlphanumeric c then c else '_') = (if Text.isAlphanumeric d then d else '_') ↔
      c = d ∨ Text.isAlphanumeric c = false ∧ Text.isAlphanumeric d = false := by
  have hunderscore : Text.isAlphanumeric '_' = false := by decide
  grind

theorem identifierSuffix_eq_iff : identifierSuffix s = identifierSuffix u ↔ Alike s u := by
  rw [identifierSuffix, identifierSuffix, String.ofList_inj, ← List.forall₂_eq_eq_eq,
    List.forall₂_map_left_iff, List.forall₂_map_right_iff, Alike]
  simp only [signOf_eq_iff]

theorem Alike.eq_of_plain (h : Alike s u) (hs : Plain s) (hu : Plain u) : s = u := by
  have hchars : List.Forall₂ (· = ·) s.toList u.toList := by
    obtain ⟨hlength, hsigns⟩ := List.forall₂_iff_zip.mp h
    refine List.forall₂_iff_zip.mpr ⟨hlength, fun {c d} hzip => ?_⟩
    obtain ⟨hc, hd⟩ := List.of_mem_zip hzip
    rcases hsigns hzip with rfl | ⟨hc', hd'⟩
    · rfl
    · rw [(hs c hc).resolve_left (Bool.eq_false_iff.mp hc'),
        (hu d hd).resolve_left (Bool.eq_false_iff.mp hd')]
  rw [List.forall₂_eq_eq_eq] at hchars
  exact String.toList_injective hchars

theorem versionPath_inj {path : String} : versionPath s path = versionPath u path ↔ s = u := by
  refine ⟨fun h => ?_, fun h => by rw [h]⟩
  unfold versionPath at h
  refine String.toList_injective ?_
  split at h <;> simpa using congrArg String.toList h

/-! ### The operations of a route -/

/-- What a version makes of an operation: the path and the id are its own. -/
structure Versioned (mark : String) (route : Route) (op : Operation) (version : String)
    (offer : String × Method × Operation) : Prop where
  path : offer.1 = versionPath (versionSegment mark version) (template route.path)
  method : offer.2.1 = route.method
  same : { offer.2.2 with operationId := op.operationId } = op
  id : offer.2.2.operationId = some (route.controller ++ "_" ++ route.handler ++ "_" ++
    identifierSuffix (versionSegment mark version))

section Operations

variable {mark : String} {route : Route} {op : Operation} {v w : String}
  {o p : String × Method × Operation}

theorem Versioned.path_eq_iff (h : Versioned mark route op v o) (h' : Versioned mark route op w p) :
    o.1 = p.1 ↔ versionSegment mark v = versionSegment mark w := by
  rw [h.path, h'.path, versionPath_inj]

theorem Versioned.id_eq_iff (h : Versioned mark route op v o) (h' : Versioned mark route op w p) :
    o.2.2.operationId = p.2.2.operationId ↔
      Alike (versionSegment mark v) (versionSegment mark w) := by
  rw [h.id, h'.id, Option.some.injEq, ← identifierSuffix_eq_iff]
  refine ⟨fun heq => ?_, fun heq => by rw [heq]⟩
  refine String.toList_injective ?_
  simpa using congrArg String.toList heq

theorem versioned_versionOperation
    (hid : op.operationId = some (route.controller ++ "_" ++ route.handler)) (version : String) :
    Versioned mark route op version (versionPath (versionSegment mark version)
      (template route.path), route.method, versionOperation (versionSegment mark version) op) := by
  -- no `rfl` here: it would evaluate the path
  constructor <;> dsimp only [versionOperation]
  rw [hid, Option.map_some]

theorem operationId_operationAt (registry : Registry) (route : Route) (path : String)
    (t : SchemaTable) : ((operationAt registry route path).run t).1.operationId =
      some (route.controller ++ "_" ++ route.handler) := by
  unfold operationAt
  by_cases hbodies : (route.parameters.filter (·.category = .body)).isEmpty = true
  · simp only [hbodies, if_true]
    rfl
  · simp only [hbodies]
    rfl

theorem versioned_operations (registry : Registry) (headerName mark : String) (route : Route)
    (hlisted : route.versions ≠ []) (t : SchemaTable) :
    List.Forall₂ (Versioned mark route ((operationAt registry route (template route.path)).run t).1)
      route.versions ((operations registry ⟨.uri, headerName, mark⟩ route).run t).1 := by
  have hid := operationId_operationAt registry route (template route.path) t
  have hrun : ((operations registry ⟨.uri, headerName, mark⟩ route).run t).1 =
      route.versions.map fun version =>
        (versionPath (versionSegment mark version) (template route.path), route.method,
          versionOperation (versionSegment mark version)
            ((operationAt registry route (template route.path)).run t).1) := by
    have hfilled : route.versions.isEmpty = false := List.isEmpty_eq_false_iff.mpr hlisted
    simp only [operations, hfilled, Bool.false_eq_true, if_false]
    rfl
  rw [hrun, List.forall₂_map_right_iff]
  exact List.forall₂_same.mpr fun version _ => versioned_versionOperation hid version

/-- A route without versions has one operation. A route that lists versions has one for each, in
their order, which is the same operation under another path and id. Two of these have one path
exactly if the segments of their versions are the same, and one id exactly if they are the same but
for characters that are neither letters nor digits. So different paths have different ids as long as
the segments are plain. -/
theorem versions_operations (registry : Registry) (headerName mark : String) (route : Route)
    (t : SchemaTable) :
    let offers := ((operations registry ⟨.uri, headerName, mark⟩ route).run t).1
    let segment := versionSegment mark
    ∃ op, (route.versions = [] → offers = [(template route.path, route.method, op)]) ∧
      (route.versions ≠ [] → List.Forall₂ (Versioned mark route op) route.versions offers ∧
        ∀ v o, (v, o) ∈ route.versions.zip offers → ∀ w p, (w, p) ∈ route.versions.zip offers →
          (o.1 = p.1 ↔ segment v = segment w) ∧
          (o.2.2.operationId = p.2.2.operationId ↔ Alike (segment v) (segment w)) ∧
          (Plain (segment v) → Plain (segment w) → o.1 ≠ p.1 →
            o.2.2.operationId ≠ p.2.2.operationId)) := by
  intro offers segment
  refine ⟨((operationAt registry route (template route.path)).run t).1, fun hnone => ?_,
    fun hlisted => ?_⟩
  · have hempty : route.versions.isEmpty = true := List.isEmpty_iff.mpr hnone
    simp only [offers, operations, hempty, if_true]
    rfl
  · have hversioned := versioned_operations registry headerName mark route hlisted t
    refine ⟨hversioned, fun v o ho w p hp => ?_⟩
    have hv := (List.forall₂_iff_zip.mp hversioned).2 ho
    have hw := (List.forall₂_iff_zip.mp hversioned).2 hp
    refine ⟨hv.path_eq_iff hw, hv.id_eq_iff hw, fun hplain hplain' hpath hid => hpath ?_⟩
    exact (hv.path_eq_iff hw).mpr (((hv.id_eq_iff hw).mp hid).eq_of_plain hplain hplain')

end Operations

/-! ### Two versions -/

/-- Lists users in some versions. -/
def userList (versions : List String) : Route where
  controller := "users"
  handler := "list"
  method := .get
  path := "/users"
  versions := versions

theorem versions_operations_users :
    let offers := ((operations ⟨[]⟩ {} (userList ["1", "v2"])).run {}).1
    ∃ op o p, (userList ["1", "v2"]).versions ≠ [] ∧
      List.Forall₂ (Versioned "v" (userList ["1", "v2"]) op) ["1", "v2"] offers ∧
      offers = [o, p] ∧ Plain (versionSegment "v" "1") ∧ Plain (versionSegment "v" "v2") ∧
      o.1 ≠ p.1 ∧ o.2.2.operationId ≠ p.2.2.operationId := by
  intro offers
  obtain ⟨op, -, hlisted⟩ := versions_operations ⟨[]⟩ "X-API-Version" "v" (userList ["1", "v2"]) {}
  obtain ⟨hversioned, hapart⟩ := hlisted (List.cons_ne_nil _ _)
  obtain ⟨-, -, hplain⟩ :=
    hapart "1" _ List.mem_cons_self "v2" _ (List.mem_cons_of_mem _ List.mem_cons_self)
  have hone : Plain (versionSegment "v" "1") := by decide
  have htwo : Plain (versionSegment "v" "v2") := by decide
  have hpaths : versionPath (versionSegment "v" "1") (template "/users") ≠
      versionPath (versionSegment "v" "v2") (template "/users") := by decide
  exact ⟨op, _, _, List.cons_ne_nil _ _, hversioned, rfl, hone, htwo, hpaths,
    hplain hone htwo hpaths⟩

/-- A point and an underscore make two paths, but one id, which may not come twice in a document. -/
theorem shared_operationId :
    let route := userList ["1.0", "1_0"]
    let offers := ((operations ⟨[]⟩ {} route).run {}).1
    offers.map (·.1) = ["/v1.0/users", "/v1_0/users"] ∧
      offers.map (·.2.2.operationId) = [some "users_list_v1_0", some "users_list_v1_0"] ∧
      Violation.ofDocument (({ routes := [route] } : Manifest).document {}).encode =
        [⟨"paths./v1_0/users.get", "duplicate operationId 'users_list_v1_0'"⟩] := by
  decide +kernel

end TypedApi.Route
