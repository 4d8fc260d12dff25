import Mathlib.Data.List.Perm.Subperm
import TypedApi.Proofs.Json.Table
import TypedApi.SourceType.Registry

/-! Where references in a registry lead.

From each type there is at most one way along references to a type that is none, and no name is passed
twice on it (`Leads.nodup`). A chain of references (`Passes`) that starts at the type is the beginning
of that way (`Passes.rest`), and if it passes no name twice, it is no longer than the registry
(`Passes.length_le`). -/
namespace TypedApi.Registry

variable {registry : Registry} {type u o : SourceType} {names : List String}

/-- The references by `names`, one after the other, lead from a type to one that is no reference. -/
inductive Leads (registry : Registry) : SourceType → List String → SourceType → Prop
  | here {type : SourceType} (hform : ∀ target, type.form ≠ .ref target) : Leads registry type [] type
  | ref {type u o : SourceType} {target : String} {names : List String}
      (hform : type.form = .ref target) (hget : registry.get? target = some u)
      (h : Leads registry u names o) : Leads registry type (target :: names) o

namespace Leads

theorem unique (h : Leads registry type names o) {names' : List String} {o' : SourceType}
    (h' : Leads registry type names' o') : names = names' ∧ o = o' := by
  induction h generalizing names' o' with
  | here hform =>
    cases h' with
    | here _ => exact ⟨rfl, rfl⟩
    | ref hform' _ _ => exact absurd hform' (hform _)
  | ref hform hget _ ih =>
    cases h' with
    | here hform' => exact absurd hform (hform' _)
    | ref hform' hget' h' =>
      cases hform.symm.trans hform'
      cases hget.symm.trans hget'
      obtain ⟨rfl, rfl⟩ := ih h'
      exact ⟨rfl, rfl⟩

/-- From each name that is passed the rest of the way is left. -/
theorem split (h : Leads registry type names o) {name : String} (hname : name ∈ names) :
    ∃ before after u, names = before ++ name :: after ∧ registry.get? name = some u ∧
      Leads registry u after o := by
  induction h with
  | here _ => cases hname
  | @ref _ u _ target names _ hget h ih =>
    rcases List.mem_cons.mp hname with rfl | hname
    · exact ⟨[], names, u, rfl, hget, h⟩
    · obtain ⟨before, after, v, rfl, hv, hrest⟩ := ih hname
      exact ⟨target :: before, after, v, rfl, hv, hrest⟩

theorem nodup (h : Leads registry type names o) : names.Nodup := by
  induction h with
  | here _ => exact List.nodup_nil
  | @ref _ u _ target names _ hget h ih =>
    refine List.nodup_cons.mpr ⟨fun hagain => ?_, ih⟩
    -- A name that comes again would leave the same way both times.
    obtain ⟨before, after, v, hsplit, hv, hrest⟩ := h.split hagain
    cases hget.symm.trans hv
    have hlength := congrArg List.length ((h.unique hrest).1.symm.trans hsplit)
    rw [List.length_append, List.length_cons] at hlength
    omega

end Leads

/-! ### Chains of references -/

/-- The references by `names`, one after the other, lead from a type to another. -/
inductive Passes (registry : Registry) : SourceType → List String → SourceType → Prop
  | here {type : SourceType} : Passes registry type [] type
  | ref {type u v : SourceType} {target : String} {names : List String}
      (hform : type.form = .ref target) (hget : registry.get? target = some u)
      (h : Passes registry u names v) : Passes registry type (target :: names) v

/-- A way to a type that is no reference is a chain that ends there. -/
theorem leads_iff : Leads registry type names o ↔
    Passes registry type names o ∧ ∀ target, o.form ≠ .ref target := by
  constructor
  · intro h
    induction h with
    | here hform => exact ⟨.here, hform⟩
    | ref hform hget _ ih => exact ⟨.ref hform hget ih.1, ih.2⟩
  · rintro ⟨h, hend⟩
    induction h with
    | here => exact .here hend
    | ref hform hget _ ih => exact .ref hform hget (ih hend)

namespace Passes

/-- The chain goes on behind its last type. -/
theorem snoc (h : Passes registry type names u) {target : String} {v : SourceType}
    (hform : u.form = .ref target) (hget : registry.get? target = some v) :
    Passes registry type (names ++ [target]) v := by
  induction h with
  | here => exact .ref hform hget .here
  | ref hform' hget' _ ih => exact .ref hform' hget' (ih hform)

theorem subset (h : Passes registry type names u) : names ⊆ registry.names := by
  induction h with
  | here => exact List.nil_subset _
  | @ref _ v _ target names _ hget _ ih =>
    have hregistered : target ∈ registry.names :=
      Json.lookup_isSome_iff.mp (Option.isSome_iff_exists.mpr ⟨v, hget⟩)
    exact List.cons_subset.mpr ⟨hregistered, ih⟩

/-- Behind a chain there is the rest of the way. -/
theorem rest (h : Passes registry type names u) {names' : List String}
    (hleads : Leads registry type names' o) :
    ∃ more, names' = names ++ more ∧ Leads registry u more o := by
  induction h generalizing names' with
  | here => exact ⟨names', rfl, hleads⟩
  | ref hform hget _ ih =>
    cases hleads with
    | here hend => exact absurd hform (hend _)
    | ref hform' hget' hleads =>
      cases hform.symm.trans hform'
      cases hget.symm.trans hget'
      obtain ⟨more, rfl, hmore⟩ := ih hleads
      exact ⟨more, rfl, hmore⟩

/-- A chain with a way on passes no name that is not registered, and none twice. -/
theorem onward (h : Passes registry type names u) {target : String} (hform : u.form = .ref target)
    {names' : List String} (hleads : Leads registry type names' o) :
    (∃ v, registry.get? target = some v) ∧ target ∉ names := by
  obtain ⟨more, rfl, hmore⟩ := h.rest hleads
  cases hmore with
  | here hend => exact absurd hform (hend target)
  | @ref _ v _ _ more hform' hget _ =>
    cases hform.symm.trans hform'
    refine ⟨⟨v, hget⟩, fun hagain => ?_⟩
    exact (List.nodup_append.mp hleads.nodup).2.2 target hagain target List.mem_cons_self rfl

/-- A chain without repetitions is no longer than the registry. -/
theorem length_le (h : Passes registry type names u) (hnodup : names.Nodup) :
    names.length ≤ registry.size := by
  have hlength := (hnodup.subperm h.subset).length_le
  rwa [Registry.names, List.length_map] at hlength

end Passes

end TypedApi.Registry
