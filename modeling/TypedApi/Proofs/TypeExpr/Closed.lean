import TypedApi.Proofs.OpenApi.Quiet
import TypedApi.Proofs.TypeExpr.Forms
import TypedApi.Proofs.TypeExpr.Renaming

/-! Types of schemas on which the validator has nothing to say.

A type is `Closed` under names if each of its references, at any depth, is to one of them. The
validator and the reader look at the same schemas inside a schema, so a schema without a violation
is read as a closed type (`closed_ofSchema`). They also take the same name from a reference, since
the key of a component has no slash. -/
namespace TypedApi.TypeExpr

open OpenApi

/-- Every reference in a type, at any depth, is to one of the names. -/
def Closed (names : List String) (t : TypeExpr) : Prop := t.All (Refers (· ∈ names))

variable {names : List String} {t : TypeExpr}

theorem closed_of_childless (ht : t.isRef = false) (hc : t.children = []) : Closed names t := by
  refine all_of_childless hc ?_
  cases t with
  | ref name => cases ht
  | _ => trivial

theorem closed_unknown : Closed names unknown := closed_of_childless rfl rfl

/-- Only references have something of their own to close. -/
theorem common_refers (known : String → Prop) : Common (Refers known) where
  primitive _ _ := trivial
  binary := trivial
  array _ := trivial
  tuple _ _ := trivial
  object _ _ := trivial
  union _ _ _ := trivial
  onlyNull _ := trivial
  intersection _ := trivial
  unknown := trivial

theorem refName_root {key : String} (h : '/' ∉ key.toList) :
    refName (componentRoot ++ key) = key := by
  have hroot : componentRoot.toList = "#/components/schemas".toList ++ ['/'] := by decide
  rw [refName, String.toList_append, hroot, List.append_assoc, List.singleton_append,
    afterLast_append h, String.ofList_toList]

/-- The validator and the reader take the same name from a reference. -/
theorem refName_of_quiet {members : List (String × Json)} (hnames : ∀ name ∈ names, '/' ∉ name.toList)
    (h : Violation.Quiet names (.obj members)) : ∀ r ∈ textAt members "$ref", refName r ∈ names := by
  intro r hr
  obtain ⟨v, hv, hr⟩ := Option.bind_eq_some_iff.mp hr
  obtain ⟨place, h⟩ := h
  have href : Violation.ofRef names members place = [] := by
    rw [Violation.ofSchema] at h
    simp only [List.append_eq_nil_iff] at h
    exact h.1.1.1.1.1
  rw [Violation.ofRef, hv] at href
  dsimp only at href
  rw [hr, Option.bind_some] at href
  split at href
  · cases href
  next name hname =>
    have hmem : name ∈ names := by
      split at href
      next hc => exact List.contains_iff_mem.mp hc
      next => cases href
    obtain ⟨cs, hcs, rfl⟩ := Option.map_eq_some_iff.mp hname
    have hreference : r = componentRoot ++ String.ofList cs := by
      rw [← String.toList_inj, String.toList_append, String.toList_ofList]
      exact Text.append_of_afterPrefix? hcs
    rw [hreference, refName_root (hnames _ hmem)]
    exact hmem

theorem inherited_quiet (names : List String) : Inherited (Violation.Quiet names) where
  properties h hv := h.properties hv
  items h hv hkey := by
    have hlist : ∀ key ∈ schemasKeywords, key ∈ Violation.listKeywords := by decide
    exact h.items hv (hlist _ hkey)
  single h hv hkey := by
    have hsingle : ∀ key ∈ schemaKeywords, key ∈ Violation.singleKeywords := by decide
    exact h.single hv (hsingle _ hkey)

/-- A schema on which the validator has nothing to say is read as a closed type. -/
theorem closed_ofSchema (hnames : ∀ name ∈ names, '/' ∉ name.toList) (v : Json)
    (h : Violation.Quiet names v) : Closed names (ofSchema v) :=
  all_ofSchema (common_refers _) (inherited_quiet names)
    (fun _ hquiet => {
      ref := refName_of_quiet hnames hquiet
      const := fun _ _ => trivial
      enum := fun _ _ => trivial }) v h

end TypedApi.TypeExpr
