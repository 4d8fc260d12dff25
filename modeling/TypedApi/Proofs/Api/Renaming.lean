import TypedApi.Proofs.Api.Index
import TypedApi.Proofs.TypeExpr.Renaming

/-! The index of a renamed API.

An object is found among the components under its old names exactly if the renamed object is
found among the renamed components, and then the one name is the new name of the other
(`find?_rename`). -/
namespace TypedApi.Api
open TypeExpr (Fits Reversible Follows)

/-- The name of a component. -/
def Named (components : List (String × Component)) (name : String) : Prop :=
  name ∈ components.map (·.1)

/-- Components under their new names. -/
def renamedBy (f : String → String) (c : String × Component) : String × Component :=
  (f c.1, c.2.rename f)

namespace Index

variable {components : List (String × Component)} {f g : String → String}

theorem objects_rename (f : String → String) (components : List (String × Component)) :
    objects (components.map (renamedBy f)) = (objects components).map (renamedBy f) := by
  have hmembers : ∀ c : String × Component,
      (renamedBy f c).2.type.hasMembers = c.2.type.hasMembers := fun c =>
    TypeExpr.hasMembers_rename f c.2.type
  unfold objects
  rw [List.filter_map]
  simp only [Function.comp_def, hmembers]

/-- Where the same components have a text, the first of them is found. -/
theorem lookup_renamed {key key' : String × Component → String} {k k' : String}
    {cs : List (String × Component)} (h : ∀ c ∈ cs, k' = key' (renamedBy f c) ↔ k = key c) :
    ((cs.map (renamedBy f)).map fun c => (key' c, c.1)).lookup k' =
      ((cs.map fun c => (key c, c.1)).lookup k).map f := by
  induction cs with
  | nil => rfl
  | cons c cs ih =>
    have hkey : (k' == key' (renamedBy f c)) = (k == key c) :=
      Bool.eq_iff_iff.mpr (by simpa using h c List.mem_cons_self)
    rw [List.map_cons, List.map_cons, List.map_cons, List.lookup_cons, List.lookup_cons, hkey,
      ih fun d hd => h d (List.mem_cons_of_mem _ hd)]
    cases k == key c <;> rfl

theorem named_of_lookup {key : String × Component → String} {k name : String}
    (h : ((objects components).map fun c => (key c, c.1)).lookup k = some name) :
    Named components name := by
  obtain ⟨c, hc, -, rfl⟩ := mem_of_lookup_map h
  exact List.mem_map_of_mem (mem_objects.mp hc).1

theorem named_of_plain {key name : String} (h : (plain components).name? key = some name) :
    Named components name := by
  rw [name?_plain] at h
  exact named_of_lookup h

theorem named_of_name? {key name : String} (h : (ofComponents components).name? key = some name) :
    Named components name := by
  rw [name?_ofComponents] at h
  obtain h | ⟨-, h⟩ := Option.or_eq_some_iff.mp h
  · exact named_of_plain h
  · exact named_of_lookup h

/-- What is found is a component. -/
theorem named_of_find? {t : TypeExpr} {name : String}
    (h : (ofComponents components).find? t = some name) : Named components name := by
  rw [find?_eq _ (hasMembers_of_find? h)] at h
  obtain h | ⟨-, h⟩ := Option.or_eq_some_iff.mp h
  · exact named_of_name? h
  · exact named_of_name? h

variable (hr : Reversible (Named components) f g)
  (hc : ∀ c ∈ components, c.2.type.Fits (Named components))
include hr hc

theorem follows_plain : Follows (Named components) f (plain components).name?
    (plain (components.map (renamedBy f))).name? where
  renamed t ht := by
    rw [name?_plain, name?_plain, objects_rename]
    exact lookup_renamed fun c hm =>
      TypeExpr.fingerprint_rename_inj hr ht (hc c (mem_objects.mp hm).1)
  within _ _ := named_of_plain

theorem follows_ofComponents : Follows (Named components) f (ofComponents components).name?
    (ofComponents (components.map (renamedBy f))).name? where
  renamed t ht := by
    have hplain := follows_plain hr hc
    rw [name?_ofComponents, name?_ofComponents, hplain.renamed t ht, objects_rename, Option.map_or]
    refine congrArg _ (lookup_renamed fun c hm => ?_)
    have hfits := hc c (mem_objects.mp hm).1
    have htext : (plain (components.map (renamedBy f))).abridged (renamedBy f c).2.type =
        ((TypeExpr.resolve (plain components).name? c.2.type).rename f).fingerprint := by
      rw [abridged, TypeExpr.abridged_eq_fingerprint]
      exact congrArg _ (TypeExpr.resolve_rename hr hplain hfits)
    rw [htext, abridged, TypeExpr.abridged_eq_fingerprint]
    exact TypeExpr.fingerprint_rename_inj hr ht (hfits.resolve hr hplain)
  within _ _ := named_of_name?

theorem find?_rename {t : TypeExpr} (ht : t.Fits (Named components)) :
    (ofComponents (components.map (renamedBy f))).find? (t.rename f) =
      ((ofComponents components).find? t).map f := by
  have hf := follows_ofComponents hr hc
  by_cases hm : t.hasMembers = true
  · rw [find?_eq _ hm, find?_eq _ ((TypeExpr.hasMembers_rename f t).trans hm),
      TypeExpr.resolve_rename hr hf ht, hf.renamed t ht, hf.renamed _ (ht.resolve hr hf),
      Option.map_or]
  · rw [find?, find?, TypeExpr.hasMembers_rename, if_neg hm, if_neg hm]
    rfl

end Index
end TypedApi.Api
