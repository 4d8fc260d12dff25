import TypedApi.Proofs.TypeExpr.Resolution

/-! Fingerprints of renamed types.

Renaming the components in a type loses nothing if another renaming takes it back. So renamed
types have the same fingerprint exactly if the types themselves have, and what a type resolves to
can be renamed before or after. -/
namespace TypedApi.TypeExpr

/-! ### Renaming -/

theorem renameAll_eq (f : String → String) (ts : List TypeExpr) :
    renameAll f ts = ts.map (rename f) := by
  induction ts with
  | nil => rfl
  | cons t ts ih => rw [renameAll, ih, List.map_cons]

theorem renameMembers_eq (f : String → String) (ms : List Member) :
    renameMembers f ms = ms.map fun m => { m with type := rename f m.type } := by
  induction ms with
  | nil => rfl
  | cons m ms ih =>
    cases m
    exact congrArg (_ :: ·) ih

def isRef : TypeExpr → Bool
  | .ref _ => true
  | _ => false

/-- Only references have something of their own to rename. -/
theorem rename_eq (f : String → String) {t : TypeExpr} (h : t.isRef = false) :
    t.rename f = t.mapChildren (rename f) := by
  cases t with
  | ref name => cases h
  | tuple elements rest =>
    rw [rename, renameAll_eq]
    cases rest <;> rfl
  | object members additional =>
    rw [rename, renameMembers_eq]
    rcases additional with _ | _ | _ | u <;> rfl
  | union variants d => rw [rename, renameAll_eq, mapChildren]
  | intersection members => rw [rename, renameAll_eq, mapChildren]
  | _ => rfl

theorem hasMembers_rename (f : String → String) (t : TypeExpr) :
    (t.rename f).hasMembers = t.hasMembers := by
  cases h : t.isRef with
  | true => cases t <;> first | rfl | cases h
  | false => rw [rename_eq f h, hasMembers_mapChildren]

theorem forall₂_map {α β γ δ : Type} {R : α → β → Prop} {S : γ → δ → Prop} {f : α → γ} {g : β → δ}
    {xs : List α} {ys : List β} (h : List.Forall₂ R xs ys)
    (hfg : ∀ x ∈ xs, ∀ y, R x y → S (f x) (g y)) : List.Forall₂ S (xs.map f) (ys.map g) := by
  induction h with
  | nil => exact .nil
  | cons hxy _ ih =>
    exact .cons (hfg _ List.mem_cons_self _ hxy) (ih fun x hx => hfg x (List.mem_cons_of_mem _ hx))

theorem Similar.rename (f : String → String) {t u : TypeExpr} (h : Similar t u) :
    Similar (t.rename f) (u.rename f) := by
  induction t using induct generalizing u with
  | step t ih =>
    cases h with
    | array hitem => exact .array (ih _ mem_children_array hitem)
    | @tuple ts us r s helements hrest =>
      rw [rename_eq f rfl, rename_eq f rfl]
      refine .tuple (forall₂_map helements fun e he _ => ih e (mem_children_element he)) ?_
      cases hrest with
      | none => exact .none
      | some hrest => exact .some (ih _ (mem_children_rest rfl) hrest)
    | @object ms ms' ns a b order hmembers hadditional =>
      rw [rename_eq f rfl, rename_eq f rfl]
      refine .object (order.map _) (forall₂_map hmembers fun m hm n hmn => ?_) ?_
      · cases hmn with
        | intro hname hrequired htype =>
          exact .intro hname hrequired (ih _ (mem_children_member (order.mem_iff.mpr hm)) htype)
      · cases hadditional with
        | of htype => exact .of (ih _ mem_children_additional htype)
        | none => exact .none
        | any => exact .any
        | forbidden => exact .forbidden
    | union hvariants d e =>
      rw [rename_eq f rfl, rename_eq f rfl]
      exact .union (forall₂_map hvariants fun v hv _ => ih v hv) d e
    | intersection hmembers =>
      rw [rename_eq f rfl, rename_eq f rfl]
      exact .intersection (forall₂_map hmembers fun m hm _ => ih m hm)
    | _ => exact .refl _

/-! ### Renaming back -/

/-- `f` renames the known components, and `g` takes it back. No name, old or new, can be taken for
the marks of a fingerprint. -/
structure Reversible (known : String → Prop) (f g : String → String) : Prop where
  back : ∀ name, known name → g (f name) = name
  clear : ∀ name, known name → (ref name).Clear
  clear_new : ∀ name, known name → (ref (f name)).Clear

/-- A reference is to a known component. -/
def Refers (known : String → Prop) : TypeExpr → Prop
  | .ref name => known name
  | _ => True

/-- A legible type that only refers to known components. -/
def Fits (known : String → Prop) (t : TypeExpr) : Prop := t.All fun u => u.Clear ∧ u.Refers known

section
variable {known : String → Prop} {f g : String → String} {t u : TypeExpr}

theorem Refers.mapChildren (h : t.Refers known) (k : TypeExpr → TypeExpr) :
    (t.mapChildren k).Refers known := by
  cases t <;> exact h

theorem Fits.legible (h : t.Fits known) : t.Legible := h.imp fun _ hu => hu.1

theorem fits_ref (hr : Reversible known f g) {name : String} (h : known name) :
    (ref name).Fits known :=
  all_of_childless rfl ⟨hr.clear name h, h⟩

theorem fits_mapChildren {k : TypeExpr → TypeExpr} (h : t.Fits known)
    (hk : ∀ c ∈ t.children, (k c).Fits known) : (t.mapChildren k).Fits known :=
  all_mapChildren ⟨h.here.1.mapChildren k, h.here.2.mapChildren k⟩ hk

/-- The names that a renaming gives. -/
def Renamed (known : String → Prop) (f : String → String) (name : String) : Prop :=
  ∃ old, known old ∧ f old = name

theorem Reversible.flip (h : Reversible known f g) : Reversible (Renamed known f) g f where
  back name hname := by
    obtain ⟨old, hold, rfl⟩ := hname
    rw [h.back old hold]
  clear name hname := by
    obtain ⟨old, hold, rfl⟩ := hname
    exact h.clear_new old hold
  clear_new name hname := by
    obtain ⟨old, hold, rfl⟩ := hname
    rw [h.back old hold]
    exact h.clear old hold

theorem All.refers_imp {other : String → Prop} (h : t.All (Refers known))
    (himp : ∀ name, known name → other name) : t.All (Refers other) :=
  h.imp fun u hu => by
    cases u with
    | ref name => exact himp name hu
    | _ => trivial

theorem refers_of_forall (h : ∀ name, known name) (t : TypeExpr) : t.All (Refers known) :=
  all_of_forall (fun u => by
    cases u with
    | ref name => exact h name
    | _ => trivial) t

/-- Renaming back gives the type, if every reference finds its name again. -/
theorem rename_rename {f g : String → String} (h : t.All (Refers fun name => g (f name) = name)) :
    (t.rename f).rename g = t := by
  induction t using induct with
  | step t ih =>
    cases href : t.isRef with
    | true =>
      cases t with
      | ref name => exact congrArg ref h.here
      | _ => cases href
    | false =>
      have hchildren : t.mapChildren (fun c => (c.rename f).rename g) = t.mapChildren id :=
        mapChildren_congr fun c hc => ih c hc (h.child c hc)
      have href' : (t.mapChildren (rename f)).isRef = false := by cases t <;> first | rfl | cases href
      rw [rename_eq f href, rename_eq g href', mapChildren_mapChildren, hchildren, mapChildren_id]

theorem rename_back (hr : Reversible known f g) (h : t.Fits known) : (t.rename f).rename g = t := by
  refine rename_rename (h.imp fun u hu => ?_)
  cases u with
  | ref name => exact hr.back name hu.2
  | _ => trivial

/-- A renamed type refers to the new names of what the type refers to. -/
theorem refers_rename {f : String → String} (h : t.All (Refers fun name => known (f name))) :
    (t.rename f).All (Refers known) := by
  induction t using induct with
  | step t ih =>
    cases href : t.isRef with
    | true =>
      cases t with
      | ref name => exact all_of_childless rfl h.here
      | _ => cases href
    | false =>
      rw [rename_eq f href]
      refine all_mapChildren ?_ fun c hc => ih c hc (h.child c hc)
      cases t <;> trivial

theorem Fits.rename (hr : Reversible known f g) (h : t.Fits known) :
    (t.rename f).Fits (Renamed known f) := by
  induction t using induct with
  | step t ih =>
    cases href : t.isRef with
    | true =>
      cases t with
      | ref name => exact fits_ref hr.flip ⟨name, h.here.2, rfl⟩
      | _ => cases href
    | false =>
      rw [rename_eq f href]
      refine all_mapChildren ⟨h.here.1.mapChildren _, ?_⟩ fun c hc => ih c hc (h.child c hc)
      cases t <;> trivial

/-- Renaming keeps fingerprints together, and apart. -/
theorem fingerprint_rename_inj (hr : Reversible known f g) (ht : t.Fits known) (hu : u.Fits known) :
    (t.rename f).fingerprint = (u.rename f).fingerprint ↔ t.fingerprint = u.fingerprint := by
  constructor
  · intro h
    have hsimilar := similar_of_fingerprint_eq (ht.rename hr).legible (hu.rename hr).legible h
    have hback := hsimilar.rename g
    rw [rename_back hr ht, rename_back hr hu] at hback
    exact hback.abridged_eq _
  · intro h
    exact ((similar_of_fingerprint_eq ht.legible hu.legible h).rename f).abridged_eq _

/-! ### What a renamed type resolves to -/

/-- The names that are known for the fingerprints of renamed types are the renamed ones. -/
structure Follows (known : String → Prop) (f : String → String)
    (names names' : String → Option String) : Prop where
  renamed : ∀ t : TypeExpr, t.Fits known →
    names' (t.rename f).fingerprint = (names t.fingerprint).map f
  within : ∀ key name, names key = some name → known name

variable {names names' : String → Option String}

theorem Fits.stand (hr : Reversible known f g) (hf : Follows known f names names')
    (h : t.Fits known) : (stand (TypeExpr.known names) t).Fits known := by
  unfold TypeExpr.stand TypeExpr.known
  split
  · cases hname : names t.fingerprint with
    | none => exact h
    | some name => exact fits_ref hr (hf.within _ name hname)
  · exact h

theorem stand_rename (hf : Follows known f names names') (h : t.Fits known) :
    stand (TypeExpr.known names') (t.rename f) = (stand (TypeExpr.known names) t).rename f := by
  rw [TypeExpr.stand, TypeExpr.stand, TypeExpr.known, TypeExpr.known, hasMembers_rename,
    hf.renamed t h]
  split
  · cases names t.fingerprint <;> rfl
  · rfl

theorem Fits.resolve (hr : Reversible known f g) (hf : Follows known f names names')
    (h : t.Fits known) : (resolve names t).Fits known := by
  induction t using induct with
  | step t ih =>
    rw [resolve_eq]
    exact fits_mapChildren h fun c hc => (ih c hc (h.child c hc)).stand hr hf

/-- It does not matter whether components are put in place before or after the renaming. -/
theorem resolve_rename (hr : Reversible known f g) (hf : Follows known f names names')
    (h : t.Fits known) : resolve names' (t.rename f) = (resolve names t).rename f := by
  induction t using induct with
  | step t ih =>
    cases href : t.isRef with
    | true => cases t <;> first | rfl | cases href
    | false =>
      have href' : (resolve names t).isRef = false := by
        rw [resolve_eq]
        cases t <;> first | rfl | cases href
      rw [rename_eq f href, resolve_eq, mapChildren_mapChildren, rename_eq f href', resolve_eq,
        mapChildren_mapChildren]
      refine mapChildren_congr fun c hc => ?_
      have hfits : c.Fits known := h.child c hc
      rw [ih c hc hfits, stand_rename hf (hfits.resolve hr hf)]

end

end TypedApi.TypeExpr
