import TypedApi.Proofs.TypeExpr.Fingerprint

/-! Components in place of the objects written out inside a type.

`collapse find` puts a reference in place of every object inside a type that `find` knows, from
the inside out: an object is looked at when the objects inside it are replaced already. The
abridged text of a type is the fingerprint of what it collapses to, with the objects replaced
whose fingerprint has a name (`abridged_eq_fingerprint`), so what is known of fingerprints carries
over to it. -/
namespace TypedApi.TypeExpr

/-- The component that a type stands for, or the type itself. -/
def stand (find : TypeExpr → Option String) (t : TypeExpr) : TypeExpr :=
  ((find t).map ref).getD t

mutual
def collapse (find : TypeExpr → Option String) : TypeExpr → TypeExpr
  | .array item => .array (stand find (collapse find item))
  | .tuple elements rest => .tuple (collapseAll find elements) (collapseRest find rest)
  | .object members additional =>
    .object (collapseMembers find members) (collapseAdditional find additional)
  | .union variants d => .union (collapseAll find variants) d
  | .intersection members => .intersection (collapseAll find members)
  | t => t

def collapseAll (find : TypeExpr → Option String) : List TypeExpr → List TypeExpr
  | [] => []
  | t :: ts => stand find (collapse find t) :: collapseAll find ts

def collapseRest (find : TypeExpr → Option String) : Option TypeExpr → Option TypeExpr
  | none => none
  | some t => some (stand find (collapse find t))

def collapseMembers (find : TypeExpr → Option String) : List Member → List Member
  | [] => []
  | { name, type, required, description, readOnly } :: ms =>
    { name, type := stand find (collapse find type), required, description, readOnly } ::
      collapseMembers find ms

def collapseAdditional (find : TypeExpr → Option String) : Option Additional → Option Additional
  | some (.of t) => some (.of (stand find (collapse find t)))
  | a => a
end

variable {find : TypeExpr → Option String} {names : String → Option String} {t : TypeExpr}

theorem collapse_eq (find : TypeExpr → Option String) (t : TypeExpr) :
    collapse find t = t.mapChildren fun c => stand find (collapse find c) := by
  have hall : ∀ ts, collapseAll find ts = ts.map fun c => stand find (collapse find c) := fun ts => by
    induction ts with
    | nil => rfl
    | cons t ts ih => rw [collapseAll, ih, List.map_cons]
  have hmembers : ∀ ms, collapseMembers find ms =
      ms.map fun m => { m with type := stand find (collapse find m.type) } := fun ms => by
    induction ms with
    | nil => rfl
    | cons m ms ih =>
      cases m
      exact congrArg (_ :: ·) ih
  cases t with
  | array item => rw [collapse, mapChildren]
  | tuple elements rest =>
    rw [collapse, hall]
    cases rest <;> rfl
  | object members additional =>
    rw [collapse, hmembers]
    rcases additional with _ | _ | _ | u <;> rfl
  | union variants d => rw [collapse, hall, mapChildren]
  | intersection members => rw [collapse, hall, mapChildren]
  | _ => rfl

theorem hasMembers_collapse (find : TypeExpr → Option String) (t : TypeExpr) :
    (collapse find t).hasMembers = t.hasMembers := by
  rw [collapse_eq, hasMembers_mapChildren]

/-- The component whose text is the fingerprint of an object. -/
def known (names : String → Option String) (t : TypeExpr) : Option String :=
  if t.hasMembers then names t.fingerprint else none

def resolve (names : String → Option String) (t : TypeExpr) : TypeExpr := collapse (known names) t

theorem hasMembers_resolve (names : String → Option String) (t : TypeExpr) :
    (resolve names t).hasMembers = t.hasMembers :=
  hasMembers_collapse _ t

theorem resolve_eq (names : String → Option String) (t : TypeExpr) :
    resolve names t = t.mapChildren fun c => stand (known names) (resolve names c) :=
  collapse_eq _ t

/-- What is left is not replaced again. -/
theorem resolve_resolve (names : String → Option String) (t : TypeExpr) :
    resolve names (resolve names t) = resolve names t := by
  induction t using induct with
  | step t ih =>
    rw [resolve_eq names t, resolve_eq, mapChildren_mapChildren]
    refine mapChildren_congr fun c hc => ?_
    cases hknown : known names (resolve names c) with
    | none =>
      have hstand : stand (known names) (resolve names c) = resolve names c := by rw [stand, hknown]; rfl
      rw [hstand, ih c hc, hstand]
    | some name =>
      have hstand : stand (known names) (resolve names c) = ref name := by rw [stand, hknown]; rfl
      rw [hstand]
      rfl

/-- An abridged text is the fingerprint of the type with the known objects replaced. -/
theorem abridged_eq_fingerprint (names : String → Option String) (t : TypeExpr) :
    abridged names t = (resolve names t).fingerprint := by
  induction t using induct with
  | step t ih =>
    have hwithin : ∀ c ∈ t.children,
        within names c = (stand (known names) (resolve names c)).fingerprint := by
      intro c hc
      rw [within, nested, ih c hc, stand, known, hasMembers_resolve]
      cases c.hasMembers with
      | false => rfl
      | true =>
        cases names (resolve names c).fingerprint with
        | none => rfl
        | some name => rfl
    rw [abridged_eq_layout, resolve_eq, fingerprint_eq_layout, layout_mapChildren hwithin]

/-- The names of the components that are put in do not make a type illegible. -/
theorem Legible.collapse (ht : t.Legible)
    (hfind : ∀ u name, find u = some name → (ref name).Legible) : (t.collapse find).Legible := by
  induction t using induct with
  | step t ih =>
    rw [collapse_eq]
    refine all_mapChildren (ht.here.mapChildren _) fun c hc => ?_
    unfold stand
    cases hname : find (c.collapse find) with
    | none => exact ih c hc (ht.child c hc)
    | some name => exact hfind _ name hname

end TypedApi.TypeExpr
