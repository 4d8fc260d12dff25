import TypedApi.Proofs.TypeExpr.Renaming
import TypedApi.Proofs.TypeScript.Turns

/-! Texts that are renamed into each other and back.

A `Swap` has a table for either direction. Texts that it exchanges are equal on the one side
exactly if they are on the other (`eq_iff`), so texts are put together alike on both sides also
where equal parts are written once. -/
namespace TypedApi.TypeScript

/-- Tables of names that begin with capitals, for the way there and back. -/
structure Swap where
  forth : List (String × String)
  back : List (String × String)
  capital_forth : Capital forth
  capital_back : Capital back

/-- One text turns into the other and back, behind a dot if `dot` is set. -/
structure Swap.Exchanges (s : Swap) (dot : Bool) (x y : String) : Prop where
  forth : Turns s.forth dot x y
  back : Turns s.back dot y x

namespace Swap.Exchanges

variable {s : Swap} {dot : Bool} {x y x' y' : String} {xs ys : List String}

/-! ### Parts -/

theorem still (h : Still x) : s.Exchanges dot x x :=
  ⟨turns_still s.capital_forth h, turns_still s.capital_back h⟩

theorem behind {pre : String} (hpre : Opening pre) (h : s.Exchanges false x y) :
    s.Exchanges dot (pre ++ x) (pre ++ y) :=
  ⟨h.forth.behind s.capital_forth hpre, h.back.behind s.capital_back hpre⟩

theorem before {post : String} (hpost : Separating post) (h : s.Exchanges dot x y) :
    s.Exchanges dot (x ++ post) (y ++ post) :=
  ⟨h.forth.before s.capital_forth hpost, h.back.before s.capital_back hpost⟩

theorem between {sep : String} (hsep : Opening sep) (hcuts : cuts sep.toList = true)
    (h : s.Exchanges dot x y) (h' : s.Exchanges false x' y') :
    s.Exchanges dot (x ++ sep ++ x') (y ++ sep ++ y') :=
  ⟨h.forth.between s.capital_forth hsep hcuts h'.forth,
    h.back.between s.capital_back hsep hcuts h'.back⟩

/-- Three dots stand before the rest of a tuple. -/
theorem behindDots (h : s.Exchanges true x y) : s.Exchanges false ("..." ++ x) ("..." ++ y) :=
  ⟨h.forth.behindDots, h.back.behindDots⟩

theorem dotted {w : String} (hw : isIdentifier w.toList = true) : s.Exchanges true w w :=
  ⟨turns_dotted hw, turns_dotted hw⟩

theorem member {object : String} (hobject : isIdentifier object.toList = true)
    (hsmall : object.toList.head?.any isUpper = false) (h : s.Exchanges true x y) :
    s.Exchanges dot (object ++ "." ++ x) (object ++ "." ++ y) :=
  ⟨h.forth.member s.capital_forth hobject hsmall, h.back.member s.capital_back hobject hsmall⟩

theorem applied {w : String} (hw : isIdentifier w.toList = true) (h : s.Exchanges false x y) :
    s.Exchanges dot (w ++ "<" ++ x ++ ">") (w ++ "<" ++ y ++ ">") :=
  ⟨h.forth.applied s.capital_forth hw, h.back.applied s.capital_back hw⟩

theorem keyed (name : String) (required : Bool) (h : s.Exchanges false x y) :
    s.Exchanges false (key name ++ (keyMark required ++ x)) (key name ++ (keyMark required ++ y)) :=
  ⟨h.forth.keyed s.capital_forth name required, h.back.keyed s.capital_back name required⟩

/-! ### Lists -/

/-- Nothing falls together and nothing falls apart. -/
theorem eq_iff (h : s.Exchanges false x y) (h' : s.Exchanges false x' y') : x = x' ↔ y = y' := by
  constructor
  · rintro rfl
    exact h.forth.renamed_eq.symm.trans h'.forth.renamed_eq
  · rintro rfl
    exact h.back.renamed_eq.symm.trans h'.back.renamed_eq

theorem eraseDups (h : List.Forall₂ (s.Exchanges false) xs ys) :
    List.Forall₂ (s.Exchanges false) xs.eraseDups ys.eraseDups := by
  induction hn : xs.length using Nat.strong_induction_on generalizing xs ys with
  | _ n ih =>
    cases h with
    | nil => exact .nil
    | @cons x y xs ys hxy h =>
      have hfilter : List.Forall₂ (s.Exchanges false) (xs.filter fun z => !z == x)
          (ys.filter fun z => !z == y) := by
        refine List.rel_filter (fun z z' hz => ?_) h
        simp [hz.eq_iff hxy]
      have hsmaller : (xs.filter fun z => !z == x).length < n := by
        rw [← hn, List.length_cons]
        exact Nat.lt_succ_of_le (List.length_filter_le ..)
      rw [List.eraseDups_cons, List.eraseDups_cons]
      exact .cons hxy (ih _ hsmaller hfilter rfl)

theorem map {α : Type} {f g : α → String} {as : List α}
    (h : ∀ a ∈ as, s.Exchanges false (f a) (g a)) :
    List.Forall₂ (s.Exchanges false) (as.map f) (as.map g) := by
  rw [List.forall₂_map_left_iff, List.forall₂_map_right_iff, List.forall₂_same]
  exact h

variable {sep : String}

theorem intercalate_cons (hsep : Opening sep) (hcuts : cuts sep.toList = true)
    (hxy : s.Exchanges dot x y) (h : List.Forall₂ (s.Exchanges false) xs ys) :
    s.Exchanges dot (String.intercalate sep (x :: xs)) (String.intercalate sep (y :: ys)) := by
  induction h generalizing dot x y with
  | nil => simpa using hxy
  | cons hxy' _ ih =>
    rw [String.intercalate_cons_cons, String.intercalate_cons_cons]
    exact hxy.between hsep hcuts (ih hxy')

theorem intercalate (hsep : Opening sep) (hcuts : cuts sep.toList = true)
    (h : List.Forall₂ (s.Exchanges false) xs ys) :
    s.Exchanges false (String.intercalate sep xs) (String.intercalate sep ys) := by
  cases h with
  | nil =>
    rw [String.intercalate_nil]
    exact still (by decide)
  | cons hxy h => exact intercalate_cons hsep hcuts hxy h

/-- Only the first of the parts stands behind the dot. -/
theorem joined_cons (hsep : Opening sep) (hcuts : cuts sep.toList = true)
    (hdot : s.Exchanges dot x y) (hxy : s.Exchanges false x y)
    (h : List.Forall₂ (s.Exchanges false) xs ys) :
    s.Exchanges dot (joined sep (x :: xs)) (joined sep (y :: ys)) := by
  have hdups := eraseDups (.cons hxy h)
  rw [joined, joined]
  rw [List.eraseDups_cons, List.eraseDups_cons] at hdups ⊢
  cases hdups with
  | cons _ hrest => exact intercalate_cons hsep hcuts hdot hrest

/-! ### Forms of types -/

theorem alternatives_cons (hdot : s.Exchanges dot x y) (hxy : s.Exchanges false x y)
    (h : List.Forall₂ (s.Exchanges false) xs ys) :
    s.Exchanges dot (alternatives (x :: xs)) (alternatives (y :: ys)) :=
  joined_cons (by decide) (by decide) hdot hxy h

theorem braces (h : List.Forall₂ (s.Exchanges false) xs ys) :
    s.Exchanges dot (braces xs) (braces ys) :=
  ((intercalate (by decide) (by decide) h).behind (by decide)).before (by decide)

theorem furtherType (hxy : s.Exchanges false x y) (h : List.Forall₂ (s.Exchanges false) xs ys) :
    s.Exchanges false (furtherType x xs) (furtherType y ys) := by
  have hunknown : x = "unknown" ↔ y = "unknown" := hxy.eq_iff (still (by decide))
  have hempty : xs.isEmpty = ys.isEmpty := by cases h <;> rfl
  unfold TypeScript.furtherType
  simp only [hunknown, hempty]
  split
  · exact hxy
  · exact joined_cons (by decide) (by decide) hxy hxy h

/-- An object type over members that are exchanged with their heads. -/
theorem objectType {ms ns : List (String × String)} {v w : Option String}
    (h : List.Forall₂ (fun m n => s.Exchanges false m.2 n.2 ∧
      s.Exchanges false (m.1 ++ ": " ++ m.2) (n.1 ++ ": " ++ n.2)) ms ns)
    (hv : Option.Rel (s.Exchanges false) v w) :
    s.Exchanges dot (Scope.objectType ms v) (Scope.objectType ns w) := by
  have hmembers : List.Forall₂ (s.Exchanges false) (ms.map fun m => m.1 ++ ": " ++ m.2)
      (ns.map fun n => n.1 ++ ": " ++ n.2) := TypeExpr.forall₂_map h fun _ _ _ hmn => hmn.2
  have htypes : List.Forall₂ (s.Exchanges false) (ms.map (·.2)) (ns.map (·.2)) :=
    TypeExpr.forall₂_map h fun _ _ _ hmn => hmn.1
  refine braces (List.rel_append hmembers ?_)
  cases hv with
  | none => exact .nil
  | some hvw => exact .cons ((hvw.furtherType htypes).behind (by decide)) .nil

theorem recordOf (h : s.Exchanges false x y) :
    s.Exchanges dot ("Record<string, " ++ x ++ ">") ("Record<string, " ++ y ++ ">") := by
  have happlied : s.Exchanges dot ("Record" ++ "<" ++ ("string, " ++ x) ++ ">")
      ("Record" ++ "<" ++ ("string, " ++ y) ++ ">") := (h.behind (by decide)).applied (by decide)
  have hsplit : "Record<string, " = "Record" ++ "<" ++ "string, " := rfl
  simp only [hsplit, String.append_assoc] at happlied ⊢
  exact happlied

end Swap.Exchanges
end TypedApi.TypeScript
