import TypedApi.Proofs.Api.Renaming
import TypedApi.Proofs.TypeScript.Exchange
import TypedApi.TypeScript.Client

/-! Types of renamed components as text.

A type is written in two ways: over the components as they are, with the names of its text renamed
afterwards, and with the type itself renamed, over the renamed components. `exchanges_type` says
that this comes to the same, unless a renamed component stands right behind the dots of the rest
of a tuple: there it is taken for a member. -/
namespace TypedApi.TypeScript
open TypeExpr (Fits rename)

/-! ### The text of a type -/

namespace Scope
variable (s : Scope)

theorem types_eq (ts : List TypeExpr) : s.types ts = ts.map s.type := by
  induction ts with
  | nil => rfl
  | cons t ts ih => rw [types, ih, List.map_cons]

theorem memberTypes_eq (ms : List Member) :
    s.memberTypes ms = ms.map fun m => (memberHead m, s.type m.type) := by
  induction ms with
  | nil => rfl
  | cons m ms ih =>
    cases m
    exact congrArg (_ :: ·) ih

/-- A member of an intersection as text. -/
def operand (t : TypeExpr) : String := if isUnion t then "(" ++ s.type t ++ ")" else s.type t

theorem operands_eq (ts : List TypeExpr) : s.operands ts = ts.map s.operand := by
  induction ts with
  | nil => rfl
  | cons t ts ih => rw [operands, ih, List.map_cons, operand]

theorem anyRefers_iff (ts : List TypeExpr) :
    s.anyRefers ts = true ↔ ∃ t ∈ ts, s.refersToComponent t = true := by
  induction ts with
  | nil => simp [anyRefers]
  | cons t ts ih => rw [anyRefers, Bool.or_eq_true, ih, List.exists_mem_cons_iff]

theorem membersRefer_iff (ms : List Member) :
    s.membersRefer ms = true ↔ ∃ m ∈ ms, s.refersToComponent m.type = true := by
  induction ms with
  | nil => simp [membersRefer]
  | cons m ms ih =>
    cases m
    rw [membersRefer, Bool.or_eq_true, ih, List.exists_mem_cons_iff]

/-- The text of a type names a component if the type is one or one of its children does. -/
theorem refersToComponent_iff (t : TypeExpr) :
    s.refersToComponent t = true ↔
      t.isRef = true ∨ (s.index.find? t).isSome = true ∨
        ∃ c ∈ t.children, s.refersToComponent c = true := by
  have hfind : t.hasMembers = false → (s.index.find? t).isSome = false := fun ht => by
    rw [Api.Index.find?, ht]
    rfl
  cases t with
  | ref name => simp [refersToComponent, TypeExpr.isRef]
  | array item => simp [refersToComponent, TypeExpr.isRef, TypeExpr.children, hfind rfl]
  | tuple elements rest =>
    cases rest <;>
      simp [refersToComponent, anyRefers_iff, restRefers, TypeExpr.isRef, TypeExpr.children,
        hfind rfl, or_and_right, exists_or]
  | object members additional =>
    rcases additional with _ | _ | _ | u <;>
      simp [refersToComponent, membersRefer_iff, additionalRefers, TypeExpr.isRef, TypeExpr.children,
        Additional.type?, or_and_right, exists_or, or_assoc, or_comm]
  | union variants d =>
    simp [refersToComponent, anyRefers_iff, TypeExpr.isRef, TypeExpr.children, hfind rfl]
  | intersection members =>
    simp [refersToComponent, anyRefers_iff, TypeExpr.isRef, TypeExpr.children, hfind rfl]
  | _ => simp [refersToComponent, TypeExpr.isRef, TypeExpr.children, hfind rfl]

mutual
/-- The component whose name the text of a type begins with. -/
def leading? (s : Scope) : TypeExpr → Option String
  | .ref name => some name
  | .array item => if isCompound item then none else leading? s item
  | .object members additional => s.index.find? (.object members additional)
  | .union variants _ => leadingVariant? s variants
  | .intersection members => leadingOperand? s members
  | _ => none
def leadingVariant? (s : Scope) : List TypeExpr → Option String
  | [] => none
  | t :: _ => leading? s t
def leadingOperand? (s : Scope) : List TypeExpr → Option String
  | [] => none
  | t :: _ => if isUnion t then none else leading? s t
end

/-- A renamed component does not stand behind the dots of the rest of a tuple. This says nothing
of the types inside the type. -/
def Steady (s : Scope) (f : String → String) : TypeExpr → Prop
  | .tuple _ (some rest) => ∀ name ∈ s.leading? (.array rest), f name = name
  | _ => True

end Scope

theorem exchanges_member {s : Swap} (m : Member) (t : TypeExpr) {x y : String}
    (hxy : s.Exchanges false x y) :
    s.Exchanges false (memberHead m ++ ": " ++ x) (memberHead { m with type := t } ++ ": " ++ y) := by
  have hkeyed := hxy.keyed m.name m.required
  have hmark : keyMark m.required = (if m.required then "" else "?") ++ ": " := by
    cases m.required <;> rfl
  rw [hmark] at hkeyed
  simp only [memberHead, String.append_assoc] at hkeyed ⊢
  cases m.readOnly with
  | true => exact hkeyed.behind (by decide)
  | false => simpa using hkeyed

theorem exchanges_literals {s : Swap} {dot : Bool} (vs : List Json) :
    s.Exchanges dot (alternatives (vs.map literal)) (alternatives (vs.map literal)) := by
  have hliteral : ∀ v {dot : Bool}, s.Exchanges dot (literal v) (literal v) := fun v _ =>
    Swap.Exchanges.still (still_literal v)
  cases vs with
  | nil => exact Swap.Exchanges.still (by decide)
  | cons v vs =>
    exact Swap.Exchanges.alternatives_cons (hliteral v) (hliteral v)
      (Swap.Exchanges.map fun w _ => hliteral w)

/-! ### Two scopes -/

/-- Two scopes of the same components, under their old names and under those that `f` gives them,
and the tables that lead from one name to the other. -/
structure Renaming (known : String → Prop) (f : String → String) (s : Swap) (old new : Scope) :
    Prop where
  forth : ∀ name, known name → s.forth.lookup name = if f name = name then none else some (f name)
  back : ∀ name, known name → s.back.lookup (f name) = if f name = name then none else some name
  identifier : ∀ name, known name → isIdentifier name.toList = true
  identifier_new : ∀ name, known name → isIdentifier (f name).toList = true
  shadowed : old.shadowed = s.forth ∧ new.shadowed = s.forth
  free : ∀ name ∈ globalTypes, s.back.lookup name = none
  find : ∀ t, t.Fits known → new.index.find? (t.rename f) = (old.index.find? t).map f
  found : ∀ t name, old.index.find? t = some name → known name

namespace Renaming
variable {known : String → Prop} {f : String → String} {s : Swap} {old new : Scope}
  (h : Renaming known f s old new)
include h

theorem refersToComponent_rename {t : TypeExpr} (ht : t.Fits known) :
    new.refersToComponent (t.rename f) = old.refersToComponent t := by
  induction t using TypeExpr.induct with
  | step t ih =>
    cases href : t.isRef with
    | true => cases t <;> first | rfl | cases href
    | false =>
      have hchildren : (∃ c ∈ (t.rename f).children, new.refersToComponent c = true) ↔
          ∃ c ∈ t.children, old.refersToComponent c = true := by
        rw [TypeExpr.rename_eq f href, TypeExpr.children_mapChildren]
        constructor
        · rintro ⟨c, hc, hrefers⟩
          obtain ⟨d, hd, rfl⟩ := List.mem_map.mp hc
          exact ⟨d, hd, ih d hd (ht.child d hd) ▸ hrefers⟩
        · rintro ⟨d, hd, hrefers⟩
          exact ⟨_, List.mem_map_of_mem hd, (ih d hd (ht.child d hd)).trans hrefers⟩
      have href' : (t.rename f).isRef = false := by
        cases t <;> first | rfl | cases href
      rw [Bool.eq_iff_iff, Scope.refersToComponent_iff, Scope.refersToComponent_iff, hchildren,
        h.find t ht, Option.isSome_map, href, href']

theorem exchanges_name {name : String} {dot : Bool} (hname : known name)
    (hdot : dot = true → f name = name) : s.Exchanges dot name (f name) := by
  have hforth := h.forth name hname
  have hback := h.back name hname
  by_cases heq : f name = name
  · rw [if_pos heq] at hforth hback
    rw [heq] at hback ⊢
    exact ⟨turns_word (h.identifier name hname) hforth, turns_word (h.identifier name hname) hback⟩
  · have hfalse : dot = false := Bool.eq_false_iff.mpr (mt hdot heq)
    rw [if_neg heq] at hforth hback
    rw [hfalse]
    exact ⟨turns_name (h.identifier name hname) hforth,
      turns_name (h.identifier_new name hname) hback⟩

theorem exchanges_builtin {name : String} {dot : Bool} (hglobal : name ∈ globalTypes)
    (hname : isIdentifier name.toList = true) :
    s.Exchanges dot (old.builtin name) (new.builtin name) := by
  rw [Scope.builtin, Scope.builtin, h.shadowed.1, h.shadowed.2]
  split
  · have hmember : s.Exchanges dot ("globalThis" ++ "." ++ name) ("globalThis" ++ "." ++ name) :=
      (Swap.Exchanges.dotted hname).member (by decide) (by decide)
    exact hmember
  · next hnone =>
    rw [Option.not_isSome_iff_eq_none] at hnone
    exact ⟨turns_word hname hnone, turns_word hname (h.free name hglobal)⟩

theorem exchanges_recordType {a : Option Additional} {dot : Bool} {v w : Option String}
    (ht : ∀ t, a = some (.of t) → t.Fits known) (hv : Option.Rel (s.Exchanges false) v w) :
    s.Exchanges dot (old.recordType a v) (new.recordType (TypeExpr.renameAdditional f a) w) := by
  have hstill : ∀ x, Still x →
      s.Exchanges dot ("Record<string, " ++ x ++ ">") ("Record<string, " ++ x ++ ">") :=
    fun x hx => Swap.Exchanges.recordOf (Swap.Exchanges.still hx)
  have hunknown : s.Exchanges dot "Record<string, unknown>" "Record<string, unknown>" :=
    hstill "unknown" (by decide)
  rcases a with _ | _ | _ | t
  · exact hunknown
  · exact hunknown
  · exact hstill "never" (by decide)
  · cases hv with
    | none => exact hunknown
    | some hv =>
      rw [TypeExpr.renameAdditional, Scope.recordType, Scope.recordType,
        h.refersToComponent_rename (ht t rfl)]
      split
      · exact Swap.Exchanges.braces (.cons (hv.behind (by decide)) .nil)
      · exact hv.recordOf

end Renaming

/-! ### One form of type after the other -/

/-- The text of the type and that of the renamed type are exchanged. Behind a dot this is asked
only where the text does not begin with a component that is renamed. -/
def Agrees (f : String → String) (s : Swap) (old new : Scope) (t : TypeExpr) : Prop :=
  ∀ dot : Bool, (dot = true → ∀ name ∈ old.leading? t, f name = name) →
    s.Exchanges dot (old.type t) (new.type (t.rename f))

namespace Agrees
variable {f : String → String} {s : Swap} {old new : Scope} {t : TypeExpr} {ts : List TypeExpr}

theorem plain (h : Agrees f s old new t) : s.Exchanges false (old.type t) (new.type (t.rename f)) :=
  h false fun hdot => by cases hdot

theorem types (h : ∀ t ∈ ts, Agrees f s old new t) :
    List.Forall₂ (s.Exchanges false) (old.types ts) (new.types (TypeExpr.renameAll f ts)) := by
  rw [Scope.types_eq, Scope.types_eq, TypeExpr.renameAll_eq, List.map_map]
  exact Swap.Exchanges.map fun t ht => (h t ht).plain

theorem opened (h : Agrees f s old new t) {dot : Bool} :
    s.Exchanges dot ("(" ++ old.type t) ("(" ++ new.type (t.rename f)) :=
  h.plain.behind (by decide)

theorem array (h : Agrees f s old new t) : Agrees f s old new (.array t) := by
  intro dot hdot
  have hcompound : isCompound (t.rename f) = isCompound t := by
    cases t <;> simp [isCompound, TypeExpr.rename, TypeExpr.renameAll_eq]
  rw [Scope.leading?] at hdot
  rw [TypeExpr.rename, Scope.type, Scope.type, arrayOf, arrayOf, hcompound]
  split
  · exact h.opened.before (by decide)
  · next hc =>
    rw [if_neg hc] at hdot
    exact (h dot hdot).before (by decide)

theorem tuple {rest : Option TypeExpr} (h : ∀ t ∈ ts, Agrees f s old new t)
    (hrest : ∀ t ∈ rest, Agrees f s old new t) (hs : old.Steady f (.tuple ts rest)) :
    Agrees f s old new (.tuple ts rest) := by
  intro dot _
  have hdots : List.Forall₂ (s.Exchanges false) (old.restType rest)
      (new.restType (TypeExpr.renameOption f rest)) := by
    cases rest with
    | none => exact .nil
    | some r =>
      have hr : s.Exchanges true (old.type (.array r)) (new.type (.array (r.rename f))) :=
        (hrest r rfl).array true fun _ => hs
      exact .cons hr.behindDots .nil
  have hitems : s.Exchanges false _ _ := Swap.Exchanges.intercalate (by decide : Opening ", ")
    (by decide) (List.rel_append (types h) hdots)
  have hopen : s.Exchanges dot ("[" ++ _) ("[" ++ _) := hitems.behind (by decide)
  rw [TypeExpr.rename, Scope.type, Scope.type]
  exact hopen.before (by decide)

theorem union {d : Option String} (h : ∀ t ∈ ts, Agrees f s old new t) :
    Agrees f s old new (.union ts d) := by
  intro dot hdot
  rw [TypeExpr.rename, Scope.type, Scope.type]
  have htypes := types h
  cases ts with
  | nil =>
    have hstill : Still "never" := by decide
    exact Swap.Exchanges.still hstill
  | cons t ts =>
    cases htypes with
    | cons hplain hrest =>
      exact Swap.Exchanges.alternatives_cons (h t List.mem_cons_self dot hdot) hplain hrest

theorem operand (h : Agrees f s old new t) {dot : Bool}
    (hdot : dot = true → isUnion t = false → ∀ name ∈ old.leading? t, f name = name) :
    s.Exchanges dot (old.operand t) (new.operand (t.rename f)) := by
  have hunion : isUnion (t.rename f) = isUnion t := by cases t <;> rfl
  rw [Scope.operand, Scope.operand, hunion]
  split
  · exact h.opened.before (by decide)
  · next hu => exact h dot fun hd => hdot hd (Bool.eq_false_iff.mpr hu)

theorem intersection (h : ∀ t ∈ ts, Agrees f s old new t) :
    Agrees f s old new (.intersection ts) := by
  intro dot hdot
  rw [TypeExpr.rename, Scope.type, Scope.type, TypeExpr.renameAll_eq, Scope.operands_eq,
    Scope.operands_eq]
  have hoperand : ∀ t ∈ ts, s.Exchanges false (old.operand t) (new.operand (t.rename f)) :=
    fun t ht => (h t ht).operand fun hd => by cases hd
  cases ts with
  | nil =>
    have hstill : Still "" := by decide
    exact Swap.Exchanges.still hstill
  | cons t ts =>
    refine Swap.Exchanges.joined_cons (by decide) (by decide)
      ((h t List.mem_cons_self).operand fun hd hu => ?_) (hoperand t List.mem_cons_self) ?_
    · have hleading := hdot hd
      rw [Scope.leading?, Scope.leadingOperand?, hu] at hleading
      exact hleading
    · rw [List.map_map]
      exact Swap.Exchanges.map fun u hu => hoperand u (List.mem_cons_of_mem _ hu)

end Agrees

namespace Renaming
variable {known : String → Prop} {f : String → String} {s : Swap} {old new : Scope}
  (h : Renaming known f s old new)
include h

theorem agrees_object {ms : List Member} {a : Option Additional} (ht : Fits known (.object ms a))
    (hms : ∀ m ∈ ms, Agrees f s old new m.type) (ha : ∀ t, a = some (.of t) → Agrees f s old new t) :
    Agrees f s old new (.object ms a) := by
  intro dot hdot
  have hfind := h.find _ ht
  have hfurther : Option.Rel (s.Exchanges false) (old.furtherValue a)
      (new.furtherValue (TypeExpr.renameAdditional f a)) := by
    have hstill : Still "unknown" := by decide
    rcases a with _ | _ | _ | t
    · exact .none
    · exact .some (Swap.Exchanges.still hstill)
    · exact .none
    · exact .some (ha t rfl).plain
  rw [Scope.leading?] at hdot
  rw [TypeExpr.rename, TypeExpr.renameMembers_eq] at hfind ⊢
  rw [Scope.type, Scope.type, hfind]
  cases hname : old.index.find? (.object ms a) with
  | some name =>
    rw [hname] at hdot
    exact h.exchanges_name (h.found _ name hname) fun hd => hdot hd name rfl
  | none =>
    rw [List.isEmpty_map]
    dsimp only [Option.map_none]
    split
    · exact h.exchanges_recordType (fun t hat => ht.child t (by
        subst hat
        exact TypeExpr.mem_children_additional)) hfurther
    · rw [Scope.memberTypes_eq, Scope.memberTypes_eq, List.map_map]
      refine Swap.Exchanges.objectType (TypeExpr.forall₂_map (List.forall₂_same.mpr fun _ _ => rfl)
        fun m hm n hmn => ?_) hfurther
      subst hmn
      exact ⟨(hms m hm).plain, exchanges_member m _ (hms m hm).plain⟩

/-- Renaming the text of a type comes to the same as writing the renamed type. -/
theorem agrees {t : TypeExpr} (ht : t.Fits known) (hs : t.All (old.Steady f)) :
    Agrees f s old new t := by
  induction t using TypeExpr.induct with
  | step t ih =>
    have hchild : ∀ c ∈ t.children, Agrees f s old new c := fun c hc =>
      ih c hc (ht.child c hc) (hs.child c hc)
    cases t with
    | ref name => exact fun dot hdot => h.exchanges_name ht.here.2 fun hd => hdot hd name rfl
    | primitive kind format =>
      have hstill : ∀ kind, Still (primitive kind) := fun kind => by cases kind <;> decide
      exact fun dot _ => Swap.Exchanges.still (hstill kind)
    | binary => exact fun dot _ => h.exchanges_builtin (by decide) (by decide)
    | const v => exact fun dot _ => Swap.Exchanges.still (still_literal v)
    | enum vs => exact fun dot _ => exchanges_literals vs
    | array item => exact (hchild item TypeExpr.mem_children_array).array
    | tuple elements rest =>
      exact Agrees.tuple (fun e he => hchild e (TypeExpr.mem_children_element he))
        (fun r hr => hchild r (TypeExpr.mem_children_rest hr)) hs.here
    | object members additional =>
      refine h.agrees_object ht (fun m hm => hchild _ (TypeExpr.mem_children_member hm)) ?_
      rintro t rfl
      exact hchild t TypeExpr.mem_children_additional
    | union variants d => exact Agrees.union hchild
    | intersection members => exact Agrees.intersection hchild
    | unknown =>
      have hstill : Still "unknown" := by decide
      exact fun dot _ => Swap.Exchanges.still hstill

end Renaming
end TypedApi.TypeScript
