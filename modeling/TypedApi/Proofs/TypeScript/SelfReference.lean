import TypedApi.Proofs.Api.Recognition
import TypedApi.Proofs.TypeScript.Comment
import TypedApi.Proofs.TypeScript.Mentions

/-! Components that refer to themselves.

A type may refer to itself through the members of an object, but not through the arguments of
`Record`. So an object that only has a type for all of its members is written with `Record` where
the text of that type names no component, and with an index signature elsewhere. Whether a text
names a component is asked of the type and not of the text, and the answers are the same
(`guarded`): a type that refers to a component has its name in the text, and what stands in the
text of any other type comes from no component. -/
namespace TypedApi.TypeScript

/-! ### Texts in texts -/

/-- A text stands in another one. -/
def StandsIn (part text : String) : Prop := part.toList <:+: text.toList

namespace StandsIn
variable {a b c text sep : String} {parts : List String}

theorem refl (a : String) : StandsIn a a := List.infix_rfl

theorem trans (h : StandsIn a b) (h' : StandsIn b c) : StandsIn a c := List.IsInfix.trans h h'

theorem before (h : StandsIn a b) (c : String) : StandsIn a (b ++ c) := by
  rw [StandsIn, String.toList_append]
  exact List.IsInfix.trans h (List.prefix_append _ _).isInfix

theorem behind (h : StandsIn a b) (c : String) : StandsIn a (c ++ b) := by
  rw [StandsIn, String.toList_append]
  exact List.IsInfix.trans h (List.suffix_append _ _).isInfix

theorem intercalate (h : a ∈ parts) : StandsIn a (String.intercalate sep parts) := by
  rw [StandsIn, String.toList_intercalate]
  exact infix_intercalate (List.mem_map_of_mem h)

/-- A part that is written once still stands in the text. -/
theorem joined (h : a ∈ parts) : StandsIn a (TypeScript.joined sep parts) :=
  intercalate (List.mem_eraseDups.mpr h)

theorem braces (h : a ∈ parts) : StandsIn a (TypeScript.braces parts) :=
  ((intercalate h).behind _).before _

theorem arrayOf (t : TypeExpr) (text : String) : StandsIn text (TypeScript.arrayOf t text) := by
  unfold TypeScript.arrayOf
  split
  · exact ((refl text).behind _).before _
  · exact (refl text).before _

theorem join (h : a ∈ parts) : StandsIn a (String.join parts) := by
  rw [StandsIn, String.toList_join]
  exact List.infix_of_mem_flatten (List.mem_map_of_mem h)

theorem interface (h : a ∈ parts) (name : String) : StandsIn a (Scope.interface name parts) :=
  ((join h).behind _).before _

end StandsIn

namespace Scope

/-- A type is written out in the text of another one. What is inside an object is not if the object
is written as a component. -/
inductive WrittenIn (s : Scope) (u : TypeExpr) : TypeExpr → Prop where
  | self : WrittenIn s u u
  | child {t c : TypeExpr} (h : s.index.find? t = none) (hc : c ∈ t.children)
    (hu : WrittenIn s u c) : WrittenIn s u t

/-- A type is written out in the declaration of another one. An object is declared by its members,
whether or not it is a component itself. -/
inductive DeclaredIn (s : Scope) (u : TypeExpr) : TypeExpr → Prop where
  | member {t c : TypeExpr} (ht : t.isObject = true) (hc : c ∈ t.children) (hu : s.WrittenIn u c) :
    DeclaredIn s u t
  | named {t : TypeExpr} (ht : t.isObject = false) (hu : s.WrittenIn u t) : DeclaredIn s u t

variable {s : Scope} {t u c : TypeExpr}

/-! ### What is written out stands in the text -/

theorem standsIn_further (value : String) (types : List String) :
    StandsIn value (furtherType value types) := by
  unfold furtherType
  split
  · exact .refl value
  · exact .joined List.mem_cons_self

/-- The child of an object that is not the type of a member. -/
theorem additional_of_mem {a : Option Additional} (h : c ∈ (a.bind Additional.type?).toList) :
    a = some (.of c) := by
  rcases a with _ | _ | _ | v
  · cases h
  · cases h
  · cases h
  · obtain rfl := List.mem_singleton.mp h
    rfl

/-- The text of a type holds the texts of the types in it. -/
theorem standsIn_child (h : s.index.find? t = none) (hc : c ∈ t.children) :
    StandsIn (s.type c) (s.type t) := by
  cases t with
  | array item =>
    obtain rfl := List.mem_singleton.mp hc
    exact .arrayOf c _
  | tuple elements rest =>
    have hpart : ∃ part ∈ s.types elements ++ s.restType rest, StandsIn (s.type c) part := by
      rcases List.mem_append.mp hc with hc | hc
      · refine ⟨_, List.mem_append_left _ ?_, .refl _⟩
        rw [types_eq]
        exact List.mem_map_of_mem hc
      · obtain rfl := Option.mem_toList.mp hc
        exact ⟨_, List.mem_append_right _ (List.mem_singleton_self _),
          (StandsIn.arrayOf c _).behind _⟩
    obtain ⟨part, hpart, hin⟩ := hpart
    exact hin.trans (((StandsIn.intercalate hpart).behind _).before _)
  | object ms a =>
    rw [type, h]
    dsimp only
    rcases List.mem_append.mp hc with hc | hc
    · obtain ⟨m, hm, rfl⟩ := List.mem_map.mp hc
      rw [if_neg (by simpa using List.ne_nil_of_mem hm), memberTypes_eq]
      unfold objectType
      dsimp only
      rw [List.map_map]
      refine .trans ?_ (.braces (List.mem_append_left _ (List.mem_map_of_mem hm)))
      exact (StandsIn.refl _).behind _
    · obtain rfl := additional_of_mem hc
      split
      · rw [furtherValue, recordType]
        split
        · exact .trans ((StandsIn.refl _).behind _) (.braces (List.mem_singleton_self _))
        · exact ((StandsIn.refl _).behind _).before _
      · exact .trans ((standsIn_further _ _).behind "[key: string]: ")
          (.braces (List.mem_append_right _ (List.mem_singleton_self _)))
  | union variants d =>
    have hvariant : c ∈ variants := hc
    rw [type, types_eq, alternatives, if_neg (by simpa using List.ne_nil_of_mem hvariant)]
    exact .joined (List.mem_map_of_mem hc)
  | intersection members =>
    have hoperand : StandsIn (s.type c) (s.operand c) := by
      unfold operand
      split
      · exact ((StandsIn.refl _).behind _).before _
      · exact .refl _
    rw [type, operands_eq]
    exact hoperand.trans (.joined (List.mem_map_of_mem hc))
  | _ => cases hc

theorem WrittenIn.standsIn (h : s.WrittenIn u t) : StandsIn (s.type u) (s.type t) := by
  induction h with
  | self => exact .refl _
  | child h hc _ ih => exact ih.trans (standsIn_child h hc)

theorem DeclaredIn.standsIn {component : Api.Component} (h : s.DeclaredIn u component.type)
    (name : String) : StandsIn (s.type u) (s.declaration name component) := by
  refine .behind ?_ _
  cases h with
  | named ht hu =>
    have hdeclared : s.typeDeclaration name component.type =
        "export type " ++ name ++ " = " ++ s.type component.type ++ ";\n" := by
      generalize component.type = t at ht
      cases t <;> first | rfl | cases ht
    rw [hdeclared]
    exact (hu.standsIn.behind _).before _
  | member ht hc hu =>
    refine hu.standsIn.trans ?_
    generalize component.type = t at ht hc
    cases t with
    | object ms a =>
      rcases List.mem_append.mp hc with hc | hc
      · obtain ⟨m, hm, rfl⟩ := List.mem_map.mp hc
        obtain ⟨first, rest, rfl⟩ := List.exists_cons_of_ne_nil (List.ne_nil_of_mem hm)
        refine .trans ?_ (.interface (List.mem_append_left _ (List.mem_map_of_mem hm)) name)
        exact ((StandsIn.refl _).behind _).before _
      · obtain rfl := additional_of_mem hc
        have hfurther : ∀ value, StandsIn value (furtherDeclaration value) := fun value =>
          ((StandsIn.refl value).behind _).before _
        cases ms with
        | nil => exact (hfurther _).trans (.interface (List.mem_singleton_self _) name)
        | cons m ms =>
          exact (standsIn_further _ _).trans ((hfurther _).trans
            (.interface (List.mem_append_right _ (List.mem_singleton_self _)) name))
    | _ => cases ht

/-! ### Names of components -/

/-- The name of a component that is mentioned stands in the text. -/
theorem Mentions.standsIn {name : String} (h : s.Mentions name t) : StandsIn name (s.type t) := by
  induction h with
  | ref => exact .refl _
  | found h => exact Api.type_of_find? s h ▸ .refl _
  | child h hc _ ih => exact ih.trans (standsIn_child h hc)

theorem refersToComponent_iff_mentions (s : Scope) (t : TypeExpr) :
    s.refersToComponent t = true ↔ ∃ name, s.Mentions name t := by
  induction t using TypeExpr.induct with
  | step t ih =>
    rw [refersToComponent_iff]
    constructor
    · rintro (href | hfound | ⟨c, hc, hrefers⟩)
      · cases t with
        | ref name => exact ⟨name, .ref⟩
        | _ => cases href
      · obtain ⟨name, hname⟩ := Option.isSome_iff_exists.mp hfound
        exact ⟨name, .found hname⟩
      · -- A component that is written in place of the type is mentioned instead of what is inside.
        cases hfind : s.index.find? t with
        | some name => exact ⟨name, .found hfind⟩
        | none =>
          obtain ⟨name, hname⟩ := (ih c hc).mp hrefers
          exact ⟨name, .child hfind hc hname⟩
    · rintro ⟨name, h⟩
      cases h with
      | ref => exact .inl rfl
      | found h => exact .inr (.inl (Option.isSome_iff_exists.mpr ⟨name, h⟩))
      | child _ hc h => exact .inr (.inr ⟨_, hc, (ih _ hc).mpr ⟨name, h⟩⟩)

/-- The scope without its components. -/
def bare (s : Scope) : Scope := { s with index := {} }

theorem find?_bare (s : Scope) (t : TypeExpr) : s.bare.index.find? t = none := by
  rw [Api.Index.find?]
  split <;> rfl

/-- Nothing in the type is a reference or written as a component. -/
def Unnamed (s : Scope) : TypeExpr → Prop :=
  TypeExpr.All fun u => u.isRef = false ∧ s.index.find? u = none

theorem unnamed_of_unmentioned (h : ∀ name, ¬ s.Mentions name t) : s.Unnamed t := by
  induction t using TypeExpr.induct with
  | step t ih =>
    have hfind : s.index.find? t = none :=
      Option.eq_none_iff_forall_ne_some.mpr fun name hname => h name (.found hname)
    have href : t.isRef = false := by
      cases t with
      | ref name => exact absurd .ref (h name)
      | _ => rfl
    exact .intro ⟨href, hfind⟩ fun c hc => ih c hc fun name hname => h name (.child hfind hc hname)

theorem Unnamed.bare (h : s.Unnamed t) : s.bare.Unnamed t :=
  h.imp fun u hu => ⟨hu.1, s.find?_bare u⟩

theorem Unnamed.refersToComponent_eq (h : s.Unnamed t) : s.refersToComponent t = false := by
  induction h with
  | intro h _ ih =>
    rw [← Bool.not_eq_true, refersToComponent_iff, h.1, h.2]
    rintro (href | hfound | ⟨c, hc, hrefers⟩)
    · cases href
    · cases hfound
    · rw [ih c hc] at hrefers
      cases hrefers

/-- The text is what it is without any components. -/
theorem Unnamed.type_bare (h : s.Unnamed t) : s.bare.type t = s.type t := by
  induction h with
  | @intro t h hc ih =>
    cases t with
    | ref name => cases h.1
    | array item =>
      rw [type, type, ih item TypeExpr.mem_children_array]
    | tuple elements rest =>
      have helements : elements.map s.bare.type = elements.map s.type :=
        List.map_congr_left fun e he => ih e (TypeExpr.mem_children_element he)
      have hrest : s.bare.restType rest = s.restType rest := by
        cases rest with
        | none => rfl
        | some r => rw [restType, restType, ih r (TypeExpr.mem_children_rest rfl)]
      rw [type, type, types_eq, types_eq, helements, hrest]
    | object ms a =>
      have hmembers : s.bare.memberTypes ms = s.memberTypes ms := by
        rw [memberTypes_eq, memberTypes_eq]
        exact List.map_congr_left fun m hm => by rw [ih _ (TypeExpr.mem_children_member hm)]
      have hfurther : s.bare.furtherValue a = s.furtherValue a ∧
          ∀ value, s.bare.recordType a value = s.recordType a value := by
        rcases a with _ | _ | _ | v
        · exact ⟨rfl, fun _ => rfl⟩
        · exact ⟨rfl, fun _ => rfl⟩
        · exact ⟨rfl, fun _ => rfl⟩
        · have hv : s.Unnamed v := hc v TypeExpr.mem_children_additional
          refine ⟨congrArg some (ih v TypeExpr.mem_children_additional), fun value => ?_⟩
          cases value with
          | none => rfl
          | some value =>
            rw [recordType, recordType, hv.refersToComponent_eq, hv.bare.refersToComponent_eq]
      rw [type, type, h.2, find?_bare, hmembers, hfurther.1, hfurther.2]
    | union variants d =>
      have hvariants : variants.map s.bare.type = variants.map s.type := List.map_congr_left ih
      rw [type, type, types_eq, types_eq, hvariants]
    | intersection members =>
      have hmembers : members.map s.bare.operand = members.map s.operand :=
        List.map_congr_left fun m hm => by rw [operand, operand, ih m hm]
      rw [type, type, operands_eq, operands_eq, hmembers]
    | _ => rfl

/-! ### Objects that only have a type for all of their members -/

/-- In the texts of a scope no type refers to itself through `Record`. -/
structure Guarded (s : Scope) : Prop where
  /-- The answers about the type are those about its text. -/
  refers : ∀ t, s.refersToComponent t = true ↔ ∃ name, s.Mentions name t
  named : ∀ t name, s.Mentions name t → StandsIn name (s.type t)
  unnamed : ∀ t, (∀ name, ¬ s.Mentions name t) → s.Unnamed t ∧ s.bare.type t = s.type t
  signature : ∀ v name, s.Mentions name v →
    s.type (.object [] (some (.of v))) = braces ["[key: string]: " ++ s.type v]
  record : ∀ v, (∀ name, ¬ s.Mentions name v) →
    s.type (.object [] (some (.of v))) = "Record<string, " ++ s.type v ++ ">"
  inline : ∀ t u, s.WrittenIn u t → StandsIn (s.type u) (s.type t)
  declared : ∀ name (component : Api.Component) u, s.DeclaredIn u component.type →
    StandsIn (s.type u) (s.declaration name component)
  /-- The declaration of such an object is an interface, whatever the type names. -/
  body : ∀ name (component : Api.Component) v, component.type = .object [] (some (.of v)) →
    s.declaration name component = summary component.title component.description "" ++
      interface name [furtherDeclaration (s.type v)]

theorem type_indexed (s : Scope) (v : TypeExpr) :
    s.type (.object [] (some (.of v))) = if s.refersToComponent v then
      braces ["[key: string]: " ++ s.type v] else "Record<string, " ++ s.type v ++ ">" := by
  rw [type, s.find?_of_hasMembers rfl]
  rfl

/-- No scope lets a type refer to itself through `Record`. -/
theorem guarded (s : Scope) : s.Guarded where
  refers := s.refersToComponent_iff_mentions
  named _ _ h := h.standsIn
  unnamed _ h := ⟨unnamed_of_unmentioned h, (unnamed_of_unmentioned h).type_bare⟩
  signature v name h := by
    rw [type_indexed, (s.refersToComponent_iff_mentions v).mpr ⟨name, h⟩, if_pos rfl]
  record v h := by
    rw [type_indexed, (unnamed_of_unmentioned h).refersToComponent_eq, if_neg Bool.false_ne_true]
  inline _ _ h := h.standsIn
  declared name _ _ h := h.standsIn name
  body name component v h := by rw [declaration, h]; rfl

example : ({} : Scope).type (.object [] (some (.of (.array (.ref "User"))))) =
    "\x7b [key: string]: User[] \x7d" := rfl

end Scope
end TypedApi.TypeScript
