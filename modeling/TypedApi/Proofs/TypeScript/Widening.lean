import Mathlib.Data.List.Nodup
import TypedApi.Proofs.TypeScript.Comment
import TypedApi.Proofs.TypeScript.Meaning
import TypedApi.Proofs.TypeScript.Mentions

/-! The type of further members.

An object with declared members that says of which type all others are has an index signature, and
what is declared has to fit it. So the signature is a union that takes in the types of the declared
members (`widens_further`). A declared member that may be missing is `undefined` as well, though,
and no alternative is `undefined` unless a component has this name: such a member fits the signature
only where the type of all others is unknown (`unfit_further`). -/
namespace TypedApi.TypeScript
namespace Scope

/-! ### Alternatives -/

/-- A text is one of the alternatives of a type. Those of a union are those of its variants. -/
inductive Offers (s : Scope) (x : String) : TypeExpr → Prop where
  | whole {t : TypeExpr} (h : s.type t = x) : Offers s x t
  | literal {vs : List Json} {v : Json} (hv : v ∈ vs) (h : TypeScript.literal v = x) :
    Offers s x (.enum vs)
  | variant {ts : List TypeExpr} {d : Option String} {u : TypeExpr} (hu : u ∈ ts)
    (h : Offers s x u) : Offers s x (.union ts d)

/-- Alternatives admit a declared member: its type is one of them, and so is `undefined` if the
member may be missing. -/
def Admits (s : Scope) (alternatives : List String) (m : Member) : Prop :=
  s.type m.type ∈ alternatives ∧ (m.required = false → "undefined" ∈ alternatives)

/-- What is written for the further members of an object that declares members too. -/
structure Widens (s : Scope) (ms : List Member) (t : TypeExpr) (further : String)
    (alternatives : List String) : Prop where
  declared : ∀ name, s.typeDeclaration name (.object ms (some (.of t))) =
    interface name (ms.map s.memberDeclaration ++ [furtherDeclaration further])
  inline : s.index.find? (.object ms (some (.of t))) = none →
    s.type (.object ms (some (.of t))) = braces
      ((ms.map fun m => memberHead m ++ ": " ++ s.type m.type) ++ ["[key: string]: " ++ further])
  unknown : s.type t = "unknown" → further = "unknown"
  union : s.type t ≠ "unknown" → further = String.intercalate " | " alternatives
  /-- Each alternative is written once, at the first place where it comes up. -/
  once : alternatives.Nodup ∧ Dropped (s.type t :: ms.map fun m => s.type m.type) alternatives
  types : ∀ m ∈ ms, s.type m.type ∈ alternatives
  admits : (∀ m ∈ ms, s.Admits alternatives m) ↔
    (∀ m ∈ ms, m.required = true) ∨ "undefined" ∈ alternatives
  /-- Nothing is `undefined`, at any depth of unions, but a component of this name. -/
  missing : (∃ u ∈ t :: ms.map Member.type, s.Offers "undefined" u) →
    ∃ u ∈ t :: ms.map Member.type, s.Mentions "undefined" u

end Scope

/-! ### Texts that are `undefined` -/

theorem nodup_eraseDups (xs : List String) : xs.eraseDups.Nodup := by
  induction xs using List.reverseRecOn with
  | nil => exact List.nodup_nil
  | append_singleton xs x ih =>
    rw [Json.eraseDups_append_singleton]
    split
    · exact ih
    · next hx =>
      rw [← List.concat_eq_append]
      exact List.Nodup.concat (mt List.mem_eraseDups.mp hx) ih

/-- A text without blanks that is joined from parts is one of them. -/
theorem mem_of_joined {sep x : String} {parts : List String} (hsep : ' ' ∈ sep.toList)
    (hx : ' ' ∉ x.toList) (hne : x ≠ "") (h : joined sep parts = x) : x ∈ parts := by
  have hmem : ∀ y ∈ parts.eraseDups, y ∈ parts := fun y hy => List.mem_eraseDups.mp hy
  rw [joined] at h
  rcases hparts : parts.eraseDups with _ | ⟨y, _ | ⟨z, zs⟩⟩
  · rw [hparts] at h
    exact absurd h.symm hne
  · rw [hparts, String.intercalate_singleton] at h
    exact h ▸ hmem y (hparts ▸ List.mem_cons_self)
  · rw [hparts, String.intercalate_cons_of_ne_nil (List.cons_ne_nil z zs)] at h
    refine absurd ?_ hx
    rw [← h, String.toList_append, String.toList_append]
    exact List.mem_append_left _ (List.mem_append_right _ hsep)

/-- A text that ends with another mark than a word is not the word. -/
theorem append_ne {x more w : String} (h : more.toList.getLast? ≠ w.toList.getLast?)
    (hmore : more ≠ "") : x ++ more ≠ w := by
  rintro rfl
  refine h ?_
  have hlist : more.toList ≠ [] := by simpa using hmore
  rw [String.toList_append, List.getLast?_append_of_ne_nil _ hlist]

theorem literal_ne_undefined (v : Json) : literal v ≠ "undefined" := by
  cases v with
  | null => decide
  | bool b => cases b <;> decide
  | num n =>
    -- No letter but the mark of an exponent stands in a number.
    have hletter : ∀ c ∈ n.render, c ≠ 'u' := by
      refine Json.Number.forall_mem_render (fun c hc => ?_) (Json.forall_mem_of_all (by decide)) n
      rintro rfl
      exact absurd hc (by decide)
    intro h
    have htext := toList_literal n
    rw [h] at htext
    exact hletter 'u' (htext ▸ by decide) rfl
  | str x => exact append_ne (by decide) (by decide)
  | arr items => exact fun h => absurd (show "unknown" = "undefined" from h) (by decide)
  | obj members => exact fun h => absurd (show "unknown" = "undefined" from h) (by decide)

namespace Scope
variable {s : Scope}

theorem builtin_ne_undefined : s.builtin "Blob" ≠ "undefined" := by
  rw [builtin]
  split <;> decide

theorem recordType_ne_undefined (a : Option Additional) (value : Option String) :
    s.recordType a value ≠ "undefined" := by
  unfold recordType
  split
  · decide
  · split
    · exact append_ne (by decide) (by decide)
    · exact append_ne (by decide) (by decide)
  · decide

/-- Only a component is written as `undefined`. -/
theorem mentions_of_type_eq {t : TypeExpr} (h : s.type t = "undefined") :
    s.Mentions "undefined" t := by
  induction t using TypeExpr.induct with
  | step t ih =>
    have hpart : ∀ c ∈ t.children, t.hasMembers = false → s.type c = "undefined" →
        s.Mentions "undefined" t := fun c hc hm hchild =>
      .child (s.find?_of_hasMembers hm) hc (ih c hc hchild)
    cases t with
    | ref name =>
      rw [type] at h
      exact h ▸ .ref
    | primitive kind format =>
      have hkeyword : ∀ kind, primitive kind ≠ "undefined" := by
        intro kind
        cases kind <;> decide
      exact absurd h (hkeyword kind)
    | binary => exact absurd h builtin_ne_undefined
    | const v => exact absurd h (literal_ne_undefined v)
    | enum vs =>
      rw [type, alternatives] at h
      split at h
      · exact absurd h (by decide)
      · obtain ⟨v, -, hv⟩ := List.mem_map.mp
          (mem_of_joined (by decide) (by decide) (by decide) h)
        exact absurd hv (literal_ne_undefined v)
    | array item =>
      rw [type, arrayOf] at h
      split at h
      · exact absurd h (append_ne (by decide) (by decide))
      · exact absurd h (append_ne (by decide) (by decide))
    | tuple elements rest => exact absurd h (append_ne (by decide) (by decide))
    | object ms a =>
      cases hfind : s.index.find? (.object ms a) with
      | some name =>
        rw [type, hfind] at h
        exact .found (h ▸ hfind)
      | none =>
        rw [type, hfind] at h
        dsimp only at h
        split at h
        · exact absurd h (recordType_ne_undefined _ _)
        · exact absurd h (append_ne (by decide) (by decide))
    | union ts d =>
      rw [type, alternatives] at h
      split at h
      · exact absurd h (by decide)
      · have hmem := mem_of_joined (by decide) (by decide) (by decide) h
        rw [types_eq] at hmem
        obtain ⟨u, hu, hvariant⟩ := List.mem_map.mp hmem
        exact hpart u hu rfl hvariant
    | intersection ts =>
      rw [type] at h
      have hmem := mem_of_joined (by decide) (by decide) (by decide) h
      rw [operands_eq] at hmem
      obtain ⟨u, hu, hoperand⟩ := List.mem_map.mp hmem
      rw [operand] at hoperand
      split at hoperand
      · exact absurd hoperand (append_ne (by decide) (by decide))
      · exact hpart u hu rfl hoperand
    | unknown =>
      rw [type] at h
      exact absurd h (by decide)

theorem mentions_of_offers {t : TypeExpr} (h : s.Offers "undefined" t) :
    s.Mentions "undefined" t := by
  induction h with
  | whole h => exact mentions_of_type_eq h
  | literal _ h => exact absurd h (literal_ne_undefined _)
  | variant hu _ ih => exact .child (s.find?_of_hasMembers rfl) hu ih

/-! ### Further members -/

theorem admits_iff {ms : List Member} {xs : List String} (h : ∀ m ∈ ms, s.type m.type ∈ xs) :
    (∀ m ∈ ms, s.Admits xs m) ↔ (∀ m ∈ ms, m.required = true) ∨ "undefined" ∈ xs := by
  by_cases hmissing : "undefined" ∈ xs
  · exact iff_of_true (fun m hm => ⟨h m hm, fun _ => hmissing⟩) (.inr hmissing)
  · rw [or_iff_left hmissing]
    refine forall₂_congr fun m hm => ⟨fun hadmits => ?_, fun hrequired => ⟨h m hm, ?_⟩⟩
    · exact Bool.not_eq_false _ ▸ mt hadmits.2 hmissing
    · rw [hrequired]
      exact fun hfalse => by cases hfalse

/-- The type of further members takes in the types of all declared ones, but nothing for those that
may be missing. -/
theorem widens_further (s : Scope) (m : Member) (ms : List Member) (t : TypeExpr) :
    ∃ further alternatives, s.Widens (m :: ms) t further alternatives := by
  let types := (m :: ms).map fun m => s.type m.type
  have htypes : ∀ member ∈ m :: ms, s.type member.type ∈ (s.type t :: types).eraseDups :=
    fun member hmember => List.mem_eraseDups.mpr
      (List.mem_cons_of_mem _ (List.mem_map_of_mem (f := fun m : Member => s.type m.type) hmember))
  have hdropped := dropped_eraseDups id (s.type t :: types)
  rw [List.map_id, List.map_id] at hdropped
  refine ⟨furtherType (s.type t) types, (s.type t :: types).eraseDups, ?_⟩
  exact {
    declared := fun name => rfl
    inline := fun hfind => by
      rw [type, hfind, memberTypes_eq]
      simp [objectType, furtherValue, types, List.map_map, Function.comp_def]
    unknown := fun h => by rw [furtherType, h]; rfl
    union := fun h => by
      rw [furtherType, if_neg (by simp [h, types]), joined]
    once := ⟨nodup_eraseDups _, hdropped⟩
    types := htypes
    admits := admits_iff htypes
    missing := by
      rintro ⟨u, hu, h⟩
      exact ⟨u, hu, mentions_of_offers h⟩ }

end Scope

/-! ### A member that may be missing -/

def nickname : Member := { name := "nickname", type := .string }

/-- An object that may have a nickname, and whose other members are whole numbers. -/
def scores : TypeExpr := .object [nickname] (some (.of (.primitive .integer none)))

/-- The nickname may be `undefined`, but however the type of further members is taken apart, no
alternative is. -/
theorem unfit_further :
    ({} : Scope).typeDeclaration "Scores" scores =
        "export interface Scores \x7b\n  nickname?: string;\n  [key: string]: number | string;\n\x7d\n" ∧
      ({} : Scope).type scores = "\x7b nickname?: string; [key: string]: number | string \x7d" ∧
      ∀ alternatives, String.intercalate " | " alternatives = "number | string" →
        ¬ ({} : Scope).Admits alternatives nickname := by
  refine ⟨rfl, rfl, fun alternatives h hadmits => ?_⟩
  have hmissing : "undefined" ∈ alternatives := hadmits.2 rfl
  have hwithin : "undefined".toList <:+: "number | string".toList := by
    rw [← h, String.toList_intercalate]
    exact infix_intercalate (List.mem_map_of_mem hmissing)
  have hletter : 'f' ∈ "number | string".toList := hwithin.subset (by decide)
  exact absurd hletter (by decide)

end TypedApi.TypeScript
