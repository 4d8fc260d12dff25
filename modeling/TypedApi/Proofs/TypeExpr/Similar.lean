import Mathlib.Data.List.Forall2
import TypedApi.Proofs.TypeExpr.Structure

/-! Types of the same structure.

Two types are similar if they differ only in the order of the members of objects, in
descriptions, in marks for reading only and in the names of discriminators. -/
namespace TypedApi.TypeExpr

mutual
inductive Similar : TypeExpr → TypeExpr → Prop where
  | ref (name : String) : Similar (.ref name) (.ref name)
  | primitive (kind : Primitive) (format : Option String) :
    Similar (.primitive kind format) (.primitive kind format)
  | binary : Similar .binary .binary
  | const (v : Json) : Similar (.const v) (.const v)
  | enum (vs : List Json) : Similar (.enum vs) (.enum vs)
  | array {t u : TypeExpr} (item : Similar t u) : Similar (.array t) (.array u)
  | tuple {ts us : List TypeExpr} {r s : Option TypeExpr} (elements : List.Forall₂ Similar ts us)
      (rest : Option.Rel Similar r s) : Similar (.tuple ts r) (.tuple us s)
  /-- Each member has one of the same name and structure; their order is free. -/
  | object {ms ms' ns : List Member} {a b : Option Additional} (order : ms.Perm ms')
      (members : List.Forall₂ SimilarMember ms' ns) (additional : SimilarAdditional a b) :
    Similar (.object ms a) (.object ns b)
  | union {ts us : List TypeExpr} (variants : List.Forall₂ Similar ts us) (d e : Option String) :
    Similar (.union ts d) (.union us e)
  | intersection {ts us : List TypeExpr} (members : List.Forall₂ Similar ts us) :
    Similar (.intersection ts) (.intersection us)
  | unknown : Similar .unknown .unknown

inductive SimilarMember : Member → Member → Prop where
  | intro {m n : Member} (name : m.name = n.name) (required : m.required = n.required)
      (type : Similar m.type n.type) : SimilarMember m n

inductive SimilarAdditional : Option Additional → Option Additional → Prop where
  | none : SimilarAdditional none none
  | any : SimilarAdditional (some .any) (some .any)
  | forbidden : SimilarAdditional (some .forbidden) (some .forbidden)
  | of {t u : TypeExpr} (type : Similar t u) : SimilarAdditional (some (.of t)) (some (.of u))
end

theorem Similar.refl (t : TypeExpr) : Similar t t := by
  induction t using induct with
  | step t ih =>
    cases t with
    | ref name => exact .ref name
    | primitive kind format => exact .primitive kind format
    | binary => exact .binary
    | const v => exact .const v
    | enum vs => exact .enum vs
    | array item => exact .array (ih item mem_children_array)
    | tuple elements rest =>
      refine .tuple (List.forall₂_same.mpr fun e he => ih e (mem_children_element he)) ?_
      cases rest with
      | none => exact .none
      | some r => exact .some (ih r (mem_children_rest rfl))
    | object members additional =>
      refine .object (.refl _) (List.forall₂_same.mpr fun m hm =>
        .intro rfl rfl (ih m.type (mem_children_member hm))) ?_
      rcases additional with _ | _ | _ | u
      · exact .none
      · exact .any
      · exact .forbidden
      · exact .of (ih u mem_children_additional)
    | union variants d => exact .union (List.forall₂_same.mpr ih) d d
    | intersection members => exact .intersection (List.forall₂_same.mpr ih)
    | unknown => exact .unknown

/-- Similar types both have members, or none has. -/
theorem Similar.hasMembers {t u : TypeExpr} (h : Similar t u) : t.hasMembers = u.hasMembers := by
  cases h with
  | @object ms _ ns _ _ order members _ =>
    have hlength : ms.length = ns.length := order.length_eq.trans members.length_eq
    cases ms <;> cases ns <;> first | rfl | cases hlength
  | _ => rfl

end TypedApi.TypeExpr
