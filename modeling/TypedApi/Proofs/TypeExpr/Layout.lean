import Mathlib.Data.List.Perm.Basic
import TypedApi.Proofs.TypeExpr.Similar

/-! The text of a type from the texts of its children.

A text with names to abridge by (`abridged`) and a plain one (`fingerprint`) put the texts of the
children together in the same way, the `layout` of the type, and differ only in these texts. Hence
similar types have the same text, whatever the names. -/
namespace TypedApi.TypeExpr

def memberText (text : TypeExpr → String) (m : Member) : String :=
  m.name ++ (if m.required then "!" else "?") ++ ":" ++ text m.type

def additionalText (text : TypeExpr → String) : Option Additional → String
  | none => ""
  | some .any => "|*"
  | some .forbidden => "|closed"
  | some (.of t) => "|*:" ++ text t

/-- The text of a type in which each child has the given text. -/
def layout (text : TypeExpr → String) : TypeExpr → String
  | .ref name => "$" ++ name
  | .primitive kind none => kind.name
  | .primitive kind (some format) => kind.name ++ "(" ++ format ++ ")"
  | .binary => "binary"
  | .const v => "const(" ++ v.compact ++ ")"
  | .enum vs => "enum(" ++ commas (vs.map Json.compact) ++ ")"
  | .array item => "[" ++ text item ++ "]"
  | .tuple elements rest =>
    "tuple(" ++ commas (elements.map text ++ rest.toList.map fun t => "..." ++ text t) ++ ")"
  | .object members additional =>
    "\x7b" ++ commas (sorted (members.map (memberText text))) ++ additionalText text additional ++
      "\x7d"
  | .union variants _ => "anyOf(" ++ commas (variants.map text) ++ ")"
  | .intersection members => "allOf(" ++ commas (members.map text) ++ ")"
  | .unknown => "unknown"

/-- Only the texts of the children show, not the children themselves. -/
theorem layout_mapChildren {text text' : TypeExpr → String} {f : TypeExpr → TypeExpr} {t : TypeExpr}
    (h : ∀ c ∈ t.children, text c = text' (f c)) : layout text t = layout text' (t.mapChildren f) := by
  cases t with
  | primitive kind format => cases format <;> rfl
  | array item => rw [mapChildren, layout, layout, h item mem_children_array]
  | tuple elements rest =>
    have helements : elements.map text = (elements.map f).map text' := by
      rw [List.map_map]
      exact List.map_congr_left fun e he => h e (mem_children_element he)
    cases rest with
    | none => rw [mapChildren, layout, layout, helements]; rfl
    | some rest =>
      have hrest : text rest = text' (f rest) := h rest (mem_children_rest rfl)
      rw [mapChildren, layout, layout, helements, Option.map_some, Option.toList_some,
        Option.toList_some, List.map_singleton, List.map_singleton, hrest]
  | object members additional =>
    have hmembers : members.map (memberText text) =
        (members.map fun m => { m with type := f m.type }).map (memberText text') := by
      rw [List.map_map]
      exact List.map_congr_left fun m hm => congrArg _ (h m.type (mem_children_member hm))
    have hadditional : additionalText text additional =
        additionalText text' (additional.map (·.map f)) := by
      rcases additional with _ | _ | _ | u
      · rfl
      · rfl
      · rfl
      · exact congrArg ("|*:" ++ ·) (h u mem_children_additional)
    rw [mapChildren, layout, layout, hmembers, hadditional]
  | union variants d =>
    rw [mapChildren, layout, layout, List.map_map]
    exact congrArg (fun ts => "anyOf(" ++ commas ts ++ ")") (List.map_congr_left h)
  | intersection members =>
    rw [mapChildren, layout, layout, List.map_map]
    exact congrArg (fun ts => "allOf(" ++ commas ts ++ ")") (List.map_congr_left h)
  | _ => rfl

/-! ### The two texts of a type -/

section
variable (names : String → Option String)

/-- The text of a type that stands inside another one. -/
def within (t : TypeExpr) : String := nested names t (abridged names t)

theorem abridgedAll_eq (ts : List TypeExpr) : abridgedAll names ts = ts.map (within names) := by
  induction ts with
  | nil => rfl
  | cons t ts ih => exact congrArg (within names t :: ·) ih

theorem abridgedRest_eq (rest : Option TypeExpr) :
    abridgedRest names rest = rest.toList.map fun t => "..." ++ within names t := by
  cases rest <;> rfl

theorem abridgedMembers_eq (ms : List Member) :
    abridgedMembers names ms = ms.map (memberText (within names)) := by
  induction ms with
  | nil => rfl
  | cons m ms ih =>
    cases m
    exact congrArg (_ :: ·) ih

theorem abridgedAdditional_eq (a : Option Additional) :
    abridgedAdditional names a = additionalText (within names) a := by
  rcases a with _ | _ | _ | t <;> rfl

theorem abridged_eq_layout (t : TypeExpr) : abridged names t = layout (within names) t := by
  cases t with
  | primitive kind format => cases format <;> rfl
  | tuple elements rest => rw [abridged, abridgedAll_eq, abridgedRest_eq]; rfl
  | object members additional => rw [abridged, abridgedMembers_eq, abridgedAdditional_eq]; rfl
  | union variants d => rw [abridged, abridgedAll_eq]; rfl
  | intersection members => rw [abridged, abridgedAll_eq]; rfl
  | _ => rfl

end

theorem within_none : within (fun _ => none) = fingerprint := funext fun _ => ite_self _

theorem fingerprint_eq_layout (t : TypeExpr) : fingerprint t = layout fingerprint t := by
  rw [fingerprint, abridged_eq_layout, within_none]

/-- An object with one member. -/
def single (name : String) (t : TypeExpr) : TypeExpr :=
  .object [{ name, type := t, required := true }] none

@[simp]
theorem hasMembers_single (name : String) (t : TypeExpr) : (single name t).hasMembers = true := rfl

theorem abridged_single (names : String → Option String) (name : String) (t : TypeExpr) :
    abridged names (single name t) = "\x7b" ++ (name ++ "!:" ++ within names t) ++ "\x7d" := by
  rw [abridged_eq_layout, single, layout]
  simp [sorted, commas, memberText, additionalText, String.append_assoc]

/-! ### Similar types -/

theorem map_eq_of_forall₂ {α β γ : Type} {R : α → β → Prop} {f : α → γ} {g : β → γ} {xs : List α}
    {ys : List β} (h : List.Forall₂ R xs ys) (hf : ∀ x ∈ xs, ∀ y, R x y → f x = g y) :
    xs.map f = ys.map g := by
  induction h with
  | nil => rfl
  | cons hxy _ ih =>
    rw [List.map_cons, List.map_cons, hf _ List.mem_cons_self _ hxy,
      ih fun x hx => hf x (List.mem_cons_of_mem _ hx)]

/-- The order of the parts does not show in their sorted list. -/
theorem sorted_eq_of_perm {xs ys : List String} (h : xs.Perm ys) : sorted xs = sorted ys := by
  have hsorted : ∀ zs : List String, (sorted zs).Pairwise fun a b => a ≤ b := fun zs => by
    refine (List.pairwise_mergeSort ?_ ?_ zs).imp of_decide_eq_true
    · exact fun a b c hab hbc =>
        decide_eq_true (String.le_trans (of_decide_eq_true hab) (of_decide_eq_true hbc))
    · exact fun a b => by simpa using String.le_total a b
  have hperm : (sorted xs).Perm (sorted ys) :=
    ((List.mergeSort_perm xs _).trans h).trans (List.mergeSort_perm ys _).symm
  exact hperm.eq_of_pairwise (fun a b _ _ => String.le_antisymm) (hsorted xs) (hsorted ys)

variable {text : TypeExpr → String}

/-- A text that is the same for similar children makes the same layout of similar types. -/
theorem Similar.layout_eq {t u : TypeExpr} (h : Similar t u)
    (htext : ∀ c ∈ t.children, ∀ d, Similar c d → text c = text d) :
    layout text t = layout text u := by
  cases h with
  | array hitem => rw [layout, layout, htext _ mem_children_array _ hitem]
  | @tuple ts us r s helements hrest =>
    have helements : ts.map text = us.map text :=
      map_eq_of_forall₂ helements fun e he => htext e (mem_children_element he)
    cases hrest with
    | none => rw [layout, layout, helements]
    | some hrest =>
      rw [layout, layout, helements, Option.toList_some, Option.toList_some, List.map_singleton,
        List.map_singleton, htext _ (mem_children_rest rfl) _ hrest]
  | @object ms ms' ns a b order hmembers hadditional =>
    have hmembers : ms'.map (memberText text) = ns.map (memberText text) := by
      refine map_eq_of_forall₂ hmembers fun m hm n hmn => ?_
      cases hmn with
      | intro hname hrequired htype =>
        rw [memberText, memberText, hname, hrequired,
          htext _ (mem_children_member (order.mem_iff.mpr hm)) _ htype]
    have hadditional : additionalText text a = additionalText text b := by
      cases hadditional with
      | of htype => rw [additionalText, additionalText, htext _ mem_children_additional _ htype]
      | _ => rfl
    rw [layout, layout, sorted_eq_of_perm (order.map _), hmembers, hadditional]
  | union hvariants d e => rw [layout, layout, map_eq_of_forall₂ hvariants htext]
  | intersection hmembers => rw [layout, layout, map_eq_of_forall₂ hmembers htext]
  | _ => rfl

theorem Similar.abridged_eq (names : String → Option String) {t u : TypeExpr} (h : Similar t u) :
    abridged names t = abridged names u := by
  induction t using induct generalizing u with
  | step t ih =>
    have hwithin : ∀ c ∈ t.children, ∀ d, Similar c d → within names c = within names d :=
      fun c hc d hcd => by rw [within, within, nested, nested, hcd.hasMembers, ih c hc hcd]
    rw [abridged_eq_layout, abridged_eq_layout, h.layout_eq hwithin]

end TypedApi.TypeExpr
