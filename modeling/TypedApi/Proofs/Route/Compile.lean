import TypedApi.Proofs.SchemaTable.Consistency
import TypedApi.Route.Operation

/-! What a computation on the table leaves behind.

`Yields N t c Q` says of a computation that starts at `t`: the table that results has grown
from `t` and its schemas have the property `N`, and `Q` holds there of the result. There is
one rule for each way in which computations are put together, and one for the conversion of
a type. -/
namespace TypedApi.Route

open OpenApi SchemaTable

/-- A table from which types may be converted. -/
structure Sound (N : SchemaTable → Schema → Prop) (t : SchemaTable) : Prop where
  keyed : WellKeyed t
  stored : Stored N t

def Yields {α : Type} (N : SchemaTable → Schema → Prop) (t : SchemaTable) (c : Compile α)
    (Q : SchemaTable → α → Prop) : Prop :=
  Sound N (c.run t).2 ∧ Extends t (c.run t).2 ∧ Q (c.run t).2 (c.run t).1

variable {N : SchemaTable → Schema → Prop} {t : SchemaTable} {α β : Type}

theorem sound_fresh (N : SchemaTable → Schema → Prop) : Sound N {} :=
  ⟨WellKeyed.fresh, fun e he => by cases he⟩

theorem forall_of_forall₂ {P : β → Prop} {xs : List α} {ys : List β}
    (h : List.Forall₂ (fun _ y => P y) xs ys) : ∀ y ∈ ys, P y := by
  induction h with
  | nil => intro y hy; cases hy
  | cons hy _ ih => exact List.forall_mem_cons.mpr ⟨hy, ih⟩

theorem map_eq_of_forall₂ {γ : Type} {f : α → γ} {g : β → γ} {xs : List α} {ys : List β}
    (h : List.Forall₂ (fun x y => g y = f x) xs ys) : ys.map g = xs.map f := by
  induction h with
  | nil => rfl
  | cons hy _ ih => rw [List.map_cons, List.map_cons, hy, ih]

namespace Yields

theorem pure {a : α} {Q : SchemaTable → α → Prop} (hs : Sound N t) (h : Q t a) :
    Yields N t (Pure.pure a) Q :=
  ⟨hs, .refl t, h⟩

theorem bind {c : Compile α} {f : α → Compile β} {Q : SchemaTable → α → Prop}
    {R : SchemaTable → β → Prop} (h : Yields N t c Q)
    (hf : ∀ a t', Extends t t' → Sound N t' → Q t' a → Yields N t' (f a) R) :
    Yields N t (c >>= f) R := by
  obtain ⟨hs, hg, hq⟩ := h
  obtain ⟨hs', hg', hr⟩ := hf (c.run t).1 (c.run t).2 hg hs hq
  exact ⟨hs', hg.trans hg', hr⟩

/-- A choice that is made before the rest of a computation. -/
theorem ite_bind {p : Prop} [Decidable p] {c d : Compile α} {f : α → Compile β}
    {R : SchemaTable → β → Prop} (h : Yields N t ((if p then c else d) >>= f) R) :
    Yields N t (if p then c >>= f else d >>= f) R := by
  split at h <;> split <;> first | exact h | contradiction

theorem imp {c : Compile α} {Q R : SchemaTable → α → Prop} (h : Yields N t c Q)
    (hqr : ∀ t' a, Extends t t' → Q t' a → R t' a) : Yields N t c R :=
  ⟨h.1, h.2.1, hqr _ _ h.2.1 h.2.2⟩

/-- What is left behind is left by a run from some table. -/
theorem traced {c : Compile α} {Q : SchemaTable → α → Prop} (h : Yields N t c Q) :
    Yields N t c fun t' a => Q t' a ∧ ∃ t₀, a = (c.run t₀).1 :=
  ⟨h.1, h.2.1, h.2.2, t, rfl⟩

theorem map {c : Compile α} {f : α → β} {R : SchemaTable → β → Prop}
    (h : Yields N t c fun t' a => R t' (f a)) : Yields N t (f <$> c) R := h

/-- The results of a list, each with what it comes from. What is said of a result has to
hold on while the table grows. -/
theorem mapM {xs : List α} {f : α → Compile β} {Q : α → SchemaTable → β → Prop}
    (hgrow : ∀ x t t' y, Extends t t' → Q x t y → Q x t' y)
    (h : ∀ x ∈ xs, ∀ t, Sound N t → Yields N t (f x) (Q x)) (hs : Sound N t) :
    Yields N t (xs.mapM f) fun t' ys => List.Forall₂ (fun x y => Q x t' y) xs ys := by
  induction xs generalizing t with
  | nil => exact pure hs .nil
  | cons x xs ih =>
    rw [List.mapM_cons]
    refine bind (h x List.mem_cons_self t hs) fun y t₁ _ hs₁ hy => ?_
    refine bind (ih (fun z hz => h z (List.mem_cons_of_mem _ hz)) hs₁) fun ys t₂ hg₂ hs₂ hys => ?_
    exact pure hs₂ (.cons (hgrow x t₁ t₂ y hg₂ hy) hys)

/-- The same for what holds of every result. -/
theorem mapM_all {xs : List α} {f : α → Compile β} {Q : SchemaTable → β → Prop}
    (hgrow : ∀ t t' y, Extends t t' → Q t y → Q t' y)
    (h : ∀ x ∈ xs, ∀ t, Sound N t → Yields N t (f x) Q) (hs : Sound N t) :
    Yields N t (xs.mapM f) fun t' ys => ∀ y ∈ ys, Q t' y :=
  imp (mapM (Q := fun _ => Q) (fun _ => hgrow) h hs) fun _ _ _ hall => forall_of_forall₂ hall

end Yields

/-- A converted type has only nodes with the property. -/
theorem yields_schemaOf {registry : Registry} {Good : SourceType → Prop}
    (hn : Nodewise registry Good N) (hs : Sound N t) {type : SourceType} (hg : Good type) :
    Yields N t (schemaOf registry type) fun t' s => s.All (N t') := by
  have hsite := site_convert registry type t
  obtain ⟨hstored, hall⟩ := hsite.nodewise hn hg hs.keyed hs.stored
  exact ⟨⟨hs.keyed.of_writes hsite.writes, hstored⟩, .of_writes hsite.writes, hall⟩

/-- Schemas that are put together with what their types come from are those of the types, converted
one after the other. -/
theorem run_mapM_schemaOf (registry : Registry) (xs : List α) (type : α → SourceType)
    (g : α → Schema → β) (t : SchemaTable) :
    (xs.mapM fun x => g x <$> schemaOf registry (type x)).run t =
      (List.zipWith g xs (convertAll registry (xs.map type) t).1,
        (convertAll registry (xs.map type) t).2) := by
  have hrun : ∀ types t, (types.mapM (schemaOf registry)).run t = convertAll registry types t := by
    intro types
    induction types with
    | nil => exact fun _ => rfl
    | cons type types ih =>
      intro t
      rw [List.mapM_cons]
      exact congrArg (fun r => ((convert registry type t).1 :: r.1, r.2)) (ih (convert registry type t).2)
  rw [mapM_pairing, ← hrun]
  rfl

end TypedApi.Route
