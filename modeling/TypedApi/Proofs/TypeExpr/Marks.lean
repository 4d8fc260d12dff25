import Mathlib.Data.List.Forall2
import TypedApi.TypeExpr.Fingerprint
import TypedApi.Proofs.Json.Compact

/-! The marks between the parts of a fingerprint.

A part is read up to the mark behind it (`Stops`). `Tells` says that two parts can be told apart
in this way, and then so can lists of them between commas (`commas_inj`). -/
namespace TypedApi.TypeExpr

/-! ### Where a part stops -/

/-- The marks that may stand behind the text of a type. -/
def stops : List Char := [',', ')', ']', '\x7d', '|']

def Begins (marks : List Char) (rest : List Char) : Prop := ∃ c ∈ marks, ∃ more, rest = c :: more

/-- Nothing follows the text of a type, or a mark does. -/
def Stops (rest : List Char) : Prop := rest = [] ∨ Begins stops rest

theorem Begins.stops {marks rest : List Char} (h : Begins marks rest) (hm : marks ⊆ stops) :
    Stops rest :=
  let ⟨c, hc, hrest⟩ := h
  .inr ⟨c, hm hc, hrest⟩

theorem stops_cons {c : Char} (h : c ∈ stops) (rest : List Char) : Stops (c :: rest) :=
  .inr ⟨c, h, rest, rfl⟩

theorem Stops.head {rest : List Char} (h : Stops rest) : ∀ c ∈ rest.head?, c ∈ stops := by
  obtain rfl | ⟨c, hc, more, rfl⟩ := h
  · exact fun d hd => nomatch hd
  · exact fun d hd => Option.some.inj hd ▸ hc

theorem Stops.delimited {rest : List Char} (h : Stops rest) : Json.Delimited rest := by
  obtain rfl | ⟨c, hc, more, rfl⟩ := h
  · exact fun d hd => nomatch hd
  · have hmarks : ∀ c ∈ stops, Json.isNumeral c = false ∧ c ≠ '.' ∧ c ≠ 'e' ∧ c ≠ 'E' :=
      Json.forall_mem_of_all (by decide)
    exact Json.delimited_cons (hmarks c hc) more

/-- The texts of `x` and `y`, each up to where it stops, agree only if `R` relates the two. -/
def Tells {α : Type} (text : α → String) (R : α → α → Prop) (x y : α) : Prop :=
  ∀ {r r' : List Char}, Stops r → Stops r' →
    (text x).toList ++ r = (text y).toList ++ r' → R x y ∧ r = r'

/-- A stretch without marks ends at the first mark. -/
theorem stretch_inj {p : Char → Prop} {a b r r' : List Char} (ha : ∀ c ∈ a, ¬ p c)
    (hb : ∀ c ∈ b, ¬ p c) (hr : ∀ c ∈ r.head?, p c) (hr' : ∀ c ∈ r'.head?, p c)
    (h : a ++ r = b ++ r') : a = b ∧ r = r' := by
  induction a generalizing b with
  | nil =>
    cases b with
    | nil => exact ⟨rfl, h⟩
    | cons d b => exact absurd (hr d (by rw [← List.nil_append r, h]; rfl)) (hb d List.mem_cons_self)
  | cons c a ih =>
    cases b with
    | nil => exact absurd (hr' c (by rw [← List.nil_append r', ← h]; rfl)) (ha c List.mem_cons_self)
    | cons d b =>
      obtain ⟨rfl, htail⟩ := List.cons.inj h
      obtain ⟨rfl, rfl⟩ := ih (fun c hc => ha c (List.mem_cons_of_mem _ hc))
        (fun c hc => hb c (List.mem_cons_of_mem _ hc)) htail
      exact ⟨rfl, rfl⟩

/-- A stretch without the mark behind it ends there. -/
theorem stretch_mark_inj {mark : Char} {a b r r' : List Char} (ha : mark ∉ a) (hb : mark ∉ b)
    (h : a ++ mark :: r = b ++ mark :: r') : a = b ∧ r = r' := by
  have hhead : ∀ more, ∀ c ∈ (mark :: more).head?, c = mark := fun _ c hc => (Option.some.inj hc).symm
  obtain ⟨rfl, hrest⟩ := stretch_inj (p := (· = mark)) (fun c hc heq => ha (heq ▸ hc))
    (fun c hc heq => hb (heq ▸ hc)) (hhead r) (hhead r') h
  exact ⟨rfl, (List.cons.inj hrest).2⟩

/-! ### Parts between commas -/

section
variable {α : Type} {text : α → String} {R : α → α → Prop}

/-- The parts after the first one. -/
def commasFrom (text : α → String) (xs : List α) : List Char :=
  xs.flatMap fun x => ',' :: (text x).toList

theorem toList_commas (x : α) (xs : List α) :
    (commas ((x :: xs).map text)).toList = (text x).toList ++ commasFrom text xs := by
  induction xs generalizing x with
  | nil => simp [commas, commasFrom]
  | cons y ys ih =>
    have hcons : commas ((x :: y :: ys).map text) = text x ++ "," ++ commas ((y :: ys).map text) :=
      String.intercalate_cons_cons
    rw [hcons, String.toList_append, String.toList_append, ih y]
    simp [commasFrom]

theorem stops_commasFrom {rest : List Char} (hr : Stops rest) (xs : List α) :
    Stops (commasFrom text xs ++ rest) := by
  cases xs with
  | nil => exact hr
  | cons x xs => exact stops_cons (by decide) _

theorem commasFrom_inj {r r' : List Char} (hr : Stops r) (hr' : Stops r') (hc : ¬ Begins [','] r)
    (hc' : ¬ Begins [','] r') {xs ys : List α} (hxy : ∀ x ∈ xs, ∀ y ∈ ys, Tells text R x y)
    (h : commasFrom text xs ++ r = commasFrom text ys ++ r') : List.Forall₂ R xs ys ∧ r = r' := by
  induction xs generalizing ys with
  | nil =>
    cases ys with
    | nil => exact ⟨.nil, h⟩
    | cons y ys => exact absurd ⟨',', List.mem_cons_self, _, h⟩ hc
  | cons x xs ih =>
    cases ys with
    | nil => exact absurd ⟨',', List.mem_cons_self, _, h.symm⟩ hc'
    | cons y ys =>
      simp only [commasFrom, List.flatMap_cons, List.cons_append, List.append_assoc, List.cons.injEq,
        true_and] at h
      obtain ⟨hhead, htail⟩ := hxy x List.mem_cons_self y List.mem_cons_self
        (stops_commasFrom hr xs) (stops_commasFrom hr' ys) h
      obtain ⟨hrest, rfl⟩ := ih (fun x hx y hy =>
        hxy x (List.mem_cons_of_mem _ hx) y (List.mem_cons_of_mem _ hy)) htail
      exact ⟨.cons hhead hrest, rfl⟩

/-- Lists are told apart by their parts, if no part begins as what follows the list does. -/
theorem commas_inj (marks : List Char) (hmarks : marks ⊆ stops) (hcomma : ',' ∉ marks)
    {r r' : List Char} (hr : Begins marks r) (hr' : Begins marks r') {xs ys : List α}
    (hopen : ∀ x, x ∈ xs ∨ x ∈ ys → ∀ rest, ¬ Begins marks ((text x).toList ++ rest))
    (hxy : ∀ x ∈ xs, ∀ y ∈ ys, Tells text R x y)
    (h : (commas (xs.map text)).toList ++ r = (commas (ys.map text)).toList ++ r') :
    List.Forall₂ R xs ys ∧ r = r' := by
  have hnoComma : ∀ {rest : List Char}, Begins marks rest → ¬ Begins [','] rest := by
    rintro _ ⟨c, hc, _, rfl⟩ ⟨d, hd, _, heq⟩
    obtain rfl := List.mem_singleton.mp hd
    exact hcomma ((List.cons.inj heq).1 ▸ hc)
  cases xs with
  | nil =>
    cases ys with
    | nil => exact ⟨.nil, h⟩
    | cons y ys =>
      rw [toList_commas, List.append_assoc] at h
      have hbegins : Begins marks _ := (show r = _ from h) ▸ hr
      exact absurd hbegins (hopen y (.inr List.mem_cons_self) _)
  | cons x xs =>
    cases ys with
    | nil =>
      rw [toList_commas, List.append_assoc] at h
      have hbegins : Begins marks _ := (show _ = r' from h) ▸ hr'
      exact absurd hbegins (hopen x (.inl List.mem_cons_self) _)
    | cons y ys =>
      rw [toList_commas, toList_commas, List.append_assoc, List.append_assoc] at h
      obtain ⟨hhead, htail⟩ := hxy x List.mem_cons_self y List.mem_cons_self
        (stops_commasFrom (hr.stops hmarks) xs) (stops_commasFrom (hr'.stops hmarks) ys) h
      obtain ⟨hrest, rfl⟩ := commasFrom_inj (hr.stops hmarks) (hr'.stops hmarks) (hnoComma hr)
        (hnoComma hr') (fun x hx y hy =>
          hxy x (List.mem_cons_of_mem _ hx) y (List.mem_cons_of_mem _ hy)) htail
      exact ⟨.cons hhead hrest, rfl⟩

end

end TypedApi.TypeExpr
