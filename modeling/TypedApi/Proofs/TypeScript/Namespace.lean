import TypedApi.Proofs.TypeScript.Name
import TypedApi.Proofs.TypeScript.Package
import TypedApi.Proofs.TypeScript.StringLiteral

/-! The namespaces of controllers.

The index exports each controller under the camel-case form of its name. There a hyphen in front of
a letter leaves a capital, but one in front of a digit leaves nothing. So two controllers share
a namespace exactly if their names are the same without the hyphens in front of digits
(`namespaces_ofApi`), and controllers with different names may (`shared_namespace`). -/
namespace TypedApi.TypeScript

/-! ### Names closed up -/

/-- A name without the hyphens in front of digits. -/
def closedUp : List Char → List Char
  | [] => []
  | c :: cs => if c = '-' ∧ cs.head?.any Text.isDigit then closedUp cs else c :: closedUp cs

/-- What is left of a hyphen and the word behind it. -/
def behindHyphen (w : List Char) : List Char := if w.head?.any Text.isDigit then w else '-' :: w

variable {w cs ds : List Char} {ws vs : List (List Char)} {s t : String} {c : Char}

theorem closedUp_small (hw : ∀ c ∈ w, isSmall c = true) (rest : List Char) :
    closedUp (w ++ rest) = w ++ closedUp rest := by
  induction w with
  | nil => rfl
  | cons c w ih =>
    obtain ⟨hc, hw⟩ := List.forall_mem_cons.mp hw
    have hhyphen : c ≠ '-' := by
      rintro rfl
      revert hc
      decide
    rw [List.cons_append, closedUp, if_neg fun h => hhyphen h.1, ih hw, List.cons_append]

theorem closedUp_hyphen (hw : IsWord isSmall w) (rest : List Char) :
    closedUp ('-' :: (w ++ rest)) = behindHyphen w ++ closedUp rest := by
  obtain ⟨c, cs, rfl⟩ := List.exists_cons_of_ne_nil hw.1
  have hhead : ((c :: cs) ++ rest).head? = (c :: cs).head? := rfl
  rw [closedUp, behindHyphen, hhead, closedUp_small hw.2]
  by_cases hdigit : (c :: cs).head?.any Text.isDigit = true
  · rw [if_pos ⟨rfl, hdigit⟩, if_pos hdigit]
  · rw [if_neg fun h => hdigit h.2, if_neg hdigit, List.cons_append, List.cons_append,
      List.cons_append]

theorem intercalate_cons_flatMap (sep : List Char) (w : List Char) (ws : List (List Char)) :
    sep.intercalate (w :: ws) = w ++ ws.flatMap (sep ++ ·) := by
  induction ws generalizing w with
  | nil => rw [List.intercalate_singleton, List.flatMap_nil, List.append_nil]
  | cons v ws ih => rw [List.intercalate_cons_cons, ih, List.flatMap_cons, List.append_assoc, List.append_assoc]

theorem closedUp_intercalate (hw : IsWord isSmall w) (hws : ∀ v ∈ ws, IsWord isSmall v) :
    closedUp (['-'].intercalate (w :: ws)) = w ++ ws.flatMap behindHyphen := by
  have hmore : closedUp (ws.flatMap (['-'] ++ ·)) = ws.flatMap behindHyphen := by
    induction ws with
    | nil => rfl
    | cons v ws ih =>
      obtain ⟨hv, hws⟩ := List.forall_mem_cons.mp hws
      rw [List.flatMap_cons, List.flatMap_cons, List.singleton_append, List.cons_append,
        closedUp_hyphen hv, ih hws]
  rw [intercalate_cons_flatMap, closedUp_small hw.2, hmore]

/-! ### Capitals -/

/-- A capital is a hyphen and the small letter. -/
def hyphens (c : Char) : List Char := if isUpper c then ['-', c.toLower] else [c]

theorem hyphens_ne_nil (c : Char) : hyphens c ≠ [] := by
  unfold hyphens
  split <;> exact List.cons_ne_nil _ _

theorem hyphens_inj {us vs : List Char} {d : Char} (hc : Text.isAlphanumeric c = true)
    (hd : Text.isAlphanumeric d = true) (h : hyphens c ++ us = hyphens d ++ vs) : c = d ∧ us = vs := by
  have hplain : ∀ e, Text.isAlphanumeric e = true → e ≠ '-' := by
    rintro e he rfl
    revert he
    decide
  have hback : ∀ e, Text.isAlphanumeric e = true → isUpper e = true → e.toLower.toUpper = e :=
    fun e he => of_isAlphanumeric (p := fun e => isUpper e = true → e.toLower.toUpper = e)
      (by decide) he
  unfold hyphens at h
  split at h <;> split at h <;>
    simp only [List.cons_append, List.nil_append, List.cons.injEq] at h
  · next hcu hdu =>
    refine ⟨?_, h.2.2⟩
    rw [← hback c hc hcu, h.2.1, hback d hd hdu]
  · exact absurd h.1.symm (hplain d hd)
  · exact absurd h.1 (hplain c hc)
  · exact h

theorem hyphens_small (hw : ∀ c ∈ w, isSmall c = true) : w.flatMap hyphens = w := by
  have hone : ∀ c ∈ w, hyphens c = [c] := fun c hc =>
    if_neg (Bool.eq_false_iff.mp (isUpper_of_isSmall (hw c hc)))
  induction w with
  | nil => rfl
  | cons c w ih =>
    obtain ⟨hc, hone⟩ := List.forall_mem_cons.mp hone
    rw [List.flatMap_cons, hc, ih (List.forall_mem_cons.mp hw).2 hone, List.singleton_append]

theorem hyphens_capitalize (hw : IsWord isSmall w) :
    (Text.capitalize w).flatMap hyphens = behindHyphen w := by
  obtain ⟨c, cs, rfl⟩ := List.exists_cons_of_ne_nil hw.1
  obtain ⟨hc, hcs⟩ := List.forall_mem_cons.mp hw.2
  have hletter := isAlphanumeric_of_isSmall hc
  have hfirst : hyphens c.toUpper = if Text.isDigit c then [c] else ['-', c] :=
    of_isAlphanumeric (p := fun c => isSmall c = true →
      hyphens c.toUpper = if Text.isDigit c then [c] else ['-', c]) (by decide) hletter hc
  have hhead : (c :: cs).head?.any Text.isDigit = Text.isDigit c := rfl
  rw [capitalize_cons hletter, List.flatMap_cons, hfirst, hyphens_small hcs, behindHyphen, hhead]
  split <;> rfl

/-- The camel-case form says of a name what is left when it is closed up. -/
theorem Hyphenated.hyphens_camelWords (h : Hyphenated s ws) :
    (camelWords ws).flatMap hyphens = closedUp s.toList := by
  obtain ⟨hs, hne, hws⟩ := h
  obtain ⟨w, ws, rfl⟩ := List.exists_cons_of_ne_nil hne
  obtain ⟨hw, hws⟩ := List.forall_mem_cons.mp hws
  have hfirst : lowerFirst w = w := by
    obtain ⟨c, cs, rfl⟩ := List.exists_cons_of_ne_nil hw.1
    rw [lowerFirst, toLower_of_isSmall (hw.2 c List.mem_cons_self)]
  have hmore : (ws.flatMap Text.capitalize).flatMap hyphens = ws.flatMap behindHyphen := by
    rw [List.flatMap_assoc]
    exact List.flatMap_congr fun v hv => hyphens_capitalize (hws v hv)
  rw [camelWords, List.flatMap_append, hfirst, hyphens_small hw.2, hmore, hs,
    closedUp_intercalate hw hws]

/-! ### Names in camel case -/

theorem Hyphenated.isAlphanumeric_camelWords (h : Hyphenated s ws) :
    camelWords ws ≠ [] ∧ ∀ c ∈ camelWords ws, Text.isAlphanumeric c = true := by
  obtain ⟨-, hne, hws⟩ := h
  refine ⟨?_, TypeScript.isAlphanumeric_camelWords fun w hw =>
    ⟨(hws w hw).1, fun c hc => isAlphanumeric_of_isSmall ((hws w hw).2 c hc)⟩⟩
  obtain ⟨w, ws, rfl⟩ := List.exists_cons_of_ne_nil hne
  obtain ⟨c, cs, rfl⟩ := List.exists_cons_of_ne_nil (hws w List.mem_cons_self).1
  exact List.cons_ne_nil _ _

/-- Two file names have one camel-case form exactly if they are the same closed up. -/
theorem Hyphenated.camelCase_eq_iff (hs : Hyphenated s ws) (ht : Hyphenated t vs) :
    camelCase s = camelCase t ↔ closedUp s.toList = closedUp t.toList := by
  obtain ⟨hsne, hsparts⟩ := hs.isAlphanumeric_camelWords
  obtain ⟨htne, htparts⟩ := ht.isAlphanumeric_camelWords
  rw [camelCase_eq, camelCase_eq, hs.words_eq, ht.words_eq, String.ofList_inj,
    ← hs.hyphens_camelWords, ← ht.hyphens_camelWords]
  constructor
  · intro h
    rw [← filter_guarded hsne hsparts, h, filter_guarded htne htparts]
  · intro h
    rw [eq_of_flatMap_eq hyphens_ne_nil hyphens_inj hsparts htparts h]

namespace Client

/-! ### The index -/

/-- The line of the index for the file of a controller. -/
def exportLine (space stem : String) : String :=
  "\nexport * as " ++ space ++ " from \"./" ++ stem ++ "\";"

theorem hyphenated_controller {api : Api} {c : Controller} (h : c ∈ (ofApi api).controllers) :
    ∃ ws, Hyphenated c.name ws := by
  have hname : c.name ∈ controllerNames api := by
    rw [← controllers_signatures, ← (Controller.grouped_ofSignatures _).names]
    exact List.mem_map_of_mem h
  obtain ⟨o, -, ho⟩ := List.mem_map.mp hname
  exact ho ▸ hyphenated_kebabCase o.controller

theorem nodup_map_iff {α β γ : Type} {xs : List α} {f : α → β} {g : α → γ}
    (h : ∀ x ∈ xs, ∀ y ∈ xs, f x = f y ↔ g x = g y) : (xs.map f).Nodup ↔ (xs.map g).Nodup := by
  rw [List.Nodup, List.Nodup, List.pairwise_map, List.pairwise_map]
  exact List.Pairwise.iff_of_mem fun hx hy => not_congr (h _ hx _ hy)

/-- The index exports every controller, and two of them under one namespace exactly if their names
are the same without the hyphens in front of digits. So the namespaces are different if no name has
such a hyphen. -/
theorem namespaces_ofApi (api : Api) :
    let client := ofApi api
    let spaces := client.controllers.map fun c => camelCase c.name
    (∃ before, client.indexFile.content = before ++
      String.join (client.controllers.map fun c => exportLine (camelCase c.name) c.stem) ++ "\n") ∧
    (∀ c ∈ client.controllers, ∀ d ∈ client.controllers,
      camelCase c.name = camelCase d.name ↔ closedUp c.name.toList = closedUp d.name.toList) ∧
    (spaces.Nodup ↔ (client.controllers.map fun c => closedUp c.name.toList).Nodup) ∧
    ((∀ c ∈ client.controllers, closedUp c.name.toList = c.name.toList) → spaces.Nodup) := by
  intro client spaces
  have hshared : ∀ c ∈ client.controllers, ∀ d ∈ client.controllers,
      camelCase c.name = camelCase d.name ↔ closedUp c.name.toList = closedUp d.name.toList := by
    intro c hc d hd
    obtain ⟨ws, hws⟩ := hyphenated_controller hc
    obtain ⟨vs, hvs⟩ := hyphenated_controller hd
    exact hws.camelCase_eq_iff hvs
  have hspaces := nodup_map_iff hshared
  refine ⟨⟨_, rfl⟩, hshared, hspaces, fun hclosed => hspaces.mpr ?_⟩
  have hnames : client.controllers.map (fun c => closedUp c.name.toList) =
      (client.controllers.map (·.name)).map String.toList := by
    rw [List.map_map]
    exact List.map_congr_left hclosed
  rw [hnames]
  exact (Controller.grouped_ofSignatures _).nodup.map fun _ _ => String.toList_inj.mp

/-- Two controllers with files of their own and one namespace. -/
theorem shared_namespace :
    let operation (controller : String) : Api.Operation :=
      { name := "list", method := .get, path := "/" ++ controller, controller }
    let client := ofApi { operations := [operation "item1", operation "item-1"] }
    client.controllers.map (·.stem) = ["item1", "item-1"] ∧
      client.controllers.map (fun c => camelCase c.name) = ["item1", "item1"] := by
  decide +kernel

end Client
end TypedApi.TypeScript
