import TypedApi.Proofs.TypeScript.Numbering
import TypedApi.TypeScript.Controller

/-! The controllers of a list of signatures.

Signatures are handed out one by one, and a controller holds those that bear its name in the order
in which they come (`Grouped`). So nothing is lost and nothing comes twice. -/
namespace TypedApi.TypeScript.Controller

/-- Each signature is in the one controller of its name, and each controller holds its own in
order. -/
structure Grouped (ss : List Signature) (cs : List Controller) : Prop where
  nodup : (cs.map (·.name)).Nodup
  names : ∀ name, name ∈ cs.map (·.name) ↔ name ∈ ss.map (·.controller)
  signatures : ∀ c ∈ cs, c.signatures = ss.filter (·.controller = c.name)

theorem grouped_nil : Grouped [] [] where
  nodup := List.nodup_nil
  names _ := Iff.rfl
  signatures := nofun

theorem names_add (s : Signature) (cs : List Controller) :
    (add s cs).map (·.name) =
      if s.controller ∈ cs.map (·.name) then cs.map (·.name) else cs.map (·.name) ++ [s.controller] := by
  induction cs with
  | nil => rfl
  | cons c cs ih =>
    rw [add]
    by_cases h : c.name = s.controller
    · rw [if_pos h, List.map_cons, List.map_cons, if_pos (h ▸ List.mem_cons_self)]
    · have hmem : s.controller ∈ (c :: cs).map (·.name) ↔ s.controller ∈ cs.map (·.name) := by
        rw [List.map_cons, List.mem_cons, or_iff_right (Ne.symm h)]
      rw [if_neg h, List.map_cons, ih]
      simp only [hmem]
      split <;> rfl

/-- A controller after a signature was handed out: it is new, or it has taken the signature up if
that bears its name. -/
theorem mem_add {s : Signature} {cs : List Controller} (hn : (cs.map (·.name)).Nodup)
    {c : Controller} (h : c ∈ add s cs) :
    (c = ⟨s.controller, [s]⟩ ∧ s.controller ∉ cs.map (·.name)) ∨
      ∃ d ∈ cs, c.name = d.name ∧
        c.signatures = d.signatures ++ if s.controller = d.name then [s] else [] := by
  induction cs with
  | nil =>
    rw [add, List.mem_singleton] at h
    exact .inl ⟨h, nofun⟩
  | cons d cs ih =>
    obtain ⟨hd, hcs⟩ := List.nodup_cons.mp hn
    rw [add] at h
    by_cases hname : d.name = s.controller
    · rw [if_pos hname] at h
      rcases List.mem_cons.mp h with rfl | hc
      · exact .inr ⟨d, List.mem_cons_self, rfl, by rw [if_pos hname.symm]⟩
      · have hne : s.controller ≠ c.name := fun heq =>
          hd (List.mem_map.mpr ⟨c, hc, heq.symm.trans hname.symm⟩)
        exact .inr ⟨c, List.mem_cons_of_mem d hc, rfl, by rw [if_neg hne, List.append_nil]⟩
    · rw [if_neg hname] at h
      rcases List.mem_cons.mp h with rfl | hc
      · exact .inr ⟨c, List.mem_cons_self, rfl, by rw [if_neg (Ne.symm hname), List.append_nil]⟩
      · rcases ih hcs hc with ⟨rfl, hnew⟩ | ⟨e, he, hce⟩
        · refine .inl ⟨rfl, ?_⟩
          rw [List.map_cons, List.mem_cons, not_or]
          exact ⟨Ne.symm hname, hnew⟩
        · exact .inr ⟨e, List.mem_cons_of_mem d he, hce⟩

theorem Grouped.add {ss : List Signature} {cs : List Controller} (h : Grouped ss cs)
    (s : Signature) : Grouped (ss ++ [s]) (add s cs) where
  nodup := by
    rw [names_add]
    split
    · exact h.nodup
    · next hnew =>
      refine List.nodup_append.mpr ⟨h.nodup, List.nodup_singleton _, fun a ha b hb heq => hnew ?_⟩
      rw [List.mem_singleton.mp hb] at heq
      exact heq ▸ ha
  names name := by
    rw [names_add, List.map_append, List.mem_append, ← h.names]
    split
    · next hold =>
      have hmem : name ∈ [s].map (·.controller) → name ∈ cs.map (·.name) := fun h =>
        List.mem_singleton.mp h ▸ hold
      exact (or_iff_left_of_imp hmem).symm
    · exact List.mem_append
  signatures c hc := by
    rw [List.filter_append]
    rcases mem_add h.nodup hc with ⟨rfl, hnew⟩ | ⟨d, hd, hname, hsignatures⟩
    · have hnone : ss.filter (·.controller = s.controller) = [] := by
        refine List.filter_eq_nil_iff.mpr fun t ht heq => hnew ((h.names _).mpr ?_)
        rw [← of_decide_eq_true heq]
        exact List.mem_map_of_mem ht
      simp [hnone]
    · rw [hsignatures, h.signatures d hd, hname]
      refine congrArg _ ?_
      by_cases heq : s.controller = d.name <;> simp [heq]

theorem grouped_foldl {ss : List Signature} {cs : List Controller} (h : Grouped ss cs)
    (ts : List Signature) : Grouped (ss ++ ts) (ts.foldl (fun cs s => Controller.add s cs) cs) := by
  induction ts generalizing ss cs with
  | nil => rwa [List.append_nil]
  | cons t ts ih =>
    have hnext := ih (h.add t)
    rwa [List.append_assoc] at hnext

theorem grouped_ofSignatures (ss : List Signature) : Grouped ss (ofSignatures ss) :=
  grouped_foldl grouped_nil ss

/-! ### Files of controllers -/

/-- The name of the file of a controller by the name of the controller. -/
def stemOf (name : String) : String :=
  if supportFiles.contains name then name ++ "-client" else name

theorem stem_eq (c : Controller) : c.stem = stemOf c.name := rfl

theorem stemOf_notMem (name : String) : stemOf name ∉ supportFiles := by
  have hclients : ∀ name ∈ supportFiles, name ++ "-client" ∉ supportFiles := by decide
  unfold stemOf
  split
  · next h => exact hclients name (List.contains_iff_mem.mp h)
  · next h => exact mt List.contains_iff_mem.mpr h

/-- Names of files fall together only where one controller is named after a file that every client
has, and another one after the controller's own file. -/
theorem nodup_stems {names : List String} (hn : names.Nodup) :
    (names.map stemOf).Nodup ↔
      ∀ name ∈ supportFiles, name ∈ names → name ++ "-client" ∉ names := by
  have hsupport : ∀ name ∈ supportFiles, stemOf name = name ++ "-client" := fun name h =>
    if_pos (List.contains_iff_mem.mpr h)
  have hother : ∀ name ∉ supportFiles, stemOf name = name := fun name h =>
    if_neg (mt List.contains_iff_mem.mp h)
  constructor
  · intro hstems name hname hmem hclient
    have heq : stemOf (name ++ "-client") = stemOf name := by
      rw [hother _ (hsupport name hname ▸ stemOf_notMem name), hsupport name hname]
    have hsame := List.inj_on_of_nodup_map hstems hclient hmem heq
    have hlength := congrArg String.length hsame
    rw [String.length_append, Nat.add_eq_left] at hlength
    exact absurd hlength (by decide)
  · intro h
    refine hn.map_on fun a ha b hb heq => ?_
    by_cases hsa : a ∈ supportFiles <;> by_cases hsb : b ∈ supportFiles
    · rw [hsupport a hsa, hsupport b hsb] at heq
      exact (String.append_left_inj _).mp heq
    · rw [hsupport a hsa, hother b hsb] at heq
      exact absurd (heq ▸ hb) (h a hsa ha)
    · rw [hother a hsa, hsupport b hsb] at heq
      exact absurd (heq ▸ ha) (h b hsb hb)
    · rwa [hother a hsa, hother b hsb] at heq

/-- The functions of a controller stand in its file one behind the other. -/
theorem source_functions (c : Controller) (title version : String) (components : List String) :
    ∃ before after, c.source title version components =
      before ++ String.join (c.signatures.map fun s => "\n" ++ function s) ++ after := by
  rw [source]
  iterate 6 rw [String.append_assoc]
  exact ⟨_, _, rfl⟩

end TypedApi.TypeScript.Controller
