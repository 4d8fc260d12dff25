import TypedApi.Proofs.OpenApi.ComponentKey
import TypedApi.Proofs.OpenApi.Violation

/-! What the validator has looked at when it has nothing to say.

A schema is `Quiet` if the validator reports nothing on it. The schemas inside a quiet schema are
quiet, and those in a document without a violation are, apart from the parameters that are
references (`quiet_of_ofDocument`). -/
namespace TypedApi.OpenApi.Violation

variable {names : List String} {place : String}

/-! ### Schemas -/

/-- The validator reports nothing on a schema. -/
def Quiet (names : List String) (v : Json) : Prop := ∃ place, ofSchema names v place = []

theorem ofPart_eq_nil {members : List (String × Json)}
    (h : ofSchema names (.obj members) place = []) {key : String} {v : Json}
    (hv : members.lookup key = some v)
    (hkey : key ∈ "properties" :: singleKeywords ++ listKeywords) :
    ofPart names key v place = [] := by
  rw [ofSchema] at h
  simp only [List.append_eq_nil_iff, List.flatMap_eq_nil_iff] at h
  obtain ⟨⟨⟨⟨-, hproperties⟩, hsingle⟩, hlist⟩, -⟩ := h
  have hreport : (ofParts names members).lookup key = some (ofPart names key v) := by
    rw [lookup_ofParts, hv]
    rfl
  rcases List.mem_append.mp hkey with hkey | hkey
  · rcases List.mem_cons.mp hkey with rfl | hkey
    · have hnone := hproperties _ (List.mem_singleton_self _)
      rwa [hreport] at hnone
    · have hnone := hsingle key hkey
      rwa [hreport] at hnone
  · have hnone := hlist key hkey
    rwa [hreport] at hnone

theorem quiet_of_ofNamed {ps : List (String × Json)} (h : ofNamed names ps place = []) :
    ∀ e ∈ ps, Quiet names e.2 := by
  induction ps with
  | nil => exact List.forall_mem_nil _
  | cons e rest ih =>
    obtain ⟨he, hrest⟩ := List.append_eq_nil_iff.mp h
    exact List.forall_mem_cons.mpr ⟨⟨_, he⟩, ih hrest⟩

theorem quiet_of_ofItems {xs : List Json} {i : Nat} (h : ofItems names xs i place = []) :
    ∀ x ∈ xs, Quiet names x := by
  induction xs generalizing i with
  | nil => exact List.forall_mem_nil _
  | cons x rest ih =>
    obtain ⟨hx, hrest⟩ := List.append_eq_nil_iff.mp h
    exact List.forall_mem_cons.mpr ⟨⟨_, hx⟩, ih hrest⟩

section
variable {v child : Json} {key : String} (h : Quiet names v)
include h

theorem Quiet.part (hv : v.get? key = some child)
    (hkey : key ∈ "properties" :: singleKeywords ++ listKeywords) :
    ∃ place, ofPart names key child place = [] := by
  obtain ⟨place, h⟩ := h
  cases v with
  | obj members => exact ⟨place, ofPart_eq_nil h hv hkey⟩
  | _ => cases hv

theorem Quiet.properties {ps : List (String × Json)} (hv : v.get? "properties" = some (.obj ps)) :
    ∀ e ∈ ps, Quiet names e.2 := by
  obtain ⟨place, hpart⟩ := h.part hv List.mem_cons_self
  exact quiet_of_ofNamed hpart

theorem Quiet.property {properties : Json} (hv : v.get? "properties" = some properties)
    (hchild : properties.get? key = some child) : Quiet names child := by
  cases properties with
  | obj ps => exact h.properties hv _ (Json.mem_of_lookup hchild)
  | _ => cases hchild

theorem Quiet.single (hv : v.get? key = some child) (hkey : key ∈ singleKeywords) :
    Quiet names child := by
  obtain ⟨place, hpart⟩ := h.part hv (List.mem_append_left _ (List.mem_cons_of_mem _ hkey))
  have hplain : ∀ key ∈ singleKeywords, key ≠ "properties" ∧ listKeywords.contains key ≠ true := by
    decide
  obtain ⟨hproperties, hlist⟩ := hplain key hkey
  rw [ofPart, if_neg hproperties, if_neg hlist] at hpart
  exact ⟨_, hpart⟩

theorem Quiet.items {xs : List Json} (hv : v.get? key = some (.arr xs)) (hkey : key ∈ listKeywords) :
    ∀ x ∈ xs, Quiet names x := by
  obtain ⟨place, hpart⟩ := h.part hv (List.mem_append_right _ hkey)
  have hplain : key ≠ "properties" := by
    rintro rfl
    revert hkey
    decide
  rw [ofPart, if_neg hplain, if_pos (List.contains_iff_mem.mpr hkey)] at hpart
  exact quiet_of_ofItems hpart

end

/-! ### Parameters, bodies and responses -/

/-- The validator reports nothing on the schema of a parameter. -/
def QuietSchema (names : List String) (p : Json) : Prop := ∀ s ∈ p.get? "schema", Quiet names s

/-- The validator reports nothing on the schemas of the media types of a body or a response. -/
def QuietContent (names : List String) (owner : Json) : Prop :=
  ∀ content ∈ (owner.get? "content").bind Json.asObject?, ∀ e ∈ content,
    ∀ key ∈ ["schema", "itemSchema"], ∀ s ∈ e.2.get? key, Quiet names s

theorem quietContent_of_ofContent {owner : Json} (h : ofContent names place owner = []) :
    QuietContent names owner := by
  intro content hcontent e he key hkey s hs
  unfold ofContent at h
  rw [hcontent] at h
  have hmedia := List.flatMap_eq_nil_iff.mp (List.flatMap_eq_nil_iff.mp h e he) key hkey
  rw [hs] at hmedia
  exact ⟨_, hmedia⟩

theorem quietSchema_of_ofParameter {p : Json} (h : (ofParameter names place p).2 = [])
    (href : (p.get? "$ref").isSome = false) : QuietSchema names p := by
  intro s hs
  unfold ofParameter at h
  rw [href, hs] at h
  simp only [Bool.false_eq_true, if_false] at h
  refine ⟨_, (?_ : ofSchema names s (place ++ ".schema") = [])⟩
  split at h <;> exact (List.append_eq_nil_iff.mp h).2

/-- A parameter that is not a reference has a quiet schema. -/
theorem quietSchema_of_ofParameters {owner : Json} (h : (ofParameters names place owner).2 = [])
    {ps : List Json} (hps : (owner.get? "parameters").bind Json.asArray? = some ps) :
    ∀ p ∈ ps, (p.get? "$ref").isSome = false → QuietSchema names p := by
  obtain ⟨v, hv, hps⟩ := Option.bind_eq_some_iff.mp hps
  unfold ofParameters at h
  rw [hv] at h
  cases v with
  | arr xs =>
    cases hps
    intro p hp href
    obtain ⟨i, hi, rfl⟩ := List.mem_iff_getElem.mp hp
    have hnone := List.flatMap_eq_nil_iff.mp h _ (List.mem_mapIdx.mpr ⟨i, hi, rfl⟩)
    exact quietSchema_of_ofParameter hnone href
  | _ => cases hps

/-! ### Operations -/

/-- What the validator has looked at in an operation of a path item. A parameter that is a
reference is taken as it is. -/
structure QuietOperation (names : List String) (item op : Json) : Prop where
  parameters : ∀ owner ∈ [item, op], ∀ ps ∈ (owner.get? "parameters").bind Json.asArray?,
    ∀ p ∈ ps, (p.get? "$ref").isSome = false → QuietSchema names p
  body : ∀ b ∈ op.get? "requestBody", QuietContent names b
  responses : ∀ rs ∈ (op.get? "responses").bind Json.asObject?, ∀ r ∈ rs, QuietContent names r.2

theorem collect_eq_nil {α : Type} {check : List String → α → List String × List Violation}
    {xs : List α} {ids : List String} (h : (collect check ids xs).2 = []) :
    ∀ x ∈ xs, ∃ ids, (check ids x).2 = [] := by
  induction xs generalizing ids with
  | nil => exact List.forall_mem_nil _
  | cons x xs ih =>
    obtain ⟨hx, hxs⟩ := List.append_eq_nil_iff.mp h
    exact List.forall_mem_cons.mpr ⟨⟨ids, hx⟩, ih hxs⟩

theorem quietContent_of_ofResponses {op : Json} (h : ofResponses names place op = []) :
    ∀ rs ∈ (op.get? "responses").bind Json.asObject?, ∀ r ∈ rs, QuietContent names r.2 := by
  intro rs hrs r hr
  unfold ofResponses at h
  rw [hrs] at h
  cases rs with
  | nil => cases hr
  | cons first rest =>
    have hresponse := List.flatMap_eq_nil_iff.mp h r hr
    exact quietContent_of_ofContent (List.append_eq_nil_iff.mp hresponse).2

theorem quiet_of_ofOperation {ids : List String} {op : Json}
    (h : (ofOperation names ids place op).2 = []) :
    (∀ b ∈ op.get? "requestBody", QuietContent names b) ∧
      ∀ rs ∈ (op.get? "responses").bind Json.asObject?, ∀ r ∈ rs, QuietContent names r.2 := by
  obtain ⟨hbefore, hresponses⟩ := List.append_eq_nil_iff.mp h
  refine ⟨fun b hb => ?_, quietContent_of_ofResponses hresponses⟩
  have hbody := (List.append_eq_nil_iff.mp hbefore).2
  rw [hb] at hbody
  exact quietContent_of_ofContent hbody

theorem quietOperation_of_ofPathItem {ids : List String} {path : String} {item : Json}
    (h : (ofPathItem names ids path item).2 = []) {m : Method} {members : List (String × Json)}
    (hop : item.get? m.key = some (.obj members)) : QuietOperation names item (.obj members) := by
  cases item with
  | obj keys =>
    unfold ofPathItem at h
    obtain ⟨hbefore, hmethods⟩ := List.append_eq_nil_iff.mp h
    have hshared := (List.append_eq_nil_iff.mp hbefore).2
    obtain ⟨ids, hmethod⟩ := collect_eq_nil hmethods m (Method.mem_all m)
    unfold ofMethod at hmethod
    rw [hop] at hmethod
    obtain ⟨hdeclared, hrest⟩ := List.append_eq_nil_iff.mp hmethod
    obtain ⟨hbody, hresponses⟩ := quiet_of_ofOperation hrest
    refine ⟨List.forall_mem_cons.mpr ⟨fun ps hps => quietSchema_of_ofParameters hshared hps,
      List.forall_mem_singleton.mpr fun ps hps => ?_⟩, hbody, hresponses⟩
    exact quietSchema_of_ofParameters (List.append_eq_nil_iff.mp hdeclared).1 hps
  | _ => cases hop

/-! ### Documents -/

/-- What the validator has looked at in a document. -/
structure QuietDocument (root : Json) (names : List String) : Prop where
  rooted : ∃ members, root = .obj members
  keys : ∀ name ∈ names, isComponentKey name = true
  schemas : ∀ e ∈ componentSchemas root, Quiet names e.2
  operations : ∀ paths ∈ (root.get? "paths").bind Json.asObject?, ∀ e ∈ paths, ∀ m : Method,
    ∀ members, e.2.get? m.key = some (.obj members) → QuietOperation names e.2 (.obj members)

theorem quiet_of_ofDocument {root : Json} (h : ofDocument root = []) :
    QuietDocument root ((componentSchemas root).map (·.1)) := by
  cases root with
  | obj members =>
    obtain ⟨hbefore, hpaths⟩ := List.append_eq_nil_iff.mp h
    obtain ⟨hkeys, hschemas⟩ := List.append_eq_nil_iff.mp (List.append_eq_nil_iff.mp hbefore).2
    refine ⟨⟨members, rfl⟩, fun name hname => ?_, fun e he => ?_, fun paths hget e he m ops hop => ?_⟩
    · have hfilter := List.filter_eq_nil_iff.mp (List.map_eq_nil_iff.mp hkeys) name hname
      simpa using hfilter
    · exact ⟨_, List.flatMap_eq_nil_iff.mp hschemas e he⟩
    · obtain ⟨v, hv, hobject⟩ := Option.bind_eq_some_iff.mp hget
      cases v with
      | obj entries =>
        cases hobject
        unfold ofPaths at hpaths
        rw [hv] at hpaths
        obtain ⟨ids, hitem⟩ := collect_eq_nil hpaths e he
        exact quietOperation_of_ofPathItem hitem hop
      | _ => cases hobject
  | _ => cases h

end TypedApi.OpenApi.Violation
