import TypedApi.Proofs.TypeScript.Collision
import TypedApi.Proofs.TypeScript.Mentions
import TypedApi.Proofs.TypeScript.Package
import TypedApi.Proofs.TypeScript.Signature

/-! The imports of a controller.

A controller imports the components that its functions refer to, found by a scan of their
signatures. These are the components that the types of its operations mention, under their new names
(`imports_ofApi`), unless a type has a reference that the scan does not see or an exponent that it
takes for one (`unseen_imports`). -/
namespace TypedApi

open Api (Named componentNames)

namespace Api

/-- The types that are written for a request body. -/
def Content.sent : Content → List TypeExpr
  | .json t => [t]
  | .multipart t => [t]
  | _ => []

/-- The types that are written for a response and its events. -/
def Content.received : Content → List TypeExpr
  | .json t => [t]
  | .stream s => s.types
  | _ => []

/-- The types that are written for an operation. A client passes no cookies. -/
def Operation.written (o : Operation) : List TypeExpr :=
  (o.parameters.filter (·.location ≠ .cookie)).map (·.type) ++
    o.body.toList.flatMap (·.content.sent) ++ o.response.received

theorem written_subset_types (o : Operation) : ∀ t ∈ o.written, t ∈ o.types := by
  have hsent : ∀ c : Content, ∀ t ∈ c.sent, t ∈ c.types := fun c t ht => by
    cases c <;> first | exact ht | cases ht
  have hreceived : ∀ c : Content, ∀ t ∈ c.received, t ∈ c.types := fun c t ht => by
    cases c <;> first | exact ht | cases ht
  intro t ht
  rcases List.mem_append.mp ht with ht | ht
  · refine List.mem_append_left _ ?_
    rcases List.mem_append.mp ht with ht | ht
    · obtain ⟨p, hp, rfl⟩ := List.mem_map.mp ht
      exact List.mem_append_left _ (List.mem_map_of_mem (List.mem_of_mem_filter hp))
    · obtain ⟨b, hb, ht⟩ := List.mem_flatMap.mp ht
      exact List.mem_append_right _ (List.mem_flatMap.mpr ⟨b, hb, hsent _ t ht⟩)
  · exact List.mem_append_right _ (hreceived _ t ht)

/-- The written types come from the parts of the argument and from the response. -/
theorem exists_written {o : Operation} {P : TypeExpr → Prop} : (∃ t ∈ o.written, P t) ↔
    (∃ p ∈ o.parameters, p.location = .path ∧ P p.type) ∨
      (∃ p ∈ o.parameters, p.location = .query ∧ P p.type) ∨
        (∃ p ∈ o.parameters, p.location = .header ∧ P p.type) ∨
          (∃ t ∈ o.body.toList.flatMap (·.content.sent), P t) ∨ ∃ t ∈ o.response.received, P t := by
  have hlocation : ∀ location : OpenApi.Location, location ≠ .cookie ↔
      location = .path ∨ location = .query ∨ location = .header := fun location => by
    cases location <;> simp
  have hparameter : (∃ t ∈ (o.parameters.filter (·.location ≠ .cookie)).map (·.type), P t) ↔
      ∃ p ∈ o.parameters,
        (p.location = .path ∨ p.location = .query ∨ p.location = .header) ∧ P p.type := by
    simp only [List.mem_map, exists_exists_and_eq_and]
    simp only [List.mem_filter, decide_eq_true_eq, hlocation, and_assoc]
  simp only [Operation.written, List.mem_append, or_and_right, exists_or, hparameter, and_or_left,
    or_assoc]

/-- The names of the components are identifiers and none of the words that stand in types, and the
types of the operations only refer to components. -/
structure Importable (api : Api) : Prop where
  identifier : ∀ name, Named api.components name → TypeScript.isIdentifier name.toList = true
  plain : ∀ name, Named api.components name → name ∉ TypeScript.printedWords
  closed : ∀ o ∈ api.operations, ∀ t ∈ o.types, TypeExpr.Closed (componentNames api) t

end Api

namespace TypeScript

/-! ### The argument -/

section
variable {s : Scope} {foreign : String × Bool → Prop} {x : String} {ns : String → Prop}

theorem shows_keyed (name : String) (required : Bool) (h : Shows foreign false x ns) :
    Shows foreign false (key name ++ optionalMark required ++ ": " ++ x) ns := by
  have hkeyed := h.keyed name required
  simp only [keyMark_eq, String.append_assoc] at hkeyed ⊢
  exact hkeyed

theorem showAll_parameters? {location : OpenApi.Location} {ps : List Api.Parameter}
    (h : ∀ p ∈ ps, p.location = location → Told s foreign p.type) :
    ShowAll foreign ((s.parameters? location ps).map (·.type)).toList fun n =>
      ∃ p ∈ ps, p.location = location ∧ s.Mentions n p.type := by
  have hkeyed : ∀ p ∈ ps.filter (·.location = location), Shows foreign false
      (key p.name ++ optionalMark p.required ++ ": " ++ s.type p.type)
      fun n => s.Mentions n p.type := by
    intro p hp
    obtain ⟨hmem, hlocation⟩ := List.mem_filter.mp hp
    exact shows_keyed p.name p.required (h p hmem (of_decide_eq_true hlocation)).plain
  have hnames : ∀ n, (∃ p ∈ ps.filter (·.location = location), s.Mentions n p.type) ↔
      ∃ p ∈ ps, p.location = location ∧ s.Mentions n p.type := fun n => by
    simp only [List.mem_filter, decide_eq_true_eq, and_assoc]
  refine ShowAll.congr ?_ hnames
  unfold Scope.parameters?
  generalize ps.filter (·.location = location) = qs at hkeyed
  cases qs with
  | nil => exact ShowAll.nil.congr fun n => by simp
  | cons q qs => exact (ShowAll.map hkeyed).braces.showAll

/-- The argument mentions what its parts do. -/
theorem showAll_inputType? {parts : List (String × Option Part)} (hkey : ∀ e ∈ parts, key e.1 = e.1)
    (h : ShowAll foreign (parts.flatMap fun e => (e.2.map (·.type)).toList) ns) :
    ShowAll foreign (inputType? (present parts)).toList ns := by
  have hpresent : ∀ e : String × Part, e ∈ present parts ↔ (e.1, some e.2) ∈ parts := by
    intro e
    simp only [present, List.mem_filterMap, Option.map_eq_some_iff]
    constructor
    · rintro ⟨⟨name, part⟩, he, p, rfl, rfl⟩
      exact he
    · exact fun he => ⟨_, he, e.2, rfl, rfl⟩
  have hmember : ∀ e ∈ present parts, e.2.type ∈ parts.flatMap fun e => (e.2.map (·.type)).toList :=
    fun e he => List.mem_flatMap.mpr ⟨_, (hpresent e).mp he, List.mem_singleton.mpr rfl⟩
  have hkeyed : ∀ e ∈ present parts, Shows foreign false
      (e.1 ++ optionalMark e.2.required ++ ": " ++ e.2.type) (mentions foreign e.2.type) := by
    intro e he
    have hshows := shows_keyed e.1 e.2.required (h.transparent _ (hmember e he))
    rwa [hkey _ ((hpresent e).mp he)] at hshows
  have hnames : ∀ n, (∃ e ∈ present parts, mentions foreign e.2.type n) ↔ ns n := by
    intro n
    rw [← h.mentioned]
    constructor
    · rintro ⟨e, he, hn⟩
      exact ⟨_, hmember e he, hn⟩
    · rintro ⟨x, hx, hn⟩
      obtain ⟨⟨name, part⟩, he, hx⟩ := List.mem_flatMap.mp hx
      obtain ⟨p, rfl, rfl⟩ := Option.map_eq_some_iff.mp (Option.mem_toList.mp hx)
      exact ⟨(name, p), (hpresent _).mpr he, hn⟩
  refine ShowAll.congr ?_ hnames
  unfold inputType?
  split
  · next hempty =>
    rw [List.isEmpty_iff.mp hempty]
    exact ShowAll.nil.congr fun n => by simp
  · exact (ShowAll.map hkeyed).braces.showAll

end

/-! ### The result -/

theorem shows_event {s : Scope} {foreign : String × Bool → Prop} {t : TypeExpr} (name : String)
    (hstring : foreign ("string", false)) (h : Told s foreign t) :
    Shows foreign false (s.event name t) fun n => s.Mentions n t := by
  have hkeys : "event: " = key "event" ++ keyMark true ∧ "data: " = key "data" ++ keyMark true ∧
      "id?: string" = key "id" ++ (keyMark false ++ "string") := by decide
  have hname : Shows foreign false ("event: " ++ quoted name) fun _ => False := by
    rw [hkeys.1, String.append_assoc]
    exact (shows_mute (mute_quoted name)).keyed "event" true
  have hdata : Shows foreign false ("data: " ++ s.type t) fun n => s.Mentions n t := by
    rw [hkeys.2.1, String.append_assoc]
    exact h.plain.keyed "data" true
  have hid : Shows foreign false "id?: string" fun _ => False := by
    rw [hkeys.2.2]
    exact (shows_foreign (by decide) hstring).keyed "id" false
  exact ((hname.showAll.append (hdata.showAll.append hid.showAll)).braces).congr fun n => by simp

namespace Vocabulary
variable {s : Scope} {known : String → Prop} {foreign : String × Bool → Prop}
  (hv : Vocabulary s known foreign)
include hv

theorem showAll_body? {b : Api.Body} (h : ∀ t ∈ b.content.sent, Told s foreign t) :
    ShowAll foreign (((s.body? b).map (·.1)).map (·.type)).toList fun n =>
      ∃ t ∈ b.content.sent, s.Mentions n t := by
  obtain ⟨content, required⟩ := b
  cases content with
  | json t => exact (h t List.mem_cons_self).plain.showAll.congr fun n => by simp [Api.Content.sent]
  | multipart t =>
    exact (h t List.mem_cons_self).plain.showAll.congr fun n => by simp [Api.Content.sent]
  | binary =>
    have hblob : Shows foreign false (s.builtin "Blob") fun _ => False :=
      hv.shows_builtin (by decide) (by decide)
    exact hblob.showAll.congr fun n => by simp [Api.Content.sent]
  | text =>
    have hstring : Shows foreign false "string" fun _ => False := hv.shows_reserved (by decide)
    exact hstring.showAll.congr fun n => by simp [Api.Content.sent]
  | empty => exact ShowAll.nil.congr fun n => by simp [Api.Content.sent]
  | stream _ => exact ShowAll.nil.congr fun n => by simp [Api.Content.sent]

/-- A stream mentions what its events do. -/
theorem showAll_eventStream {x : String} {ns : String → Prop} (h : Shows foreign false x ns) :
    ShowAll foreign ((eventStream x).event.toList ++ [(eventStream x).type]) ns := by
  have hstream : Shows foreign false ("AsyncIterable" ++ "<" ++ x ++ ">") ns :=
    h.applied (by decide) fun _ => hv.reserved _ (by decide) true
  exact (h.showAll.append hstream.showAll).congr fun n => or_self_iff

theorem showAll_result {c : Api.Content} (h : ∀ t ∈ c.received, Told s foreign t) :
    ShowAll foreign ((s.result c).event.toList ++ [(s.result c).type]) fun n =>
      ∃ t ∈ c.received, s.Mentions n t := by
  have hword : ∀ w ∈ printedWords, ShowAll foreign [w] fun _ => False := fun w hw =>
    Shows.showAll (hv.shows_reserved hw)
  have hbuiltin : ∀ name ∈ ["Blob", "FormData", "Uint8Array"],
      Shows foreign false (s.builtin name) fun _ => False := by
    have hglobal : ∀ name ∈ ["Blob", "FormData", "Uint8Array"],
        name ∈ globalTypes ∧ isIdentifier name.toList = true := by decide
    exact fun name hname => hv.shows_builtin (hglobal name hname).1 (hglobal name hname).2
  cases c with
  | empty => exact (hword "void" (by decide)).congr fun n => by simp [Api.Content.received]
  | json t =>
    exact (h t List.mem_cons_self).plain.showAll.congr fun n => by simp [Api.Content.received]
  | text => exact (hword "string" (by decide)).congr fun n => by simp [Api.Content.received]
  | binary =>
    exact (hbuiltin "Blob" (by decide)).showAll.congr fun n => by simp [Api.Content.received]
  | multipart t =>
    exact (hbuiltin "FormData" (by decide)).showAll.congr fun n => by simp [Api.Content.received]
  | stream stream =>
    cases stream with
    | raw =>
      have hbytes : Shows foreign false ("ReadableStream" ++ "<" ++ s.builtin "Uint8Array" ++ ">")
          fun _ => False :=
        (hbuiltin "Uint8Array" (by decide)).applied (by decide) fun _ => hv.applied _ (by decide)
      exact hbytes.showAll.congr fun n => by simp [Api.Content.received, Api.Stream.types]
    | typed t =>
      have happlied : Shows foreign true ("ServerSentEvent" ++ "<" ++ s.type t ++ ">") _ :=
        (h t List.mem_cons_self).plain.applied (by decide) fun hdot => absurd hdot (by decide)
      have hmember : Shows foreign false ("sse" ++ "." ++ _) _ :=
        happlied.member (by decide) (hv.reserved _ (by decide) false)
      have hsplit : "sse.ServerSentEvent<" = "sse" ++ "." ++ ("ServerSentEvent" ++ "<") := rfl
      have hevent : Shows foreign false ("sse.ServerSentEvent<" ++ s.type t ++ ">")
          fun n => s.Mentions n t := by
        rw [hsplit]
        simpa only [String.append_assoc] using hmember
      exact (hv.showAll_eventStream hevent).congr fun n => by
        simp [Api.Content.received, Api.Stream.types]
    | events es =>
      cases es with
      | nil =>
        have hnever : Shows foreign false "never" fun _ => False := hv.shows_reserved (by decide)
        exact (hv.showAll_eventStream hnever).congr fun n => by
          simp [Api.Content.received, Api.Stream.types]
      | cons e es =>
        have hevents : ∀ e' ∈ e :: es, Shows foreign false (s.event e'.1 e'.2)
            fun n => s.Mentions n e'.2 := fun e' he' =>
          shows_event e'.1 (hv.reserved _ (by decide) false) (h e'.2 (List.mem_map_of_mem he'))
        have hjoined : Shows foreign false (String.intercalate " | " _) _ :=
          (ShowAll.map hevents).intercalate (by decide) (by decide)
        refine (hv.showAll_eventStream hjoined).congr fun n => ?_
        simp only [Api.Content.received, Api.Stream.types, List.mem_map, exists_exists_and_eq_and]

/-- The texts that are scanned mention what the types of the operation do. -/
theorem showAll_mentioned {o : Api.Operation} (h : ∀ t ∈ o.written, Told s foreign t) :
    ShowAll foreign (Controller.mentioned (s.signature o)) fun n =>
      ∃ t ∈ o.written, s.Mentions n t := by
  have hparameters : ∀ location, location ≠ .cookie →
      ∀ p ∈ o.parameters, p.location = location → Told s foreign p.type := by
    rintro location hlocation p hp rfl
    refine h _ (List.mem_append_left _ (List.mem_append_left _ (List.mem_map_of_mem ?_)))
    exact List.mem_filter.mpr ⟨hp, decide_eq_true hlocation⟩
  have hbody : ShowAll foreign (((o.body.bind s.body?).map (·.1)).map (·.type)).toList fun n =>
      ∃ t ∈ o.body.toList.flatMap (·.content.sent), s.Mentions n t := by
    cases hb : o.body with
    | none => exact ShowAll.nil.congr fun n => by simp
    | some b =>
      have hsent : ∀ t ∈ b.content.sent, Told s foreign t := fun t ht => by
        refine h t (List.mem_append_left _ (List.mem_append_right _ ?_))
        simpa [hb] using ht
      exact (hv.showAll_body? hsent).congr fun n => by simp
  have hresult := hv.showAll_result fun t ht => h t (List.mem_append_right _ ht)
  have hkeys : ∀ e ∈ s.parts o, key e.1 = e.1 := by
    have hnames : ∀ name ∈ ["path", "query", "headers", "body"], key name = name := by decide
    exact fun e he => hnames e.1 (List.mem_map_of_mem (f := (·.1)) he)
  have hparts : ShowAll foreign ((s.parts o).flatMap fun e => (e.2.map (·.type)).toList) _ :=
    (showAll_parameters? (hparameters .path (by decide))).append
      ((showAll_parameters? (hparameters .query (by decide))).append
        ((showAll_parameters? (hparameters .header (by decide))).append (hbody.append .nil)))
  have hall := (showAll_inputType? hkeys hparts).append hresult
  rw [Controller.mentioned, Scope.signature_eq, List.append_assoc]
  exact hall.congr fun n => by simp only [Api.exists_written, or_false, or_assoc]

end Vocabulary

/-! ### References -/

theorem Controller.mem_imports (c : Controller) (components : List String) (name : String) :
    name ∈ c.imports components ↔
      ∃ s ∈ c.signatures, ∃ x ∈ mentioned s, name ∈ references x ∧ name ∈ components := by
  rw [imports, TypeExpr.sorted, List.mem_mergeSort, List.mem_eraseDups, List.mem_filter,
    List.contains_iff_mem, List.mem_flatMap]
  simp only [List.mem_flatMap]
  constructor
  · rintro ⟨⟨x, ⟨s, hs, hx⟩, hname⟩, hcomponent⟩
    exact ⟨s, hs, x, hx, hname, hcomponent⟩
  · rintro ⟨s, hs, x, hx, hname, hcomponent⟩
    exact ⟨⟨x, ⟨s, hs, hx⟩, hname⟩, hcomponent⟩

namespace Client
variable {api : Api}

/-- A mark that is not a component under its new name. -/
def Foreign (api : Api) (m : String × Bool) : Prop :=
  renamedMark (ofApi api).renames m ∉ componentNames (ofApi api).api

/-- A component without an underscore at its end has kept its name, and that of no global type. -/
theorem named_of_mem {name : String} (hlast : name.toList.getLast? ≠ some '_')
    (h : name ∈ componentNames (ofApi api).api) :
    Named api.components name ∧ name ∉ globalTypes := by
  obtain ⟨taken, hf⟩ := fresh_renames api
  obtain ⟨n, hnamed, hnew⟩ := mem_componentNames.mp h
  obtain rfl := hf.eq_of_newName hlast hnew
  exact ⟨hnamed, hnew ▸ newName_notMem_globalTypes hnamed⟩

theorem vocabulary (h : api.Importable) : Vocabulary (scope api (ofApi api).renames)
    (Named api.components) (Foreign api) := by
  obtain ⟨taken, hf⟩ := fresh_renames api
  have hprinted : ∀ w ∈ printedWords, w ∉ globalTypes ∧ w.toList.getLast? ≠ some '_' := by decide
  have hkept : ∀ w, (ofApi api).renames.lookup w = none → newName (ofApi api).renames w = w :=
    fun w hw => by rw [newName, hw]; rfl
  have hordinary : ∀ w, w ∉ globalTypes → newName (ofApi api).renames w = w := fun w hw =>
    (hf.newName_cases w).resolve_right fun hnew => hw hnew.1
  have hforeign : ∀ w applied, w.toList.getLast? ≠ some '_' →
      newName (ofApi api).renames w = w → ¬ (Named api.components w ∧ w ∉ globalTypes) →
      Foreign api (w, applied) := by
    intro w applied hlast hname hnot hmem
    have hmark : renamedMark (ofApi api).renames (w, applied) = w := by
      cases applied
      · exact hname
      · rfl
    exact hnot (named_of_mem hlast (hmark ▸ hmem))
  refine ⟨fun w hw applied => ?_, fun w hw hmem => ?_, fun w hw hnone => ?_, fun he => ?_,
    h.identifier, fun name hname hforeign => hforeign ?_, fun t name => Api.Index.named_of_find?⟩
  · obtain ⟨hglobal, hlast⟩ := hprinted w hw
    exact hforeign w applied hlast (hordinary w hglobal) fun hn => h.plain w hn.1 hw
  · exact (named_of_mem (getLast?_globalTypes w hw) hmem).2 hw
  · exact hforeign w false (getLast?_globalTypes w hw) (hkept w hnone) fun hn => hn.2 hw
  · exact hforeign "e" false (by decide) (hordinary "e" (by decide)) fun hn => he hn.1
  · exact mem_componentNames.mpr ⟨name, hname, rfl⟩

/-- The components that a renamed text refers to are those that the text mentions. -/
theorem references_renamed_iff {x : String} (h : Transparent (Foreign api) x) (name : String) :
    (name ∈ references (renamed (ofApi api).renames x) ∧ name ∈ componentNames (ofApi api).api) ↔
      ∃ n, mentions (Foreign api) x n ∧ newName (ofApi api).renames n = name := by
  obtain ⟨taken, hf⟩ := fresh_renames api
  rw [references_renamed hf.isIdentifier_new, List.mem_map]
  constructor
  · rintro ⟨⟨⟨n, applied⟩, hm, rfl⟩, hcomponent⟩
    have hown : ¬ Foreign api (n, applied) := fun hforeign => hforeign hcomponent
    obtain rfl : applied = false := ((h.tells.sound _ hm).resolve_left hown).1
    exact ⟨n, ⟨hm, hown⟩, rfl⟩
  · rintro ⟨n, ⟨hm, hown⟩, rfl⟩
    exact ⟨⟨(n, false), hm, rfl⟩, not_not.mp hown⟩

theorem Calls.mentioned {o : Api.Operation} {f : Signature} (h : Calls api o f) :
    Controller.mentioned f = (Controller.mentioned ((scope api (ofApi api).renames).signature o)).map
      (renamed (ofApi api).renames) := by
  obtain ⟨n, rfl⟩ := h
  simp [Controller.mentioned, Signature.mapTypes, Signature.number, Option.toList_map]

/-- A function refers to the components that the types of its operation mention. -/
theorem Calls.refers_iff (h : api.Importable) {o : Api.Operation} {f : Signature}
    (hf : Calls api o f) (ho : o ∈ api.operations)
    (hseen : ∀ t ∈ o.written,
      (scope api (ofApi api).renames).AllSeen (Named api.components) t) (name : String) :
    (∃ x ∈ Controller.mentioned f,
        name ∈ references x ∧ name ∈ componentNames (ofApi api).api) ↔
      ∃ t ∈ o.written, ∃ n, (scope api (ofApi api).renames).Mentions n t ∧
        newName (ofApi api).renames n = name := by
  have htold : ∀ t ∈ o.written, Told _ (Foreign api) t := fun t ht =>
    (vocabulary h).told (h.closed o ho t (Api.written_subset_types o t ht)) (hseen t ht)
  have hshow := (vocabulary h).showAll_mentioned htold
  rw [hf.mentioned]
  constructor
  · rintro ⟨y, hy, hname⟩
    obtain ⟨x, hx, rfl⟩ := List.mem_map.mp hy
    obtain ⟨n, hn, hnew⟩ := (references_renamed_iff (hshow.transparent x hx) name).mp hname
    obtain ⟨t, ht, hm⟩ := (hshow.mentioned n).mp ⟨x, hx, hn⟩
    exact ⟨t, ht, n, hm, hnew⟩
  · rintro ⟨t, ht, n, hm, hnew⟩
    obtain ⟨x, hx, hn⟩ := (hshow.mentioned n).mpr ⟨t, ht, hm⟩
    exact ⟨_, List.mem_map_of_mem hx,
      (references_renamed_iff (hshow.transparent x hx) name).mpr ⟨n, hn, hnew⟩⟩

theorem exists_iff_of_forall₂ {α β : Type} {R : α → β → Prop} {P : α → Prop} {Q : β → Prop}
    {as : List α} {bs : List β} (h : List.Forall₂ R as bs)
    (hiff : ∀ a ∈ as, ∀ b, R a b → (Q b ↔ P a)) : (∃ b ∈ bs, Q b) ↔ ∃ a ∈ as, P a := by
  induction h with
  | nil => simp
  | cons hab _ ih =>
    obtain ⟨ha, has⟩ := List.forall_mem_cons.mp hiff
    simp only [List.mem_cons, exists_eq_or_imp, ha _ hab, ih has]

/-- A controller imports the components that the types of its operations mention, and no others. -/
theorem imports_ofApi (api : Api) (h : api.Importable) :
    let client := ofApi api
    let s := scope api client.renames
    ∀ c ∈ client.controllers,
      (∀ o ∈ api.operations, kebabCase o.controller = c.name →
        ∀ t ∈ o.written, s.AllSeen (Named api.components) t) →
      ∀ name, name ∈ c.imports (componentNames client.api) ↔
        ∃ o ∈ api.operations, kebabCase o.controller = c.name ∧
          ∃ t ∈ o.written, ∃ n, s.Mentions n t ∧ newName client.renames n = name := by
  intro client s c hc hseen name
  have hown : ∀ o, o ∈ api.operations.filter (fun o => kebabCase o.controller = c.name) ↔
      o ∈ api.operations ∧ kebabCase o.controller = c.name := fun o => by
    rw [List.mem_filter, decide_eq_true_eq]
  have hrefers := exists_iff_of_forall₂ (functions_of_controller hc) fun o ho f hf =>
    hf.refers_iff h ((hown o).mp ho).1 (hseen o ((hown o).mp ho).1 ((hown o).mp ho).2) name
  simp only [hown, and_assoc] at hrefers
  exact (c.mem_imports _ name).trans hrefers

/-- A component in a list, written out and in an event, and one that is not mentioned. -/
def recordStore : Api where
  components := [("Record", { type := .single "a" .string }), ("Pet", { type := .single "b" .string })]
  operations := [{ name := "watch", method := .post, path := "/x", controller := "x",
                   parameters := [{ name := "known", location := .query, required := false,
                                    type := .array (.ref "Record") }],
                   body := some { content := .json (.single "a" .string), required := true },
                   response := .stream (.events [("added", .ref "Record")]) }]

theorem importable_recordStore : recordStore.Importable := by
  have hnames : ∀ name ∈ ["Record", "Pet"],
      isIdentifier name.toList = true ∧ name ∉ printedWords := by decide
  have hrecord : TypeExpr.Closed (componentNames recordStore) (.ref "Record") :=
    TypeExpr.all_of_childless rfl List.mem_cons_self
  have hstring : TypeExpr.Closed (componentNames recordStore) .string :=
    TypeExpr.all_of_childless rfl trivial
  exact {
    identifier name hname := (hnames name hname).1
    plain name hname := (hnames name hname).2
    closed := List.forall_mem_singleton.mpr (List.forall_mem_cons.mpr
      ⟨.intro trivial (List.forall_mem_singleton.mpr hrecord), List.forall_mem_cons.mpr
        ⟨.intro trivial (List.forall_mem_singleton.mpr hstring),
          List.forall_mem_singleton.mpr hrecord⟩⟩) }

theorem imports_ofApi_recordStore :
    let client := ofApi recordStore
    let s := scope recordStore client.renames
    let Seen := fun c : Controller => ∀ o ∈ recordStore.operations, kebabCase o.controller = c.name →
      ∀ t ∈ o.written, s.AllSeen (Named recordStore.components) t
    (recordStore.Importable ∧ ∀ c ∈ client.controllers, Seen c) ∧
      client.controllers.map (·.imports (componentNames client.api)) = [["Record_"]] ∧
      ∀ c ∈ client.controllers, ∀ name, name ∈ c.imports (componentNames client.api) ↔
        ∃ o ∈ recordStore.operations, kebabCase o.controller = c.name ∧
          ∃ t ∈ o.written, ∃ n, s.Mentions n t ∧ newName client.renames n = name := by
  intro client s Seen
  have hrecord : s.AllSeen (Named recordStore.components) (.ref "Record") :=
    .written (s.find?_of_hasMembers rfl) trivial (List.forall_mem_nil _)
  have hlist : s.AllSeen (Named recordStore.components) (.array (.ref "Record")) :=
    .written (s.find?_of_hasMembers rfl) trivial (List.forall_mem_singleton.mpr hrecord)
  have hfound : s.index.find? (.single "a" .string) = some "Record" := by decide +kernel
  have hseen : ∀ c ∈ client.controllers, Seen c := by
    intro c _ o ho _
    obtain rfl := List.mem_singleton.mp ho
    exact List.forall_mem_cons.mpr ⟨hlist, List.forall_mem_cons.mpr ⟨.found hfound,
      List.forall_mem_singleton.mpr hrecord⟩⟩
  exact ⟨⟨importable_recordStore, hseen⟩, by decide +kernel, fun c hc =>
    imports_ofApi recordStore importable_recordStore c hc (hseen c hc)⟩

/-- A component, and an operation whose answer is of the given type. -/
def answering (component : String) (t : TypeExpr) : Api where
  components := [(component, { type := .single "a" .string })]
  operations := [{ name := "list", method := .get, path := "/x", controller := "x",
                   response := .json t }]

theorem importable_answering {component : String} {t : TypeExpr}
    (hname : isIdentifier component.toList = true) (hplain : component ∉ printedWords)
    (ht : TypeExpr.Closed [component] t) : (answering component t).Importable where
  identifier name h := by rwa [List.mem_singleton.mp h]
  plain name h := by rwa [List.mem_singleton.mp h]
  closed := List.forall_mem_singleton.mpr (List.forall_mem_singleton.mpr ht)

/-- The rest of a tuple mentions a component that is not imported, and a number with an exponent
imports a component that it does not mention. -/
theorem unseen_imports :
    let rest : TypeExpr := .tuple [.string] (some (.ref "Pet"))
    let number : TypeExpr := .const (.num (.real ⟨false, 1, 300⟩))
    let imports := fun api : Api =>
      (ofApi api).controllers.map (·.imports (componentNames (ofApi api).api))
    let s := fun api : Api => scope api (ofApi api).renames
    ((answering "Pet" rest).Importable ∧ (s (answering "Pet" rest)).Mentions "Pet" rest ∧
      imports (answering "Pet" rest) = [[]]) ∧
    ((answering "e" number).Importable ∧ (∀ n, ¬ (s (answering "e" number)).Mentions n number) ∧
      imports (answering "e" number) = [["e"]]) := by
  intro rest number imports s
  have hrest : TypeExpr.Closed ["Pet"] rest := .intro trivial (List.forall_mem_cons.mpr
    ⟨TypeExpr.all_of_childless rfl trivial, List.forall_mem_singleton.mpr
      (TypeExpr.all_of_childless rfl List.mem_cons_self)⟩)
  have hmentions : (s (answering "Pet" rest)).Mentions "Pet" rest :=
    .child (Scope.find?_of_hasMembers _ rfl) (List.mem_cons_of_mem _ List.mem_cons_self) .ref
  have hnone : ∀ n, ¬ (s (answering "e" number)).Mentions n number := fun n hn => by
    obtain ⟨c, hc, -⟩ := (Scope.mentions_iff (t := number) rfl rfl).mp hn
    cases hc
  refine ⟨⟨importable_answering (by decide) (by decide) hrest, hmentions, ?_⟩,
    importable_answering (by decide) (by decide) (TypeExpr.all_of_childless rfl trivial), hnone, ?_⟩
  · decide +kernel
  · decide +kernel

end Client
end TypeScript
end TypedApi
