import TypedApi.OpenApi.Document.Decoding
import TypedApi.OpenApi.Violation
import TypedApi.Proofs.Json.Table
import TypedApi.Proofs.OpenApi.Document
import TypedApi.Proofs.OpenApi.Encoding

/-! What the validator finds in what the encoder writes.

A schema is `Checked` against component names if its references name components, its
required names are declared and its extensions are no keywords. The validator has nothing
to say on a schema all of whose nodes are checked (`ofSchema_encode`), nor on the
parameters, bodies and contents that hold such schemas. -/
namespace TypedApi.OpenApi

open Json.Fields

namespace Schema

/-- A node on which the validator has nothing to say, if its children are sound. -/
structure Checked (names : List String) (s : Schema) : Prop where
  ref : ∀ r ∈ s.ref, ∃ key ∈ names, r = componentRef key
  declared : ∀ required ∈ s.required, ∀ ps ∈ s.properties, ∀ name ∈ required,
    name ∈ ps.map (·.1)
  plain : s.PlainExtensions

end Schema

namespace Violation

/-! ### Schemas -/

variable {names : List String} {place : String}

/-- The report on the member under a key. -/
def ofPart (names : List String) (key : String) (v : Json) : String → List Violation :=
  if key = "properties" then ofProperties names v
  else if listKeywords.contains key then ofList names key v
  else fun place => ofSchema names v (place ++ "." ++ key)

theorem lookup_ofParts (names : List String) (members : List (String × Json)) (key : String) :
    (ofParts names members).lookup key = (members.lookup key).map (ofPart names key) := by
  induction members with
  | nil => rfl
  | cons e rest ih =>
    obtain ⟨k, v⟩ := e
    rw [ofParts, List.lookup_cons, List.lookup_cons, ih]
    by_cases h : key = k
    · subst h
      simp [ofPart]
    · have hb : (key == k) = false := by simpa using h
      rw [hb]

theorem ofSchema_obj_eq_nil {members : List (String × Json)} (href : ofRef names members place = [])
    (hreq : ofRequired members place = []) (hdis : ofDiscriminator members place = [])
    (hparts : ∀ key ∈ "properties" :: singleKeywords ++ listKeywords, ∀ v,
      members.lookup key = some v → ofPart names key v place = []) :
    ofSchema names (.obj members) place = [] := by
  have hreport : ∀ key ∈ "properties" :: singleKeywords ++ listKeywords, ∀ report,
      (ofParts names members).lookup key = some report → report place = [] := by
    intro key hk report hr
    rw [lookup_ofParts] at hr
    obtain ⟨v, hv, rfl⟩ := Option.map_eq_some_iff.mp hr
    exact hparts key hk v hv
  rw [ofSchema]
  simp only [href, hreq, hdis, List.append_eq_nil_iff, List.flatMap_eq_nil_iff, true_and, and_true]
  refine ⟨⟨fun key hk => ?_, fun key hk => ?_⟩, fun key hk => ?_⟩
  all_goals
    split
    · next report hr => exact hreport key (by simp_all) report hr
    · rfl

theorem ofNamed_eq_nil {ps : List (String × Json)}
    (h : ∀ e ∈ ps, ∀ place, ofSchema names e.2 place = []) : ofNamed names ps place = [] := by
  induction ps with
  | nil => rfl
  | cons e rest ih =>
    obtain ⟨name, v⟩ := e
    rw [ofNamed, h (name, v) List.mem_cons_self, ih fun e he => h e (List.mem_cons_of_mem _ he)]
    rfl

theorem ofItems_eq_nil {xs : List Json} (i : Nat)
    (h : ∀ x ∈ xs, ∀ place, ofSchema names x place = []) : ofItems names xs i place = [] := by
  induction xs generalizing i with
  | nil => rfl
  | cons x rest ih =>
    rw [ofItems, h x List.mem_cons_self, ih (i + 1) fun y hy => h y (List.mem_cons_of_mem _ hy)]
    rfl

theorem ofList_listJson {ss : List Schema} (key : String)
    (h : ∀ s ∈ ss, ∀ place, ofSchema names s.encode place = []) :
    ofList names key (listJson Schema.encode ss) place = [] := by
  refine ofItems_eq_nil 0 fun x hx => ?_
  obtain ⟨s, hs, rfl⟩ := List.mem_map.mp hx
  exact h s hs

theorem ofProperties_tableJson {ps : List (String × Schema)}
    (h : ∀ e ∈ ps, ∀ place, ofSchema names e.2.encode place = []) :
    ofProperties names (tableJson Schema.encode ps) place = [] := by
  refine ofNamed_eq_nil fun e he => ?_
  obtain ⟨p, hp, rfl⟩ := List.mem_map.mp he
  exact h p hp

theorem afterPrefixText?_componentRef (key : String) :
    Text.afterPrefixText? componentRoot (componentRef key) = some key := by
  rw [Text.afterPrefixText?, componentRef, String.toList_append, Text.afterPrefix?_append,
    Option.map_some, String.ofList_toList]

section Encoded

variable {s : Schema}

theorem ofRef_encode (h : s.Checked names) :
    ofRef names (ofSlots s.slots ++ s.extensions) place = [] := by
  have hl : (ofSlots s.slots ++ s.extensions).lookup "$ref" = s.ref.map .str :=
    Schema.lookup_slot h.plain (by simp [Schema.slots])
  rw [ofRef, hl]
  cases hr : s.ref with
  | none => rfl
  | some r =>
    obtain ⟨key, hk, rfl⟩ := h.ref r hr
    simp [Json.asString?, afterPrefixText?_componentRef, hk]

theorem ofRequired_encode (h : s.Checked names) :
    ofRequired (ofSlots s.slots ++ s.extensions) place = [] := by
  have hl : (ofSlots s.slots ++ s.extensions).lookup "required" = s.required.map texts :=
    Schema.lookup_slot h.plain (by simp [Schema.slots])
  have hl' : (ofSlots s.slots ++ s.extensions).lookup "properties" =
      s.properties.map (tableJson Schema.encode) :=
    Schema.lookup_slot h.plain (by simp [Schema.slots])
  rw [ofRequired, hl, hl']
  cases hr : s.required with
  | none => rfl
  | some required =>
    cases hp : s.properties with
    | none => rfl
    | some ps =>
      show List.map _ (List.filter _ _) = []
      rw [List.map_eq_nil_iff, List.filter_eq_nil_iff]
      intro name hn
      obtain ⟨v, hv, hname⟩ := List.mem_filterMap.mp hn
      obtain ⟨n, hn, rfl⟩ := List.mem_map.mp hv
      cases hname
      obtain ⟨e, he, rfl⟩ := List.mem_map.mp (h.declared required hr ps hp name hn)
      rw [Bool.not_eq_true, Option.isNone_eq_false_iff, Json.lookup_map, Option.isSome_map,
        Json.lookup_isSome_iff]
      exact List.mem_map.mpr ⟨e, he, rfl⟩

theorem ofDiscriminator_encode (h : s.Checked names) :
    ofDiscriminator (ofSlots s.slots ++ s.extensions) place = [] := by
  have hl : (ofSlots s.slots ++ s.extensions).lookup "discriminator" =
      s.discriminator.map Discriminator.encode :=
    Schema.lookup_slot h.plain (by simp [Schema.slots])
  rw [ofDiscriminator, hl]
  cases s.discriminator with
  | none => rfl
  | some d => simp [Discriminator.encode, Json.get?, List.lookup_append, lookup_always, Json.asString?]

/-- The parts of a schema are its children, as the encoder writes them. -/
theorem ofPart_encode (h : s.Checked names)
    (hc : ∀ c ∈ s.children, ∀ place, ofSchema names c.encode place = []) :
    ∀ key ∈ "properties" :: singleKeywords ++ listKeywords, ∀ v,
      (ofSlots s.slots ++ s.extensions).lookup key = some v → ofPart names key v place = [] := by
  intro key hkey v hv
  simp only [singleKeywords, listKeywords, List.cons_append, List.nil_append, List.mem_cons,
    List.not_mem_nil, or_false] at hkey
  have hat : ∀ {value : Option Json}, (key, value) ∈ s.slots → value = some v := fun hm =>
    (Schema.lookup_slot h.plain hm).symm.trans hv
  have hplaced := Schema.placed hc
  rcases hkey with rfl | rfl | rfl | rfl | rfl | rfl | rfl | rfl | rfl
  · obtain ⟨ps, hps, rfl⟩ : ∃ ps, s.properties = some ps ∧ tableJson Schema.encode ps = v :=
      Option.map_eq_some_iff.mp (hat (by simp [Schema.slots]))
    exact ofProperties_tableJson (hplaced.properties ps hps)
  · obtain ⟨c, hs, rfl⟩ : ∃ c, s.items = some c ∧ c.encode = v :=
      Option.map_eq_some_iff.mp (hat (by simp [Schema.slots]))
    exact hplaced.items c hs _
  · obtain ⟨a, hs, rfl⟩ : ∃ a, s.additional = some a ∧ a.encode = v :=
      Option.map_eq_some_iff.mp (hat (by simp [Schema.slots]))
    cases a with
    | bool b => rfl
    | schema c => exact hplaced.additional (.schema c) hs c rfl _
  · obtain ⟨c, hs, rfl⟩ : ∃ c, s.negated = some c ∧ c.encode = v :=
      Option.map_eq_some_iff.mp (hat (by simp [Schema.slots]))
    exact hplaced.negated c hs _
  · obtain ⟨c, hs, rfl⟩ : ∃ c, s.contentSchema = some c ∧ c.encode = v :=
      Option.map_eq_some_iff.mp (hat (by simp [Schema.slots]))
    exact hplaced.contentSchema c hs _
  · obtain ⟨cs, hs, rfl⟩ : ∃ cs, s.anyOf = some cs ∧ listJson Schema.encode cs = v :=
      Option.map_eq_some_iff.mp (hat (by simp [Schema.slots]))
    exact ofList_listJson _ (hplaced.anyOf cs hs)
  · obtain ⟨cs, hs, rfl⟩ : ∃ cs, s.oneOf = some cs ∧ listJson Schema.encode cs = v :=
      Option.map_eq_some_iff.mp (hat (by simp [Schema.slots]))
    exact ofList_listJson _ (hplaced.oneOf cs hs)
  · obtain ⟨cs, hs, rfl⟩ : ∃ cs, s.allOf = some cs ∧ listJson Schema.encode cs = v :=
      Option.map_eq_some_iff.mp (hat (by simp [Schema.slots]))
    exact ofList_listJson _ (hplaced.allOf cs hs)
  · obtain ⟨cs, hs, rfl⟩ : ∃ cs, s.prefixItems = some cs ∧ listJson Schema.encode cs = v :=
      Option.map_eq_some_iff.mp (hat (by simp [Schema.slots]))
    exact ofList_listJson _ (hplaced.prefixItems cs hs)

/-- The validator has nothing to say on a schema whose nodes are checked. -/
theorem ofSchema_encode (h : s.All (Schema.Checked names)) :
    ∀ place, ofSchema names s.encode place = [] := by
  induction h with
  | @intro s hs _ ih =>
    intro place
    rw [Schema.encode_eq]
    exact ofSchema_obj_eq_nil (ofRef_encode hs) (ofRequired_encode hs)
      (ofDiscriminator_encode hs) (ofPart_encode hs ih)

end Encoded

/-! ### Parameters and contents -/

theorem get?_obj (members : List (String × Json)) (key : String) :
    (Json.obj members).get? key = members.lookup key := rfl

/-- A parameter of a path is required, and its schema is checked. -/
structure CheckedParameter (names : List String) (p : Parameter) : Prop where
  required : p.location = .path → p.required = some true
  schemas : ∀ s ∈ p.schemas, s.All (Schema.Checked names)

theorem ofParameter_encode {p : Parameter} (h : CheckedParameter names p) :
    ofParameter names place p.encode =
      (if p.location = .path then some p.name else none, []) := by
  have href : p.encode.get? "$ref" = none := by
    simp [Parameter.encode, get?_obj, List.lookup_append, lookup_always, lookup_present]
  have hname : p.encode.get? "name" = some (.str p.name) := by
    simp [Parameter.encode, get?_obj, List.lookup_append, lookup_always, lookup_present]
  have hin : p.encode.get? "in" = some (.str p.location.name) := by
    simp [Parameter.encode, get?_obj, List.lookup_append, lookup_always, lookup_present]
  have hreq : p.encode.get? "required" = p.required.map .bool := by
    simp [Parameter.encode, get?_obj, List.lookup_append, lookup_always, lookup_present]
  have hschema : p.encode.get? "schema" = p.schema.map Schema.encode := by
    simp [Parameter.encode, get?_obj, List.lookup_append, lookup_always, lookup_present]
  have hreport : ∀ s ∈ p.schema, ∀ place, ofSchema names s.encode place = [] := fun s hs =>
    ofSchema_encode (h.schemas s (Option.mem_toList.mpr hs))
  unfold ofParameter
  rw [href, hname, hin, hreq, hschema]
  cases hs : p.schema with
  | none =>
    cases hl : p.location with
    | path => simp [h.required hl, Location.name, Json.asString?, Json.asBool?]
    | _ => simp [Location.name, Json.asString?]
  | some s =>
    cases hl : p.location with
    | path => simp [h.required hl, hreport s hs, Location.name, Json.asString?, Json.asBool?]
    | _ => simp [hreport s hs, Location.name, Json.asString?]

theorem mapIdx_map_eq {α β γ : Type} {xs : List α} {k : α → β} {f : Nat → β → γ} {g : α → γ}
    (h : ∀ i, ∀ x ∈ xs, f i (k x) = g x) : (xs.map k).mapIdx f = xs.map g := by
  refine List.ext_getElem? fun i => ?_
  rw [List.getElem?_mapIdx, List.getElem?_map, List.getElem?_map]
  cases hx : xs[i]? with
  | none => rfl
  | some x => exact congrArg some (h i x (List.mem_of_getElem? hx))

theorem ofParameters_encode {owner : Json} {ps : List Parameter}
    (hget : owner.get? "parameters" = if ps = [] then none else some (listJson Parameter.encode ps))
    (h : ∀ p ∈ ps, CheckedParameter names p) :
    ofParameters names place owner = (pathNames ps, []) := by
  unfold ofParameters
  rw [hget]
  split
  · next hnone =>
    split at hnone
    · next hps => rw [hps]; rfl
    · cases hnone
  · next items hsome =>
    split at hsome
    · cases hsome
    · cases hsome
      have hchecked : ∀ i : Nat, ∀ p ∈ ps, ofParameter names (place ++ "[" ++ toString i ++ "]") p.encode =
          (if p.location = .path then some p.name else none, []) := fun i p hp =>
        ofParameter_encode (h p hp)
      dsimp only
      rw [mapIdx_map_eq hchecked, List.filterMap_map, List.flatMap_map]
      refine Prod.ext rfl ?_
      exact List.flatMap_eq_nil_iff.mpr fun _ _ => rfl
  · next v hv hsome =>
    split at hsome
    · cases hsome
    · cases hsome
      exact absurd rfl (hv _)

theorem ofContent_encode {owner : Json} {content : List (String × MediaType)}
    (hget : owner.get? "content" = some (tableJson MediaType.encode content))
    (h : ∀ s ∈ contentSchemas content, s.All (Schema.Checked names)) :
    ofContent names place owner = [] := by
  unfold ofContent
  rw [hget]
  show List.flatMap _ (content.map fun e => (e.1, e.2.encode)) = []
  rw [List.flatMap_eq_nil_iff]
  intro e he
  obtain ⟨⟨mediaType, media⟩, hm, rfl⟩ := List.mem_map.mp he
  have hs : media.encode.get? "schema" = media.schema.map Schema.encode := by
    simp [MediaType.encode, get?_obj, List.lookup_append, lookup_present]
  have hi : media.encode.get? "itemSchema" = media.itemSchema.map Schema.encode := by
    simp [MediaType.encode, get?_obj, List.lookup_append, lookup_present]
  have hsound : ∀ s ∈ media.schemas, ∀ place, ofSchema names s.encode place = [] := fun s hs =>
    ofSchema_encode (h s (List.mem_flatMap.mpr ⟨_, hm, hs⟩))
  simp only [List.flatMap_cons, List.flatMap_nil, List.append_nil, hs, hi, List.append_eq_nil_iff]
  constructor
  · cases hm : media.schema with
    | none => rfl
    | some s => exact hsound s (by simp [MediaType.schemas, hm]) _
  · cases hm : media.itemSchema with
    | none => rfl
    | some s => exact hsound s (by simp [MediaType.schemas, hm]) _

theorem ofContent_of_none {owner : Json} (hget : owner.get? "content" = none) :
    ofContent names place owner = [] := by
  unfold ofContent
  rw [hget]
  rfl

/-! ### Operations -/

/-- The two violations that a document may have although every part of it was checked: a
status outside of the range, and an id that two operations share. -/
def Tolerated (v : Violation) : Prop :=
  v.message = "invalid status code" ∨ ∃ id, v.message = "duplicate operationId '" ++ id ++ "'"

theorem ofResponse_encode {status : String} {r : Response}
    (h : ∀ s ∈ r.schemas, s.All (Schema.Checked names)) :
    ∀ v ∈ ofResponse names place status r.encode, Tolerated v := by
  intro v hv
  have hdesc : r.encode.get? "description" = some (.str r.description) := by
    simp [Response.encode, get?_obj, List.lookup_append, lookup_always]
  have hcontent : r.encode.get? "content" = r.content.map (tableJson MediaType.encode) := by
    simp [Response.encode, get?_obj, List.lookup_append, lookup_always, lookup_present]
  have hnone : ofContent names place r.encode = [] := by
    cases hc : r.content with
    | none => exact ofContent_of_none (by rw [hcontent, hc]; rfl)
    | some content =>
      refine ofContent_encode (by rw [hcontent, hc]; rfl) fun s hs => h s ?_
      rwa [Response.schemas, hc]
  rw [ofResponse, hdesc, hnone] at hv
  simp only [Option.bind_some, Json.asString?, Option.isNone_some, Bool.and_false,
    Bool.false_eq_true, if_false, List.append_nil] at hv
  split at hv
  · cases hv
  · rw [List.mem_singleton.mp hv]
    exact .inl rfl

/-- What is checked of an operation at a path. -/
structure CheckedOperation (names : List String) (path : String) (op : Operation) : Prop where
  parameters : ∀ p ∈ op.parameters, CheckedParameter names p
  declared : ∀ name ∈ templatePlaceholders path, name ∈ pathNames op.parameters
  body : ∀ b ∈ op.requestBody, ∀ s ∈ b.schemas, s.All (Schema.Checked names)
  answered : op.responses ≠ []
  answers : ∀ r ∈ op.responses, ∀ s ∈ r.2.schemas, s.All (Schema.Checked names)

theorem ofResponses_encode {op : Json} {rs : List (String × Response)} (hne : rs ≠ [])
    (hget : op.get? "responses" = some (tableJson Response.encode rs))
    (h : ∀ r ∈ rs, ∀ s ∈ r.2.schemas, s.All (Schema.Checked names)) :
    ∀ v ∈ ofResponses names place op, Tolerated v := by
  intro v hv
  unfold ofResponses at hv
  rw [hget] at hv
  cases rs with
  | nil => exact absurd rfl hne
  | cons r rs =>
    obtain ⟨e, he, hv⟩ := List.mem_flatMap.mp hv
    obtain ⟨⟨status, answer⟩, hm, rfl⟩ : ∃ a ∈ r :: rs, (a.1, a.2.encode) = e :=
      List.mem_map.mp he
    exact ofResponse_encode (h _ hm) v hv

section Operation

variable {path : String} {op : Operation}

theorem get?_operation (key : String) (hk : key ∈ Operation.layout.known)
    (hx : ∀ e ∈ op.extensions, e.1 ∉ Operation.layout.known) : op.extensions.lookup key = none := by
  refine lookup_of_notMem fun hm => ?_
  obtain ⟨e, he, rfl⟩ := List.mem_map.mp hm
  exact hx e he hk

theorem get?_content (b : RequestBody) :
    b.encode.get? "content" = some (tableJson MediaType.encode b.content) := by
  simp [RequestBody.encode, get?_obj, List.lookup_append, lookup_always, lookup_present]

theorem get?_requestBody (hx : ∀ e ∈ op.extensions, e.1 ∉ Operation.layout.known) :
    op.encode.get? "requestBody" = op.requestBody.map RequestBody.encode := by
  simp [Operation.encode, get?_obj, List.lookup_append, lookup_always, lookup_present,
    lookup_nonEmpty, get?_operation "requestBody" (by decide) hx]

theorem get?_parameters (hx : ∀ e ∈ op.extensions, e.1 ∉ Operation.layout.known) :
    op.encode.get? "parameters" =
      if op.parameters = [] then none else some (listJson Parameter.encode op.parameters) := by
  simp [Operation.encode, get?_obj, List.lookup_append, lookup_always, lookup_present,
    lookup_nonEmpty, get?_operation "parameters" (by decide) hx]

theorem get?_responses (op : Operation) :
    op.encode.get? "responses" = some (tableJson Response.encode op.responses) := by
  simp [Operation.encode, get?_obj, List.lookup_append, lookup_always, lookup_present,
    lookup_nonEmpty]

theorem ofOperation_encode (ids : List String) (h : CheckedOperation names path op)
    (hx : ∀ e ∈ op.extensions, e.1 ∉ Operation.layout.known) :
    ∀ v ∈ (ofOperation names ids place op.encode).2, Tolerated v := by
  have hanswers : ∀ v ∈ ofResponses names place op.encode, Tolerated v :=
    ofResponses_encode h.answered (get?_responses op) h.answers
  intro v hv
  unfold ofOperation at hv
  rw [get?_requestBody hx] at hv
  rcases List.mem_append.mp hv with hv | hv
  · rcases List.mem_append.mp hv with hv | hv
    · split at hv
      · cases hv
      · split at hv
        · rw [List.mem_singleton.mp hv]
          exact .inr ⟨_, rfl⟩
        · cases hv
    · cases hb : op.requestBody with
      | none => rw [hb] at hv; cases hv
      | some b =>
        rw [hb] at hv
        have hquiet : ofContent names (place ++ ".requestBody") b.encode = [] :=
          ofContent_encode (get?_content b) (h.body b hb)
        have hv : v ∈ ofContent names (place ++ ".requestBody") b.encode := hv
        rw [hquiet] at hv
        cases hv
  · exact hanswers v hv

end Operation

/-! ### Paths -/

theorem forall_collect {α : Type} {check : List String → α → List String × List Violation}
    {P : Violation → Prop} {xs : List α} (h : ∀ ids, ∀ x ∈ xs, ∀ v ∈ (check ids x).2, P v)
    (ids : List String) : ∀ v ∈ (collect check ids xs).2, P v := by
  induction xs generalizing ids with
  | nil => intro v hv; cases hv
  | cons x xs ih =>
    intro v hv
    rcases List.mem_append.mp hv with hv | hv
    · exact h ids x List.mem_cons_self v hv
    · exact ih (fun ids y hy => h ids y (List.mem_cons_of_mem _ hy)) _ v hv

/-- What is checked of a path item, which shares no parameters. -/
structure CheckedItem (names : List String) (path : String) (item : PathItem) : Prop where
  rooted : path.toList.head? = some '/'
  unshared : item.parameters = []
  operations : ∀ m, ∀ op ∈ item.operation? m, CheckedOperation names path op ∧
    ∀ e ∈ op.extensions, e.1 ∉ Operation.layout.known

theorem key_injective : Function.Injective Method.key := by
  intro m n h
  have hm := Method.keyed?_key m
  rw [h, Method.keyed?_key] at hm
  exact (Option.some.inj hm).symm

theorem key_of_methods {item : PathItem} {ms : List Method} {key : String}
    (h : key ∈ (ms.flatMap fun m => present m.key (item.operation? m) Operation.encode).map (·.1)) :
    ∃ m ∈ ms, key = m.key := by
  obtain ⟨e, he, rfl⟩ := List.mem_map.mp h
  obtain ⟨m, hm, hem⟩ := List.mem_flatMap.mp he
  refine ⟨m, hm, ?_⟩
  cases hop : item.operation? m with
  | none => rw [hop] at hem; cases hem
  | some op => rw [hop] at hem; rw [List.mem_singleton.mp hem]

theorem lookup_methods (item : PathItem) {ms : List Method} (hn : ms.Nodup) (m : Method)
    (hm : m ∈ ms) :
    (ms.flatMap fun m => present m.key (item.operation? m) Operation.encode).lookup m.key =
      (item.operation? m).map Operation.encode := by
  induction ms with
  | nil => cases hm
  | cons n ms ih =>
    obtain ⟨hn', hrest⟩ := List.nodup_cons.mp hn
    rw [List.flatMap_cons, List.lookup_append, lookup_present]
    rcases List.mem_cons.mp hm with rfl | hm
    · rw [if_pos rfl]
      have hnone : (ms.flatMap fun m => present m.key (item.operation? m) Operation.encode).lookup
          m.key = none := by
        refine lookup_of_notMem fun hc => ?_
        obtain ⟨k, hk, hkey⟩ := key_of_methods hc
        exact hn' (key_injective hkey ▸ hk)
      rw [hnone, Option.or_none]
    · have hne : m.key ≠ n.key := fun hc => hn' (key_injective hc ▸ hm)
      rw [if_neg hne, Option.none_or, ih hrest hm]

theorem get?_method (item : PathItem) (m : Method) :
    item.encode.get? m.key = (item.operation? m).map Operation.encode := by
  have hp : m.key ≠ "parameters" := by cases m <;> decide
  rw [PathItem.encode, get?_obj, List.lookup_append, lookup_nonEmpty, if_neg (fun h => hp h.1),
    Option.none_or]
  exact lookup_methods item (by decide) m (Method.mem_all m)

theorem ofMethod_encode {path : String} {item : PathItem} (h : CheckedItem names path item)
    (ids : List String) (m : Method) :
    ∀ v ∈ (ofMethod names [] (templatePlaceholders path) place item.encode ids m).2,
      Tolerated v := by
  intro v hv
  unfold ofMethod at hv
  rw [get?_method] at hv
  cases hop : item.operation? m with
  | none => rw [hop] at hv; cases hv
  | some op =>
    obtain ⟨hc, hx⟩ := h.operations m op hop
    rw [hop] at hv
    obtain ⟨members, hobj⟩ : ∃ members, op.encode = .obj members := ⟨_, rfl⟩
    have hps : ofParameters names (place ++ "." ++ m.key ++ ".parameters") op.encode =
        (pathNames op.parameters, []) := ofParameters_encode (get?_parameters hx) hc.parameters
    have hrest : ∀ v ∈ (ofOperation names ids (place ++ "." ++ m.key) op.encode).2, Tolerated v :=
      ofOperation_encode ids hc hx
    rw [hobj] at hps hrest
    rw [Option.map_some, hobj] at hv
    simp only [hps, List.nil_append] at hv
    rcases List.mem_append.mp hv with hv | hv
    · obtain ⟨name, hn, rfl⟩ := List.mem_map.mp hv
      obtain ⟨hm, hc'⟩ := List.mem_filter.mp hn
      have hd := hc.declared name hm
      simp [hd] at hc'
    · exact hrest v hv

/-- Nothing stands under `parameters` if there are no shared parameters. -/
theorem get?_shared {item : PathItem} (h : item.parameters = []) :
    item.encode.get? "parameters" = none := by
  rw [PathItem.encode, h, get?_obj]
  refine lookup_of_notMem fun hc => ?_
  obtain ⟨m, -, hm⟩ := key_of_methods hc
  cases m <;> revert hm <;> decide

theorem ofPathItem_encode {path : String} {item : PathItem} (h : CheckedItem names path item)
    (ids : List String) : ∀ v ∈ (ofPathItem names ids path item.encode).2, Tolerated v := by
  obtain ⟨members, hobj⟩ : ∃ members, item.encode = .obj members := ⟨_, rfl⟩
  have hget : item.encode.get? "parameters" =
      if ([] : List Parameter) = [] then none else some (listJson Parameter.encode []) :=
    get?_shared h.unshared
  have hps : ofParameters names ("paths." ++ path ++ ".parameters") item.encode = ([], []) :=
    ofParameters_encode hget (List.forall_mem_nil _)
  have hfound : ∀ v ∈ (collect (ofMethod names [] (templatePlaceholders path) ("paths." ++ path)
      item.encode) ids Method.all).2, Tolerated v :=
    forall_collect (fun ids m _ => ofMethod_encode h ids m) ids
  intro v hv
  unfold ofPathItem at hv
  rw [hobj] at hps hfound hv
  simp only [hps, h.rooted, if_true, List.nil_append, List.append_nil] at hv
  exact hfound v hv

/-! ### Documents -/

/-- What is checked of a document. -/
structure CheckedDocument (d : Document) : Prop where
  version : d.openapi = openApiVersion
  plain : ∀ e ∈ d.extensions, e.1 ∉ Document.layout.known
  legal : ∀ c ∈ d.components, ∀ e ∈ c.schemas, isComponentKey e.1 = true
  schemas : ∀ c ∈ d.components, ∀ e ∈ c.schemas,
    e.2.All (Schema.Checked (c.schemas.map (·.1)))
  items : ∀ e ∈ d.paths, CheckedItem ((d.components.getD {}).schemas.map (·.1)) e.1 e.2

theorem get?_document {d : Document} (hx : ∀ e ∈ d.extensions, e.1 ∉ Document.layout.known)
    {key : String} (hk : key ∈ Document.layout.known) : d.extensions.lookup key = none := by
  refine lookup_of_notMem fun hm => ?_
  obtain ⟨e, he, rfl⟩ := List.mem_map.mp hm
  exact hx e he hk

theorem get?_paths (d : Document) :
    d.encode.get? "paths" = some (tableJson PathItem.encode d.paths) := by
  simp [Document.encode, get?_obj, List.lookup_append, lookup_always, lookup_nonEmpty]

theorem componentSchemas_encode {d : Document}
    (hx : ∀ e ∈ d.extensions, e.1 ∉ Document.layout.known) :
    componentSchemas d.encode =
      ((d.components.getD {}).schemas.map fun e => (e.1, e.2.encode)) := by
  have hget : d.encode.get? "components" = d.components.map Components.encode := by
    simp [Document.encode, get?_obj, List.lookup_append, lookup_always, lookup_present,
      lookup_nonEmpty, get?_document hx (by decide : "components" ∈ _)]
  rw [componentSchemas, hget]
  cases d.components with
  | none => rfl
  | some c =>
    have hs : c.encode.get? "schemas" =
        if c.schemas = [] then none else some (tableJson Schema.encode c.schemas) := by
      simp [Components.encode, get?_obj, List.lookup_append, lookup_nonEmpty]
    rw [Option.map_some, Option.bind_some, hs]
    split
    · next hnil => rw [Option.getD_some, hnil]; rfl
    · rfl

/-- The only violations that the validator reports on a checked document are those that are
tolerated. -/
theorem ofDocument_encode {d : Document} (h : CheckedDocument d) :
    ∀ v ∈ ofDocument d.encode, Tolerated v := by
  have hversion : ofVersion d.encode = [] := by
    have hget : d.encode.get? "openapi" = some (.str openApiVersion) := by
      simp [Document.encode, get?_obj, List.lookup_append, lookup_always, h.version]
    rw [ofVersion, hget]
    rfl
  have hinfo : ofInfo d.encode = [] := by
    have hget : d.encode.get? "info" = some d.info.encode := by
      simp [Document.encode, get?_obj, List.lookup_append, lookup_always]
    rw [ofInfo, hget]
    simp [Info.encode, List.lookup_append, lookup_always, Json.asString?]
  have hcomponents : ofComponents d.encode = [] := by
    rw [ofComponents, componentSchemas_encode h.plain, List.map_map]
    cases hc : d.components with
    | none => rfl
    | some c =>
      refine List.append_eq_nil_iff.mpr ⟨?_, ?_⟩
      · rw [List.map_eq_nil_iff, List.filter_eq_nil_iff]
        intro key hk
        obtain ⟨e, he, rfl⟩ := List.mem_map.mp hk
        simpa using h.legal c hc e he
      · rw [List.flatMap_eq_nil_iff]
        intro e he
        obtain ⟨e', he', rfl⟩ := List.mem_map.mp he
        exact ofSchema_encode (h.schemas c hc e' he') _
  have hpaths : ∀ v ∈ ofPaths d.encode, Tolerated v := by
    rw [ofPaths, componentSchemas_encode h.plain, get?_paths, List.map_map]
    refine forall_collect (fun ids e he => ?_) []
    obtain ⟨e', he', rfl⟩ := List.mem_map.mp he
    exact ofPathItem_encode (h.items e' he') ids
  obtain ⟨members, hobj⟩ : ∃ members, d.encode = .obj members := ⟨_, rfl⟩
  intro v hv
  rw [hobj] at hv hversion hinfo hcomponents hpaths
  rw [ofDocument, hversion, hinfo, hcomponents] at hv
  exact hpaths v hv

end Violation
end TypedApi.OpenApi
