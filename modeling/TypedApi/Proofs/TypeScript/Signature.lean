import TypedApi.Proofs.Api.Types
import TypedApi.Proofs.TypeScript.Global
import TypedApi.Proofs.TypeScript.Renaming

/-! Signatures of renamed operations.

A signature puts the texts of types together, and every text that it makes of exchanged texts is
exchanged in turn. So the names of a signature can be renamed in its texts, or the signature written
over the renamed operation (`mapTypes_signature`). -/
namespace TypedApi
namespace TypeScript

/-! ### Parts of the argument -/

/-- The types of two parts are exchanged, and both are required or neither is. -/
structure Part.Exchanged (s : Swap) (p q : Part) : Prop where
  type : s.Exchanges false p.type q.type
  required : p.required = q.required

variable {f : String → String} {s : Swap} {old new : Scope}

theorem keyMark_eq (required : Bool) : keyMark required = optionalMark required ++ ": " := by
  cases required <;> rfl

theorem exchanges_keyed {x y : String} (name : String) (required : Bool)
    (h : s.Exchanges false x y) :
    s.Exchanges false (key name ++ optionalMark required ++ ": " ++ x)
      (key name ++ optionalMark required ++ ": " ++ y) := by
  have hkeyed := h.keyed name required
  simp only [keyMark_eq, String.append_assoc] at hkeyed ⊢
  exact hkeyed

theorem parameters?_rename (location : OpenApi.Location) {ps : List Api.Parameter}
    (h : ∀ p ∈ ps, Agrees f s old new p.type) :
    Option.Rel (Part.Exchanged s) (old.parameters? location ps)
      (new.parameters? location (ps.map fun p => { p with type := p.type.rename f })) := by
  have hfilter : ∀ p ∈ ps.filter (·.location = location), Agrees f s old new p.type := fun p hp =>
    h p (List.mem_of_mem_filter hp)
  unfold Scope.parameters?
  rw [List.filter_map]
  simp only [Function.comp_def]
  generalize ps.filter (·.location = location) = qs at hfilter ⊢
  cases qs with
  | nil => exact .none
  | cons p qs =>
    refine .some ⟨?_, ?_⟩
    · dsimp only
      rw [List.map_map]
      exact Swap.Exchanges.braces (Swap.Exchanges.map fun q hq =>
        exchanges_keyed q.name q.required (hfilter q hq).plain)
    · dsimp only
      rw [List.any_map]
      rfl

theorem body?_rename {known : String → Prop} (hr : Renaming known f s old new) {b : Api.Body}
    (h : ∀ t ∈ b.content.types, Agrees f s old new t) :
    Option.Rel (fun p q => Part.Exchanged s p.1 q.1 ∧ p.2 = q.2) (old.body? b)
      (new.body? { b with content := b.content.rename f }) := by
  obtain ⟨content, required⟩ := b
  cases content with
  | json t => exact .some ⟨⟨(h t List.mem_cons_self).plain, rfl⟩, rfl⟩
  | multipart t => exact .some ⟨⟨(h t List.mem_cons_self).plain, rfl⟩, rfl⟩
  | binary => exact .some ⟨⟨hr.exchanges_builtin (by decide) (by decide), rfl⟩, rfl⟩
  | text =>
    have hstill : Still "string" := by decide
    exact .some ⟨⟨Swap.Exchanges.still hstill, rfl⟩, rfl⟩
  | empty => exact .none
  | stream _ => exact .none

/-- A part under its name, which is a key as it stands. -/
structure Part.ExchangedAs (s : Swap) (p q : String × Part) : Prop where
  name : p.1 = q.1
  key : key p.1 = p.1
  part : Part.Exchanged s p.2 q.2

theorem present_exchanged {ps qs : List (String × Option Part)}
    (h : List.Forall₂ (fun p q => p.1 = q.1 ∧ key p.1 = p.1 ∧
      Option.Rel (Part.Exchanged s) p.2 q.2) ps qs) :
    List.Forall₂ (Part.ExchangedAs s) (present ps) (present qs) := by
  refine List.rel_filterMap ?_ h
  rintro ⟨name, p⟩ ⟨_, q⟩ ⟨rfl, hkey, hpq⟩
  cases hpq with
  | none => exact .none
  | some hpq => exact .some ⟨rfl, hkey, hpq⟩

theorem inputType?_exchanged {ps qs : List (String × Part)}
    (h : List.Forall₂ (Part.ExchangedAs s) ps qs) :
    Option.Rel (s.Exchanges false) (inputType? ps) (inputType? qs) := by
  have hparts := TypeExpr.forall₂_map (S := s.Exchanges false)
    (f := fun p => p.1 ++ optionalMark p.2.required ++ ": " ++ p.2.type)
    (g := fun q => q.1 ++ optionalMark q.2.required ++ ": " ++ q.2.type) h fun p _ q hpq => by
      have hkeyed := exchanges_keyed p.1 p.2.required hpq.part.type
      rw [hpq.key] at hkeyed
      rwa [← hpq.name, ← hpq.part.required]
  cases h with
  | nil => exact .none
  | cons _ _ => exact .some (Swap.Exchanges.braces hparts)

theorem all_optional_eq {ps qs : List (String × Part)} (h : List.Forall₂ (Part.ExchangedAs s) ps qs) :
    (ps.all fun p => !p.2.required) = qs.all fun q => !q.2.required := by
  induction h with
  | nil => rfl
  | cons hpq _ ih => rw [List.all_cons, List.all_cons, ih, hpq.part.required]

/-! ### The result -/

structure Result.Exchanged (s : Swap) (r r' : Result) : Prop where
  type : s.Exchanges false r.type r'.type
  kind : r.kind = r'.kind
  event : Option.Rel (s.Exchanges false) r.event r'.event

theorem eventStream_exchanged {x y : String} (h : s.Exchanges false x y) :
    Result.Exchanged s (eventStream x) (eventStream y) where
  type := by
    have happlied : s.Exchanges false ("AsyncIterable" ++ "<" ++ x ++ ">")
        ("AsyncIterable" ++ "<" ++ y ++ ">") := h.applied (by decide)
    exact happlied
  kind := rfl
  event := .some h

theorem event_exchanged {t : TypeExpr} (name : String) (h : Agrees f s old new t) :
    s.Exchanges false (old.event name t) (new.event name (t.rename f)) := by
  have hstill : Still "id?: string" := by decide
  have hname : s.Exchanges false (quoted name) (quoted name) :=
    Swap.Exchanges.still (still_quoted name)
  exact Swap.Exchanges.braces (.cons (hname.behind (by decide))
    (.cons (h.plain.behind (by decide)) (.cons (Swap.Exchanges.still hstill) .nil)))

theorem result_rename {known : String → Prop} (hr : Renaming known f s old new) {c : Api.Content}
    (h : ∀ t ∈ c.types, Agrees f s old new t) :
    Result.Exchanged s (old.result c) (new.result (c.rename f)) := by
  have hstill : ∀ x, Still x → s.Exchanges false x x := fun x hx => Swap.Exchanges.still hx
  cases c with
  | empty => exact ⟨hstill "void" (by decide), rfl, .none⟩
  | json t => exact ⟨(h t List.mem_cons_self).plain, rfl, .none⟩
  | text => exact ⟨hstill "string" (by decide), rfl, .none⟩
  | binary => exact ⟨hr.exchanges_builtin (by decide) (by decide), rfl, .none⟩
  | multipart t => exact ⟨hr.exchanges_builtin (by decide) (by decide), rfl, .none⟩
  | stream stream =>
    cases stream with
    | raw =>
      have hbytes : s.Exchanges false (old.builtin "Uint8Array") (new.builtin "Uint8Array") :=
        hr.exchanges_builtin (by decide) (by decide)
      exact ⟨hbytes.applied (w := "ReadableStream") (by decide), rfl, .none⟩
    | typed t =>
      refine eventStream_exchanged ?_
      have happlied : s.Exchanges true ("ServerSentEvent" ++ "<" ++ old.type t ++ ">")
          ("ServerSentEvent" ++ "<" ++ new.type (t.rename f) ++ ">") :=
        (h t List.mem_cons_self).plain.applied (by decide)
      have hsse : isIdentifier "sse".toList = true := by decide
      have hmember : s.Exchanges false _ _ := happlied.member hsse (by decide)
      have hsplit : "sse.ServerSentEvent<" = "sse" ++ "." ++ ("ServerSentEvent" ++ "<") := rfl
      rw [hsplit]
      simpa only [String.append_assoc] using hmember
    | events es =>
      cases es with
      | nil => exact eventStream_exchanged (hstill "never" (by decide))
      | cons e es =>
        refine eventStream_exchanged (Swap.Exchanges.intercalate (by decide) (by decide) ?_)
        rw [List.map_map]
        exact Swap.Exchanges.map fun e he => event_exchanged e.1 (h e.2 (List.mem_map_of_mem he))

/-! ### Signatures -/

section
variable {α β γ δ : Type} {R : α → β → Prop} {a : Option α} {b : Option β}

theorem rel_map {S : γ → δ → Prop} {f : α → γ} {g : β → δ} (h : Option.Rel R a b)
    (hfg : ∀ x y, R x y → S (f x) (g y)) : Option.Rel S (a.map f) (b.map g) := by
  cases h with
  | none => exact .none
  | some h => exact .some (hfg _ _ h)

theorem map_eq_map {f : α → γ} {g : β → γ} (h : Option.Rel R a b) (hfg : ∀ x y, R x y → f x = g y) :
    a.map f = b.map g := by
  cases h with
  | none => rfl
  | some h => exact congrArg some (hfg _ _ h)

end

namespace Scope

/-- The parts of the argument of an operation. -/
def parts (s : Scope) (o : Api.Operation) : List (String × Option Part) :=
  [("path", s.parameters? .path o.parameters), ("query", s.parameters? .query o.parameters),
    ("headers", s.parameters? .header o.parameters), ("body", (o.body.bind s.body?).map (·.1))]

theorem signature_eq (s : Scope) (o : Api.Operation) : s.signature o =
    { functionName := camelCase o.name
      method := o.method
      path := o.path
      controller := kebabCase o.controller
      doc := summary o.summary o.description ""
      deprecated := o.deprecated
      pathType := (s.parameters? .path o.parameters).map (·.type)
      queryType := (s.parameters? .query o.parameters).map (·.type)
      headerType := (s.parameters? .header o.parameters).map (·.type)
      bodyType := (o.body.bind s.body?).map (·.1.type)
      bodyKind := (o.body.bind s.body?).map (·.2)
      inputType := inputType? (present (s.parts o))
      inputOptional := (present (s.parts o)).all fun p => !p.2.required
      responseType := (s.result o.response).type
      responseKind := (s.result o.response).kind
      eventType := (s.result o.response).event } := rfl

end Scope

theorem mapTypes_signature {known : String → Prop} (hr : Renaming known f s old new)
    {o : Api.Operation} (h : ∀ t ∈ o.types, Agrees f s old new t) :
    (old.signature o).mapTypes (renamed s.forth) = new.signature (o.rename f) := by
  have hparameters : ∀ p ∈ o.parameters, Agrees f s old new p.type := fun p hp => h _
    (List.mem_append_left _ (List.mem_append_left _ (List.mem_map_of_mem hp)))
  have hpart : ∀ location, Option.Rel (Part.Exchanged s) (old.parameters? location o.parameters)
      (new.parameters? location (o.rename f).parameters) := fun location =>
    parameters?_rename location hparameters
  have hbody : Option.Rel (fun p q => Part.Exchanged s p.1 q.1 ∧ p.2 = q.2) (o.body.bind old.body?)
      ((o.rename f).body.bind new.body?) := by
    rw [Api.Operation.rename]
    cases hb : o.body with
    | none => exact .none
    | some b =>
      refine body?_rename hr fun t ht => h t (List.mem_append_left _ (List.mem_append_right _ ?_))
      simpa [hb] using ht
  have hresult : Result.Exchanged s (old.result o.response) (new.result (o.rename f).response) :=
    result_rename hr fun t ht => h t (List.mem_append_right _ ht)
  have hparts : List.Forall₂ (Part.ExchangedAs s) (present (old.parts o))
      (present (new.parts (o.rename f))) := by
    have hkeys : key "path" = "path" ∧ key "query" = "query" ∧ key "headers" = "headers" ∧
        key "body" = "body" := by decide
    obtain ⟨hpath, hquery, hheaders, hbodyKey⟩ := hkeys
    exact present_exchanged (.cons ⟨rfl, hpath, hpart .path⟩ (.cons ⟨rfl, hquery, hpart .query⟩
      (.cons ⟨rfl, hheaders, hpart .header⟩
        (.cons ⟨rfl, hbodyKey, rel_map hbody fun _ _ h => h.1⟩ .nil))))
  have htype : ∀ location, ((old.parameters? location o.parameters).map (·.type)).map
      (renamed s.forth) = (new.parameters? location (o.rename f).parameters).map (·.type) := by
    intro location
    rw [Option.map_map]
    exact map_eq_map (hpart location) fun _ _ h => h.type.forth.renamed_eq
  rw [Scope.signature_eq, Scope.signature_eq, Signature.mapTypes]
  simp only [Signature.mk.injEq]
  refine ⟨rfl, rfl, rfl, rfl, rfl, rfl, htype .path, htype .query, htype .header, ?_, ?_, ?_, ?_, ?_,
    hresult.kind, ?_⟩
  · rw [Option.map_map]
    exact map_eq_map hbody fun _ _ h => h.1.type.forth.renamed_eq
  · exact map_eq_map hbody fun _ _ h => h.2
  · simpa using map_eq_map (inputType?_exchanged hparts) fun _ _ h => h.forth.renamed_eq
  · exact all_optional_eq hparts
  · exact hresult.type.forth.renamed_eq
  · simpa using map_eq_map hresult.event fun _ _ h => h.forth.renamed_eq

namespace Signature

/-- Numbers depend on names only. -/
theorem numberedFrom_mapTypes (f : String → String) (earlier : List (String × String))
    (ss : List Signature) :
    numberedFrom earlier (ss.map (mapTypes f)) = (numberedFrom earlier ss).map (mapTypes f) := by
  induction ss generalizing earlier with
  | nil => rfl
  | cons s ss ih =>
    rw [List.map_cons, numberedFrom, numberedFrom, ih, List.map_cons]
    refine congrArg (· :: _) ?_
    split <;> split <;> first | rfl | contradiction

end Signature
end TypeScript
end TypedApi
