import TypedApi.Proofs.OpenApi.Violation

/-! Violations accumulate.

The paths of a document are checked one after the other. A path hands on nothing but the operation
ids that it declares, and an id that was met before adds a report and takes none away (`Steady`).
So one more path at the end puts its reports behind all others, and wherever a path is put, the
reports on the others stay as they are and in their order (`accumulated_ofDocument`). -/
namespace TypedApi.OpenApi.Violation

/-! ### Places -/

/-- A place is written behind another one. -/
def Behind (root place : String) : Prop := ∃ rest, place = root ++ rest

/-- A place is another one or lies under it. -/
def Under (root place : String) : Prop := place = root ∨ Behind (root ++ ".") place

section Places

variable {names : List String} {root place : String} {v : Violation}

theorem behind_self (root : String) : Behind root root := ⟨"", by simp⟩

theorem behind_append (root more : String) : Behind root (root ++ more) := ⟨more, rfl⟩

theorem Behind.trans {a b c : String} (h : Behind a b) (h' : Behind b c) : Behind a c := by
  obtain ⟨x, rfl⟩ := h
  obtain ⟨y, rfl⟩ := h'
  exact ⟨x ++ y, String.append_assoc ..⟩

/-- What lies behind a place that is continued lies behind the place. -/
theorem Behind.of_append {more : String} (h : Behind (root ++ more) place) : Behind root place :=
  (behind_append root more).trans h

/-- The reports of a check at a place lie behind it. -/
def Stays (place : String) (reports : List Violation) : Prop := ∀ v ∈ reports, Behind place v.place

theorem stays_nil : Stays place [] := List.forall_mem_nil _

theorem stays_here (message : String) : Stays place [⟨place, message⟩] :=
  List.forall_mem_singleton.mpr (behind_self place)

theorem Stays.append {xs ys : List Violation} (h : Stays place xs) (h' : Stays place ys) :
    Stays place (xs ++ ys) :=
  List.forall_mem_append.mpr ⟨h, h'⟩

theorem Stays.of_append {more : String} {xs : List Violation} (h : Stays (place ++ more) xs) :
    Stays place xs :=
  fun v hv => (h v hv).of_append

theorem Stays.flatMap {α : Type} {xs : List α} {f : α → List Violation}
    (h : ∀ x ∈ xs, Stays place (f x)) : Stays place (xs.flatMap f) := by
  intro v hv
  obtain ⟨x, hx, hv⟩ := List.mem_flatMap.mp hv
  exact h x hx v hv

theorem stays_ofRef (members : List (String × Json)) : Stays place (ofRef names members place) := by
  unfold ofRef
  split
  · exact stays_nil
  · split
    · exact stays_here _
    · split
      · exact stays_nil
      · exact stays_here _

theorem stays_ofRequired (members : List (String × Json)) :
    Stays place (ofRequired members place) := by
  unfold ofRequired
  split
  · exact List.forall_mem_map.mpr fun _ _ => behind_self place
  · exact stays_nil

theorem stays_ofDiscriminator (members : List (String × Json)) :
    Stays place (ofDiscriminator members place) := by
  unfold ofDiscriminator
  split
  · exact stays_nil
  · split
    · exact stays_nil
    · exact (stays_here _).of_append

mutual

theorem stays_ofSchema (names : List String) : ∀ (s : Json) (place : String),
    Stays place (ofSchema names s place)
  | .bool _, _ => stays_nil
  | .obj members, place => by
    have hparts := stays_ofParts names members
    rw [ofSchema]
    refine Stays.append (Stays.append (Stays.append (Stays.append (Stays.append
      (stays_ofRef members) (stays_ofRequired members)) ?_) ?_) ?_) (stays_ofDiscriminator members)
    all_goals
      refine Stays.flatMap fun k _ => ?_
      split
      · next report hreport => exact hparts _ (Json.mem_of_lookup hreport) place
      · exact stays_nil
  | .null, _ => stays_here _
  | .num _, _ => stays_here _
  | .str _, _ => stays_here _
  | .arr _, _ => stays_here _

theorem stays_ofParts (names : List String) : ∀ members : List (String × Json),
    ∀ e ∈ ofParts names members, ∀ place, Stays place (e.2 place)
  | [] => List.forall_mem_nil _
  | (k, v) :: rest => by
    have hproperties := stays_ofProperties names v
    have hlist := stays_ofList names k v
    have hsingle := stays_ofSchema names v
    rw [ofParts]
    refine List.forall_mem_cons.mpr ⟨fun place => ?_, stays_ofParts names rest⟩
    dsimp only
    split
    · exact hproperties place
    · split
      · exact hlist place
      · exact ((hsingle _).of_append).of_append

theorem stays_ofProperties (names : List String) : ∀ (v : Json) (place : String),
    Stays place (ofProperties names v place)
  | .obj ps, place => (stays_ofNamed names ps (place ++ ".properties.")).of_append
  | .null, _ => stays_nil
  | .bool _, _ => stays_nil
  | .num _, _ => stays_nil
  | .str _, _ => stays_nil
  | .arr _, _ => stays_nil

theorem stays_ofNamed (names : List String) : ∀ (ps : List (String × Json)) (place : String),
    Stays place (ofNamed names ps place)
  | [], _ => stays_nil
  | (name, v) :: rest, place =>
    (stays_ofSchema names v (place ++ name)).of_append.append (stays_ofNamed names rest place)

theorem stays_ofList (names : List String) (key : String) : ∀ (v : Json) (place : String),
    Stays place (ofList names key v place)
  | .arr xs, place => (stays_ofItems names xs 0 (place ++ "." ++ key)).of_append.of_append
  | .null, _ => (stays_here _).of_append.of_append
  | .bool _, _ => (stays_here _).of_append.of_append
  | .num _, _ => (stays_here _).of_append.of_append
  | .str _, _ => (stays_here _).of_append.of_append
  | .obj _, _ => (stays_here _).of_append.of_append

theorem stays_ofItems (names : List String) : ∀ (xs : List Json) (i : Nat) (place : String),
    Stays place (ofItems names xs i place)
  | [], _, _ => stays_nil
  | x :: xs, i, place =>
    Stays.append
      (stays_ofSchema names x (place ++ "[" ++ toString i ++ "]")).of_append.of_append.of_append
      (stays_ofItems names xs (i + 1) place)

end

/-- What is wrong with the schema of a parameter. -/
def ofParameterSchema (names : List String) (place : String) (p : Json) : List Violation :=
  match p.get? "schema" with
  | some s => ofSchema names s (place ++ ".schema")
  | none => []

theorem stays_ofParameter (names : List String) (place : String) (p : Json) :
    Stays place (ofParameter names place p).2 := by
  unfold ofParameter
  split
  · exact stays_nil
  · have hunnamed : Stays place (if ((p.get? "name").bind Json.asString?).isNone then
        [⟨place, "parameter is missing 'name'"⟩] else []) := by
      split
      · exact stays_here _
      · exact stays_nil
    have hschema : Stays place (ofParameterSchema names place p) := by
      unfold ofParameterSchema
      split
      · exact (stays_ofSchema names _ _).of_append
      · exact stays_nil
    dsimp only
    split
    · refine (hunnamed.append ?_).append hschema
      split
      · exact stays_nil
      · exact stays_here _
    · exact hunnamed.append hschema
    · exact hunnamed.append hschema
    · exact hunnamed.append hschema
    · exact (hunnamed.append (stays_here _)).append hschema
    · exact (hunnamed.append (stays_here _)).append hschema

theorem stays_ofParameters (names : List String) (place : String) (owner : Json) :
    Stays place (ofParameters names place owner).2 := by
  unfold ofParameters
  split
  · exact stays_nil
  · refine Stays.flatMap fun x hx => ?_
    obtain ⟨i, hi, rfl⟩ := List.mem_mapIdx.mp hx
    exact (stays_ofParameter names _ _).of_append.of_append.of_append
  · exact stays_here _

theorem stays_ofContent (names : List String) (place : String) (owner : Json) :
    Stays place (ofContent names place owner) := by
  unfold ofContent
  split
  · exact stays_nil
  · refine Stays.flatMap fun e _ => Stays.flatMap fun key _ => ?_
    split
    · exact (stays_ofSchema names _ _).of_append.of_append.of_append.of_append
    · exact stays_nil

theorem stays_ofResponse (names : List String) (place status : String) (response : Json) :
    Stays place (ofResponse names place status response) := by
  unfold ofResponse
  refine (Stays.append ?_ ?_).append (stays_ofContent names place response)
  · split
    · exact stays_nil
    · exact stays_here _
  · split
    · exact stays_here _
    · exact stays_nil

theorem stays_ofResponses (names : List String) (place : String) (op : Json) :
    Stays place (ofResponses names place op) := by
  unfold ofResponses
  split
  · exact Stays.flatMap fun e _ => (stays_ofResponse names _ _ _).of_append.of_append
  · exact (stays_here _).of_append

theorem stays_ofOperation (names ids : List String) (place : String) (op : Json) :
    Stays place (ofOperation names ids place op).2 := by
  unfold ofOperation
  refine (Stays.append ?_ ?_).append (stays_ofResponses names place op)
  · split
    · exact stays_nil
    · split
      · exact stays_here _
      · exact stays_nil
  · split
    · exact (stays_ofContent names _ _).of_append
    · exact stays_nil

theorem stays_ofMethod (names shared placeholders : List String) (place : String) (item : Json)
    (ids : List String) (m : Method) :
    Stays (place ++ ".") (ofMethod names shared placeholders place item ids m).2 := by
  unfold ofMethod
  split
  · exact stays_nil
  · have hparameters := stays_ofParameters names (place ++ "." ++ m.key ++ ".parameters")
    have hoperation := stays_ofOperation names ids (place ++ "." ++ m.key)
    refine Stays.of_append (Stays.append (Stays.append ?_ ?_) (hoperation _))
    · exact (hparameters _).of_append
    · exact List.forall_mem_map.mpr fun _ _ => behind_self _
  · exact (stays_here _).of_append

/-- What is wrong with the path itself. -/
def ofRoot (path : String) : List Violation :=
  if path.toList.head? = some '/' then [] else [⟨"paths." ++ path, "path must start with '/'"⟩]

theorem ofPathItem_obj (names ids : List String) (path : String) (members : List (String × Json)) :
    ofPathItem names ids path (.obj members) =
      let shared := ofParameters names ("paths." ++ path ++ ".parameters") (.obj members)
      let found := collect (ofMethod names shared.1 (templatePlaceholders path) ("paths." ++ path)
        (.obj members)) ids Method.all
      (found.1, ofRoot path ++ shared.2 ++ found.2) :=
  rfl

/-- Whatever an item of a path is, the reports on it lie under its path. -/
theorem under_ofPathItem (names ids : List String) (path : String) (item : Json) :
    ∀ v ∈ (ofPathItem names ids path item).2, Under ("paths." ++ path) v.place := by
  have hhere : ∀ message, ∀ v ∈ [(⟨"paths." ++ path, message⟩ : Violation)],
      Under ("paths." ++ path) v.place := fun _ => List.forall_mem_singleton.mpr (.inl rfl)
  have hroot : ∀ v ∈ ofRoot path, Under ("paths." ++ path) v.place := by
    unfold ofRoot
    split
    · exact List.forall_mem_nil _
    · exact hhere _
  cases item with
  | obj members =>
    rw [ofPathItem_obj]
    refine List.forall_mem_append.mpr ⟨List.forall_mem_append.mpr ⟨hroot, fun v hv => .inr ?_⟩,
      fun v hv => .inr ?_⟩
    · have hdot : ".parameters" = "." ++ "parameters" := by decide
      have hshared := stays_ofParameters names _ _ v hv
      rw [hdot, ← String.append_assoc] at hshared
      exact hshared.of_append
    · exact forall_collect (fun ids m _ => stays_ofMethod names _ _ _ _ ids m) ids v hv
  | _ => exact List.forall_mem_append.mpr ⟨hroot, hhere _⟩

end Places

/-! ### Reports that are added -/

/-- The ids of `ids` are among `ids'`, and the others there are `new`. -/
structure Grown (new : String → Prop) (ids ids' : List String) : Prop where
  kept : ∀ id ∈ ids, id ∈ ids'
  others : ∀ id ∈ ids', id ∈ ids ∨ new id

/-- A report that one of the ids has come twice. -/
def Repeats (declared : String → Prop) (v : Violation) : Prop :=
  ∃ id, declared id ∧ v.message = "duplicate operationId '" ++ id ++ "'"

/-- `ys` are the reports `xs`, in their order, with further ones between them. -/
inductive Added (further : Violation → Prop) : List Violation → List Violation → Prop
  | nil : Added further [] []
  | kept (v : Violation) {xs ys : List Violation} (h : Added further xs ys) :
      Added further (v :: xs) (v :: ys)
  | added {v : Violation} {xs ys : List Violation} (hv : further v) (h : Added further xs ys) :
      Added further xs (v :: ys)

namespace Added

variable {further : Violation → Prop} {xs ys us vs : List Violation}

theorem refl (xs : List Violation) : Added further xs xs := by
  induction xs with
  | nil => exact .nil
  | cons v xs ih => exact .kept v ih

theorem append (h : Added further xs ys) (h' : Added further us vs) :
    Added further (xs ++ us) (ys ++ vs) := by
  induction h with
  | nil => exact h'
  | kept v _ ih => exact .kept v ih
  | added hv _ ih => exact .added hv ih

theorem of_all (h : ∀ v ∈ ys, further v) : Added further [] ys := by
  induction ys with
  | nil => exact .nil
  | cons v ys ih =>
    obtain ⟨hv, hys⟩ := List.forall_mem_cons.mp h
    exact .added hv (ih hys)

theorem mono {further' : Violation → Prop} (hle : ∀ v, further v → further' v)
    (h : Added further xs ys) : Added further' xs ys := by
  induction h with
  | nil => exact .nil
  | kept v _ ih => exact .kept v ih
  | added hv _ ih => exact .added (hle _ hv) ih

end Added

/-- With more ids met before, a check reports what it reported, and besides only that one of these
ids has come twice. -/
def Steady (check : List String → List String × List Violation) : Prop :=
  ∀ (new : String → Prop) (ids ids' : List String), Grown new ids ids' →
    Grown new (check ids).1 (check ids').1 ∧ Added (Repeats new) (check ids).2 (check ids').2

section Checks

variable {α : Type} {check : List String → α → List String × List Violation} {xs ys : List α}

theorem collect_append (ids : List String) :
    collect check ids (xs ++ ys) =
      ((collect check (collect check ids xs).1 ys).1,
        (collect check ids xs).2 ++ (collect check (collect check ids xs).1 ys).2) := by
  induction xs generalizing ids with
  | nil => rfl
  | cons x xs ih => simp only [List.cons_append, collect, ih, List.append_assoc]

theorem steady_collect (h : ∀ x ∈ xs, Steady (check · x)) : Steady (collect check · xs) := by
  induction xs with
  | nil => exact fun _ _ _ hids => ⟨hids, .nil⟩
  | cons x xs ih =>
    obtain ⟨hx, hxs⟩ := List.forall_mem_cons.mp h
    intro new ids ids' hids
    obtain ⟨hgrown, hfound⟩ := hx new ids ids' hids
    obtain ⟨hall, hothers⟩ := ih hxs new _ _ hgrown
    exact ⟨hall, hfound.append hothers⟩

/-- The ids that a list of checks adds are those that one of them adds. -/
theorem grown_collect {declared : α → String → Prop}
    (h : ∀ x ∈ xs, ∀ ids, Grown (declared x) ids (check ids x).1) (ids : List String) :
    Grown (fun id => ∃ x ∈ xs, declared x id) ids (collect check ids xs).1 := by
  induction xs generalizing ids with
  | nil => exact ⟨fun _ h => h, fun _ => .inl⟩
  | cons x xs ih =>
    obtain ⟨hx, hxs⟩ := List.forall_mem_cons.mp h
    have hfirst := hx ids
    have hrest := ih hxs (check ids x).1
    refine ⟨fun id hid => hrest.kept id (hfirst.kept id hid), fun id hid => ?_⟩
    rcases hrest.others id hid with hid | ⟨y, hy, hdeclared⟩
    · exact (hfirst.others id hid).imp_right fun hdeclared => ⟨x, List.mem_cons_self, hdeclared⟩
    · exact .inr ⟨y, List.mem_cons_of_mem _ hy, hdeclared⟩

end Checks

/-! ### Operation ids -/

/-- An operation of the path item has the id. -/
def DeclaresId (item : Json) (id : String) : Prop :=
  ∃ m : Method, ((item.get? m.key).bind (·.get? "operationId")).bind Json.asString? = some id

section Operations

variable {names : List String} {place : String} {op item : Json}

theorem steady_const (reports : List Violation) : Steady fun ids => (ids, reports) :=
  fun _ _ _ hids => ⟨hids, .refl reports⟩

/-- What is reported in front of a check does not depend on the ids. -/
theorem Steady.after {check : List String → List String × List Violation} (h : Steady check)
    (reports : List Violation) : Steady fun ids => ((check ids).1, reports ++ (check ids).2) := by
  intro new ids ids' hids
  obtain ⟨hgrown, hfound⟩ := h new ids ids' hids
  exact ⟨hgrown, (Added.refl reports).append hfound⟩

theorem steady_ofOperation (names : List String) (place : String) (op : Json) :
    Steady fun ids => ofOperation names ids place op := by
  intro new ids ids' hids
  unfold ofOperation
  cases (op.get? "operationId").bind Json.asString? with
  | none => exact ⟨hids, .refl _⟩
  | some id =>
    by_cases hmem : id ∈ ids
    · have hmem' := hids.kept id hmem
      simp only [List.contains_iff_mem.mpr hmem, List.contains_iff_mem.mpr hmem', if_true]
      exact ⟨hids, .refl _⟩
    have hfresh : ids.contains id = false := by simpa using hmem
    by_cases hmem' : id ∈ ids'
    · -- The id is one of those that were met besides.
      have hnew := (hids.others id hmem').resolve_left hmem
      simp only [hfresh, List.contains_iff_mem.mpr hmem', if_true, Bool.false_eq_true, if_false]
      refine ⟨⟨List.forall_mem_append.mpr ⟨hids.kept, List.forall_mem_singleton.mpr hmem'⟩,
        fun other hother => ?_⟩, ?_⟩
      · exact (hids.others other hother).imp_left (List.mem_append_left _)
      · exact .added ⟨id, hnew, rfl⟩ (.refl _)
    · have hfresh' : ids'.contains id = false := by simpa using hmem'
      simp only [hfresh, hfresh', Bool.false_eq_true, if_false]
      refine ⟨⟨fun other hother => ?_, fun other hother => ?_⟩, .refl _⟩
      · exact List.mem_append.mpr ((List.mem_append.mp hother).imp_left (hids.kept other))
      · rcases List.mem_append.mp hother with hother | hother
        · exact (hids.others other hother).imp_left (List.mem_append_left _)
        · exact .inl (List.mem_append_right _ hother)

theorem grown_ofOperation (names ids : List String) (place : String) (op : Json) :
    Grown (fun id => (op.get? "operationId").bind Json.asString? = some id) ids
      (ofOperation names ids place op).1 := by
  unfold ofOperation
  cases (op.get? "operationId").bind Json.asString? with
  | none => exact ⟨fun _ h => h, fun _ => .inl⟩
  | some id =>
    dsimp only
    split
    · exact ⟨fun _ h => h, fun _ => .inl⟩
    · refine ⟨fun _ => List.mem_append_left _, fun other hother => ?_⟩
      exact (List.mem_append.mp hother).imp_right fun h => by rw [List.mem_singleton.mp h]

theorem steady_ofMethod (names shared placeholders : List String) (place : String) (item : Json)
    (m : Method) :
    Steady fun ids => ofMethod names shared placeholders place item ids m := by
  unfold ofMethod
  split
  · exact steady_const []
  · exact (steady_ofOperation names (place ++ "." ++ m.key) _).after _
  · exact steady_const _

theorem grown_ofMethod (names shared placeholders ids : List String) (place : String) (item : Json)
    (m : Method) :
    Grown (fun id => ((item.get? m.key).bind (·.get? "operationId")).bind Json.asString? = some id)
      ids (ofMethod names shared placeholders place item ids m).1 := by
  unfold ofMethod
  split
  · exact ⟨fun _ h => h, fun _ => .inl⟩
  · next members hop =>
    rw [hop]
    exact grown_ofOperation names ids (place ++ "." ++ m.key) (.obj members)
  · exact ⟨fun _ h => h, fun _ => .inl⟩

theorem steady_ofPathItem (names : List String) (path : String) (item : Json) :
    Steady fun ids => ofPathItem names ids path item := by
  cases item with
  | obj members =>
    simp only [ofPathItem_obj]
    exact (steady_collect fun m _ => steady_ofMethod names _ _ _ (.obj members) m).after _
  | _ => exact steady_const _

theorem grown_ofPathItem (names ids : List String) (path : String) (item : Json) :
    Grown (DeclaresId item) ids (ofPathItem names ids path item).1 := by
  cases item with
  | obj members =>
    rw [ofPathItem_obj]
    have hgrown := grown_collect (fun (m : Method) (_ : m ∈ Method.all) ids =>
      grown_ofMethod names
        (ofParameters names ("paths." ++ path ++ ".parameters") (.obj members)).1
        (templatePlaceholders path) ids ("paths." ++ path) (.obj members) m) ids
    refine ⟨hgrown.kept, fun id hid => (hgrown.others id hid).imp_right ?_⟩
    rintro ⟨m, -, hm⟩
    exact ⟨m, hm⟩
  | _ => exact ⟨fun _ h => h, fun _ => .inl⟩

end Operations

/-! ### Documents -/

/-- The document with other paths. -/
def withPaths : Json → List (String × Json) → Json
  | .obj members, paths => .obj (Json.assign "paths" (.obj paths) members)
  | document, _ => document

/-- What one more path means for the reports on a document. -/
structure Accumulates (document : Json) (paths : List (String × Json)) (path : String)
    (item : Json) : Prop where
  /-- At the end, the path puts its reports behind all others. They are those that it has in a
  document without other paths, and that it has an operation id which came before. -/
  appended : ∃ own more,
    ofDocument (withPaths document [(path, item)]) = ofDocument (withPaths document []) ++ own ∧
    ofDocument (withPaths document (paths ++ [(path, item)])) = ofDocument document ++ more ∧
    (∀ v ∈ more, Under ("paths." ++ path) v.place) ∧
    Added (Repeats fun id => ∃ e ∈ paths, DeclaresId e.2 id) own more
  /-- Between others, it puts its reports between theirs, and later paths may repeat its ids. -/
  inserted : ∀ before after, paths = before ++ after →
    Added (fun v => Under ("paths." ++ path) v.place ∨ Repeats (DeclaresId item) v)
      (ofDocument document) (ofDocument (withPaths document (before ++ (path, item) :: after)))

section Documents

variable {document : Json} {paths : List (String × Json)}

theorem withPaths_self (h : document.get? "paths" = some (.obj paths)) :
    withPaths document paths = document := by
  cases document with
  | obj members => exact congrArg Json.obj (Json.assign_of_lookup h)
  | _ => cases h

/-- The reports on the paths of a document come last. -/
theorem ofDocument_withPaths (h : document.get? "paths" = some (.obj paths))
    (ps : List (String × Json)) :
    ofDocument (withPaths document ps) =
      ofVersion document ++ ofInfo document ++ ofComponents document ++
        (collect (fun ids e => ofPathItem ((componentSchemas document).map (·.1)) ids e.1 e.2) []
          ps).2 := by
  cases document with
  | obj members =>
    have hother : ∀ key, key ≠ "paths" →
        (withPaths (.obj members) ps).get? key = (Json.obj members).get? key := fun key hkey =>
      Json.lookup_assign_of_ne hkey _ members
    have hpaths : (withPaths (.obj members) ps).get? "paths" = some (.obj ps) :=
      Json.lookup_assign_self "paths" _ members
    have hschemas :
        componentSchemas (withPaths (.obj members) ps) = componentSchemas (.obj members) := by
      rw [componentSchemas, componentSchemas, hother _ (by decide)]
    have hversion : ofVersion (withPaths (.obj members) ps) = ofVersion (.obj members) := by
      rw [ofVersion, ofVersion, hother _ (by decide)]
    have hinfo : ofInfo (withPaths (.obj members) ps) = ofInfo (.obj members) := by
      rw [ofInfo, ofInfo, hother _ (by decide)]
    have hcomponents :
        ofComponents (withPaths (.obj members) ps) = ofComponents (.obj members) := by
      rw [ofComponents, ofComponents, hschemas]
    have hreports : ofDocument (withPaths (.obj members) ps) =
        ofVersion (withPaths (.obj members) ps) ++ ofInfo (withPaths (.obj members) ps) ++
          ofComponents (withPaths (.obj members) ps) ++ ofPaths (withPaths (.obj members) ps) := rfl
    rw [hreports, hversion, hinfo, hcomponents, ofPaths, hpaths, hschemas]
  | _ => cases h

/-- Reports on a document accumulate, however malformed the items of its paths are. -/
theorem accumulated_ofDocument (h : document.get? "paths" = some (.obj paths)) (path : String)
    (item : Json) : Accumulates document paths path item := by
  have hall := ofDocument_withPaths h
  have hself := withPaths_self h
  generalize (componentSchemas document).map (·.1) = names at hall
  generalize ofVersion document ++ ofInfo document ++ ofComponents document = shared at hall
  let check := fun (ids : List String) (e : String × Json) => ofPathItem names ids e.1 e.2
  have hsteady : ∀ e : String × Json, Steady (check · e) := fun e =>
    steady_ofPathItem names e.1 e.2
  constructor
  · have hgrown : Grown (fun id => ∃ e ∈ paths, DeclaresId e.2 id) [] (collect check [] paths).1 :=
      grown_collect (fun e _ ids => grown_ofPathItem names ids e.1 e.2) []
    obtain ⟨-, hadded⟩ := hsteady (path, item) _ _ _ hgrown
    refine ⟨(check [] (path, item)).2, (check (collect check [] paths).1 (path, item)).2, ?_, ?_,
      under_ofPathItem names _ path item, hadded⟩
    · rw [hall, hall]
      simp only [collect, List.append_nil]
      rfl
    · have hdocument := hall paths
      rw [hself] at hdocument
      rw [hdocument, hall, collect_append, List.append_assoc]
      simp only [collect, List.append_nil]
      rfl
  · rintro before after rfl
    have hgrown : Grown (DeclaresId item) (collect check [] before).1
        (check (collect check [] before).1 (path, item)).1 := grown_ofPathItem names _ path item
    obtain ⟨-, hafter⟩ := steady_collect (fun e (_ : e ∈ after) => hsteady e) _ _ _ hgrown
    have hitem := under_ofPathItem names (collect check [] before).1 path item
    have hdocument := hall (before ++ after)
    rw [hself] at hdocument
    rw [hdocument, hall, collect_append, collect_append]
    refine (Added.refl shared).append ((Added.refl _).append ?_)
    exact (Added.of_all fun v hv => .inl (hitem v hv)).append (hafter.mono fun _ => .inr)

end Documents

/-! ### A shop -/

def listing : Json := .obj [("get", .obj [("operationId", .str "list"), ("responses", .null)])]

/-- The first item is no object, and the operation of the second one has no responses. -/
def shopPaths : List (String × Json) := [("items", .arr []), ("/orders", listing)]

def shop : Json :=
  .obj [("openapi", .str "3.1.0"), ("paths", .obj shopPaths),
    ("info", .obj [("title", .str "Shop"), ("version", .str "1")])]

/-- The users have the operation id of the orders. -/
theorem accumulated_ofDocument_shop :
    shop.get? "paths" = some (.obj shopPaths) ∧ Accumulates shop shopPaths "/users" listing ∧
      ofDocument shop =
        [⟨"paths.items", "path must start with '/'"⟩,
          ⟨"paths.items", "path item must be an object"⟩,
          ⟨"paths./orders.get.responses", "operation must declare at least one response"⟩] ∧
      ofDocument (withPaths shop (shopPaths ++ [("/users", listing)])) = ofDocument shop ++
        [⟨"paths./users.get", "duplicate operationId 'list'"⟩,
          ⟨"paths./users.get.responses", "operation must declare at least one response"⟩] :=
  ⟨rfl, accumulated_ofDocument rfl "/users" listing, by decide +kernel, by decide +kernel⟩

end TypedApi.OpenApi.Violation
