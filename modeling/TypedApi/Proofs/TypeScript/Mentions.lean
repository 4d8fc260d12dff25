import TypedApi.Proofs.TypeScript.Renaming
import TypedApi.Proofs.TypeScript.Shows

/-! The components that the text of a type mentions.

The text of a type mentions the components that the type refers to and those whose names are
written in place of its objects (`Mentions`). The scan finds these names in the text and no others
(`Vocabulary.told`), unless a component stands right behind the dots of the rest of a tuple, which is
taken for a member, or the `e` of an exponent is the name of a component (`Seen`). -/
namespace TypedApi.TypeScript
open TypeExpr (Refers)

namespace Scope

/-- The text of a type mentions a component: by a reference, or in place of an object. -/
inductive Mentions (s : Scope) (name : String) : TypeExpr → Prop where
  | ref : Mentions s name (.ref name)
  | found {t : TypeExpr} (h : s.index.find? t = some name) : Mentions s name t
  | child {t c : TypeExpr} (h : s.index.find? t = none) (hc : c ∈ t.children)
    (hm : Mentions s name c) : Mentions s name t

/-- No component stands right behind the dots of the rest of a tuple, and no number has an exponent
where `e` is a component. This says nothing of the types inside the type. -/
def Seen (s : Scope) (known : String → Prop) : TypeExpr → Prop
  | .tuple _ (some rest) => s.leading? (.array rest) = none
  | .const v => known "e" → isScaled v = false
  | .enum vs => known "e" → ∀ v ∈ vs, isScaled v = false
  | _ => True

/-- Every type that is written out in the text is seen. -/
inductive AllSeen (s : Scope) (known : String → Prop) : TypeExpr → Prop where
  | found {t : TypeExpr} {name : String} (h : s.index.find? t = some name) : AllSeen s known t
  | written {t : TypeExpr} (h : s.index.find? t = none) (ht : s.Seen known t)
    (hc : ∀ c ∈ t.children, AllSeen s known c) : AllSeen s known t

variable {s : Scope} {known : String → Prop} {t : TypeExpr}

theorem find?_of_hasMembers (s : Scope) (h : t.hasMembers = false) : s.index.find? t = none := by
  rw [Api.Index.find?, h]
  rfl

theorem AllSeen.child (hs : s.AllSeen known t) (h : s.index.find? t = none) :
    ∀ c ∈ t.children, s.AllSeen known c := by
  cases hs with
  | found hfound => rw [h] at hfound; cases hfound
  | written _ _ hc => exact hc

theorem AllSeen.here (hs : s.AllSeen known t) (h : s.index.find? t = none) : s.Seen known t := by
  cases hs with
  | found hfound => rw [h] at hfound; cases hfound
  | written _ ht _ => exact ht

/-- A type that is written out mentions what its children mention. -/
theorem mentions_iff_child {name : String} (href : t.isRef = false) (h : s.index.find? t = none) :
    s.Mentions name t ↔ ∃ c ∈ t.children, s.Mentions name c := by
  constructor
  · intro hm
    cases hm with
    | ref => cases href
    | found hfound => rw [h] at hfound; cases hfound
    | child _ hc hm => exact ⟨_, hc, hm⟩
  · rintro ⟨c, hc, hm⟩
    exact .child h hc hm

/-- Only objects are found. -/
theorem mentions_iff {name : String} (href : t.isRef = false) (hm : t.hasMembers = false) :
    s.Mentions name t ↔ ∃ c ∈ t.children, s.Mentions name c :=
  mentions_iff_child href (s.find?_of_hasMembers hm)

theorem mentions_ref_iff (s : Scope) {name n : String} : s.Mentions n (.ref name) ↔ n = name := by
  constructor
  · intro hm
    cases hm with
    | ref => rfl
    | found hfound => rw [s.find?_of_hasMembers rfl] at hfound; cases hfound
    | child _ hc => cases hc
  · rintro rfl
    exact .ref

theorem mentions_iff_found {name n : String} (href : t.isRef = false)
    (h : s.index.find? t = some name) : s.Mentions n t ↔ n = name := by
  constructor
  · intro hm
    cases hm with
    | ref => cases href
    | found hfound => exact Option.some.inj (hfound.symm.trans h)
    | child hnone => rw [h] at hnone; cases hnone
  · rintro rfl
    exact .found h

end Scope

/-! ### Words -/

/-- The words of the language that stand in texts, and those of the runtime. -/
def printedWords : List String :=
  ["string", "number", "boolean", "null", "unknown", "never", "void", "true", "false", "readonly",
    "sse", "globalThis", "AsyncIterable"]

/-- What the foreign marks of a scope have to be: the words that stand in its texts besides the names
of the known components. -/
structure Vocabulary (s : Scope) (known : String → Prop) (foreign : String × Bool → Prop) :
    Prop where
  reserved : ∀ w ∈ printedWords, ∀ applied, foreign (w, applied)
  applied : ∀ w ∈ globalTypes, foreign (w, true)
  builtin : ∀ w ∈ globalTypes, s.shadowed.lookup w = none → foreign (w, false)
  exponent : ¬ known "e" → foreign ("e", false)
  identifier : ∀ name, known name → isIdentifier name.toList = true
  named : ∀ name, known name → ¬ foreign (name, false)
  found : ∀ t name, s.index.find? t = some name → known name

/-- The text of a type shows the components that it mentions. Behind a dot this is asked only where
the text does not begin with a component. -/
def Told (s : Scope) (foreign : String × Bool → Prop) (t : TypeExpr) : Prop :=
  ∀ dot : Bool, (dot = true → s.leading? t = none) →
    Shows foreign dot (s.type t) fun n => s.Mentions n t

namespace Told
variable {s : Scope} {foreign : String × Bool → Prop} {t : TypeExpr} {ts : List TypeExpr}

theorem plain (h : Told s foreign t) : Shows foreign false (s.type t) fun n => s.Mentions n t :=
  h false fun hdot => by cases hdot

theorem showAll (h : ∀ t ∈ ts, Told s foreign t) :
    ShowAll foreign (ts.map s.type) fun n => ∃ t ∈ ts, s.Mentions n t :=
  ShowAll.map fun t ht => (h t ht).plain

/-- A type that is written out and mentions nothing. -/
theorem of_childless (href : t.isRef = false) (hm : t.hasMembers = false) (hc : t.children = [])
    (h : ∀ dot, Shows foreign dot (s.type t) fun _ => False) : Told s foreign t := by
  intro dot _
  exact (h dot).congr fun n => by simp [Scope.mentions_iff href hm, hc]

theorem array (h : Told s foreign t) : Told s foreign (.array t) := by
  intro dot hdot
  have hmentions : ∀ n, s.Mentions n t ↔ s.Mentions n (.array t) := fun n => by
    rw [Scope.mentions_iff (t := .array t) rfl rfl]
    simp [TypeExpr.children]
  rw [Scope.leading?] at hdot
  rw [Scope.type, arrayOf]
  split
  · have hopen : Shows foreign dot ("(" ++ s.type t) fun n => s.Mentions n t :=
      h.plain.behind (by decide)
    exact (hopen.before (by decide)).congr hmentions
  · next hc =>
    rw [if_neg hc] at hdot
    exact ((h dot hdot).before (by decide)).congr hmentions

theorem tuple {rest : Option TypeExpr} {known : String → Prop} (h : ∀ t ∈ ts, Told s foreign t)
    (hrest : ∀ t ∈ rest, Told s foreign t) (hs : s.Seen known (.tuple ts rest)) :
    Told s foreign (.tuple ts rest) := by
  intro dot _
  have hdots : ShowAll foreign (s.restType rest) fun n => ∃ r ∈ rest, s.Mentions n r := by
    cases rest with
    | none => exact ShowAll.nil.congr fun n => by simp
    | some r =>
      have harray : Told s foreign (.array r) := (hrest r rfl).array
      refine (harray true fun _ => hs).behindDots.showAll.congr fun n => ?_
      rw [Scope.mentions_iff (t := .array r) rfl rfl]
      simp [TypeExpr.children]
  have hlist : Shows foreign false (String.intercalate ", " _) _ :=
    ((showAll h).append hdots).intercalate (by decide) (by decide)
  have hitems : Shows foreign dot ("[" ++ _) _ := hlist.behind (by decide)
  rw [Scope.type, Scope.types_eq]
  refine (hitems.before (by decide)).congr fun n => ?_
  rw [Scope.mentions_iff (t := .tuple ts rest) rfl rfl]
  cases rest <;> simp [TypeExpr.children, or_and_right, exists_or]

theorem union {d : Option String} (hnever : foreign ("never", false))
    (h : ∀ t ∈ ts, Told s foreign t) : Told s foreign (.union ts d) := by
  intro dot hdot
  have hmentions : ∀ n, s.Mentions n (.union ts d) ↔ ∃ t ∈ ts, s.Mentions n t := fun n =>
    Scope.mentions_iff rfl rfl
  rw [Scope.type, Scope.types_eq]
  cases ts with
  | nil =>
    have hword : Shows foreign dot "never" fun _ => False := shows_foreign (by decide) hnever
    exact hword.congr fun n => by simp [hmentions]
  | cons t ts =>
    have ht : Told s foreign t := h t List.mem_cons_self
    have hjoined : Shows foreign dot (joined " | " (s.type t :: ts.map s.type)) _ :=
      (showAll h).joined (by decide) (by decide) ((ht dot hdot).mentions ht.plain)
    exact hjoined.congr fun n => (hmentions n).symm

theorem operand (h : Told s foreign t) {dot : Bool}
    (hdot : dot = true → isUnion t = false → s.leading? t = none) :
    Shows foreign dot (s.operand t) fun n => s.Mentions n t := by
  rw [Scope.operand]
  split
  · have hopen : Shows foreign dot ("(" ++ s.type t) fun n => s.Mentions n t :=
      h.plain.behind (by decide)
    exact hopen.before (by decide)
  · next hu => exact h dot fun hd => hdot hd (Bool.eq_false_iff.mpr hu)

theorem intersection (h : ∀ t ∈ ts, Told s foreign t) : Told s foreign (.intersection ts) := by
  intro dot hdot
  have hmentions : ∀ n, s.Mentions n (.intersection ts) ↔ ∃ t ∈ ts, s.Mentions n t := fun n =>
    Scope.mentions_iff rfl rfl
  have hoperands : ShowAll foreign (ts.map s.operand) fun n => ∃ t ∈ ts, s.Mentions n t :=
    ShowAll.map fun t ht => (h t ht).operand fun hd => by cases hd
  rw [Scope.type, Scope.operands_eq]
  cases ts with
  | nil =>
    have hmute : Mute "" := by decide
    exact (shows_mute hmute).congr fun n => by simp [hmentions]
  | cons t ts =>
    have ht : Told s foreign t := h t List.mem_cons_self
    have hfirst : Shows foreign dot (s.operand t) (mentions foreign (s.operand t)) :=
      (ht.operand fun hd hu => by
        have hleading := hdot hd
        rw [Scope.leading?, Scope.leadingOperand?, hu] at hleading
        exact hleading).mentions (ht.operand fun hd => by cases hd)
    have hjoined : Shows foreign dot (joined " & " (s.operand t :: ts.map s.operand)) _ :=
      hoperands.joined (by decide) (by decide) hfirst
    exact hjoined.congr fun n => (hmentions n).symm

end Told

/-! ### Objects -/

/-- A member mentions what its type does. -/
theorem shows_member {foreign : String × Bool → Prop} {x : String} {ns : String → Prop} (m : Member)
    (hreadonly : ∀ applied, foreign ("readonly", applied)) (h : Shows foreign false x ns) :
    Shows foreign false (memberHead m ++ ": " ++ x) ns := by
  have hkeyed := h.keyed m.name m.required
  have hmark : keyMark m.required = (if m.required then "" else "?") ++ ": " := by
    cases m.required <;> rfl
  rw [hmark] at hkeyed
  rw [memberHead]
  cases m.readOnly with
  | true =>
    have hsplit : "readonly " = "readonly" ++ " " := by decide
    have hword : Shows foreign false ("readonly" ++ " " ++ _) _ :=
      hkeyed.behindWord (by decide) hreadonly
    rw [if_pos rfl, hsplit]
    simpa only [String.append_assoc] using hword
  | false => simpa [String.append_assoc] using hkeyed

namespace Vocabulary
variable {s : Scope} {known : String → Prop} {foreign : String × Bool → Prop}
  (hv : Vocabulary s known foreign)
include hv

theorem shows_reserved {w : String} {dot : Bool} (hw : w ∈ printedWords) :
    Shows foreign dot w fun _ => False := by
  have hidentifier : ∀ w ∈ printedWords, isIdentifier w.toList = true := by decide
  exact shows_foreign (hidentifier w hw) (hv.reserved w hw false)

theorem shows_builtin {name : String} {dot : Bool} (hglobal : name ∈ globalTypes)
    (hname : isIdentifier name.toList = true) :
    Shows foreign dot (s.builtin name) fun _ => False := by
  rw [Scope.builtin]
  split
  · have hmember : Shows foreign dot ("globalThis" ++ "." ++ name) fun _ => False :=
      (shows_dotted hname).member (by decide) (hv.reserved _ (by decide) false)
    exact hmember
  · next hnone =>
    rw [Option.not_isSome_iff_eq_none] at hnone
    exact shows_foreign hname (hv.builtin name hglobal hnone)

theorem shows_record {x : String} {ns : String → Prop} {dot : Bool} (h : Shows foreign false x ns) :
    Shows foreign dot ("Record<string, " ++ x ++ ">") ns :=
  h.recordOf (hv.applied _ (by decide)) (hv.reserved _ (by decide) false)

theorem shows_recordType {a : Option Additional} {dot : Bool}
    (ha : ∀ t, a = some (.of t) → Told s foreign t) :
    Shows foreign dot (s.recordType a (s.furtherValue a)) fun n =>
      ∃ c ∈ (a.bind Additional.type?).toList, s.Mentions n c := by
  have hword : ∀ w ∈ printedWords,
      Shows foreign dot ("Record<string, " ++ w ++ ">") fun _ => False := fun w hw =>
    hv.shows_record (hv.shows_reserved hw)
  have hunknown : Shows foreign dot "Record<string, unknown>" fun _ => False :=
    hword "unknown" (by decide)
  rcases a with _ | _ | _ | t
  · exact hunknown.congr fun n => by simp
  · exact hunknown.congr fun n => by simp [Additional.type?]
  · have hnever : Shows foreign dot "Record<string, never>" fun _ => False :=
      hword "never" (by decide)
    exact hnever.congr fun n => by simp [Additional.type?]
  · have ht := (ha t rfl).plain
    have hmentions : ∀ n, s.Mentions n t ↔
        ∃ c ∈ ((some (Additional.of t)).bind Additional.type?).toList, s.Mentions n c := fun n => by
      simp [Additional.type?]
    rw [Scope.furtherValue, Scope.recordType]
    split
    · have hindexed : Shows foreign false ("[key: string]: " ++ s.type t) fun n => s.Mentions n t :=
        ht.indexed (hv.reserved _ (by decide) false)
      exact hindexed.showAll.braces.congr hmentions
    · exact (hv.shows_record ht).congr hmentions

theorem showAll_furtherValue {a : Option Additional}
    (ha : ∀ t, a = some (.of t) → Told s foreign t) :
    ShowAll foreign (s.furtherValue a).toList fun n =>
      ∃ c ∈ (a.bind Additional.type?).toList, s.Mentions n c := by
  rcases a with _ | _ | _ | t
  · exact ShowAll.nil.congr fun n => by simp
  · have hunknown : Shows foreign false "unknown" fun _ => False := hv.shows_reserved (by decide)
    exact hunknown.showAll.congr fun n => by simp [Additional.type?]
  · exact ShowAll.nil.congr fun n => by simp [Additional.type?]
  · exact (ha t rfl).plain.showAll.congr fun n => by simp [Additional.type?]

theorem told_object {ms : List Member} {a : Option Additional}
    (hms : s.index.find? (.object ms a) = none → ∀ m ∈ ms, Told s foreign m.type)
    (ha : s.index.find? (.object ms a) = none → ∀ t, a = some (.of t) → Told s foreign t) :
    Told s foreign (.object ms a) := by
  intro dot hdot
  rw [Scope.leading?] at hdot
  rw [Scope.type]
  cases hname : s.index.find? (.object ms a) with
  | some name =>
    have hknown := hv.found _ name hname
    have hfalse : dot = false := by
      rw [hname] at hdot
      refine Bool.eq_false_iff.mpr fun hd => ?_
      cases hdot hd
    rw [hfalse]
    exact (shows_name (hv.identifier name hknown) (hv.named name hknown)).congr fun n =>
      (Scope.mentions_iff_found rfl hname).symm
  | none =>
    have hmentions : ∀ n, s.Mentions n (.object ms a) ↔
        ∃ c ∈ (TypeExpr.object ms a).children, s.Mentions n c := fun n =>
      Scope.mentions_iff_child rfl hname
    dsimp only
    split
    · next hempty =>
      have hnil := List.isEmpty_iff.mp hempty
      subst hnil
      exact (hv.shows_recordType (ha hname)).congr fun n => (hmentions n).symm
    · let texts := ms.map fun m => (memberHead m, s.type m.type)
      have htypes : ShowAll foreign (texts.map (·.2)) fun n => ∃ m ∈ ms, s.Mentions n m.type := by
        rw [List.map_map]
        exact ShowAll.map fun m hm => (hms hname m hm).plain
      have hmembers : ShowAll foreign (texts.map fun m => m.1 ++ ": " ++ m.2)
          fun n => ∃ m ∈ ms, s.Mentions n m.type := by
        rw [List.map_map]
        exact ShowAll.map fun m hm =>
          shows_member m (hv.reserved _ (by decide)) (hms hname m hm).plain
      rw [Scope.memberTypes_eq]
      refine (shows_objectType (hv.reserved _ (by decide) false) hmembers htypes
        (hv.showAll_furtherValue (ha hname))).congr fun n => ?_
      rw [hmentions]
      simp [TypeExpr.children, or_and_right, exists_or]

theorem shows_literal {v : Json} (h : known "e" → isScaled v = false) {dot : Bool} :
    Shows foreign dot (literal v) fun _ => False := by
  have hprinted : ∀ w ∈ ["null", "true", "false", "unknown"], w ∈ printedWords := by decide
  refine TypeScript.shows_literal v (fun hscaled => hv.exponent fun he => ?_) fun w hw =>
    hv.reserved w (hprinted w hw) false
  rw [h he] at hscaled
  cases hscaled

theorem told_enum {vs : List Json} (h : known "e" → ∀ v ∈ vs, isScaled v = false) :
    Told s foreign (.enum vs) := by
  refine Told.of_childless rfl rfl rfl fun dot => ?_
  have hliteral : ∀ v ∈ vs, ∀ dot, Shows foreign dot (literal v) fun _ => False := fun v hm dot =>
    hv.shows_literal fun he => h he v hm
  have hall : ShowAll foreign (vs.map literal) fun n => ∃ v ∈ vs, False :=
    ShowAll.map fun v hm => hliteral v hm false
  rw [Scope.type]
  cases vs with
  | nil => exact hv.shows_reserved (w := "never") (by decide)
  | cons v vs =>
    have hfirst := hliteral v List.mem_cons_self
    have hjoined : Shows foreign dot (joined " | " (literal v :: vs.map literal)) _ :=
      hall.joined (by decide) (by decide) ((hfirst dot).mentions (hfirst false))
    exact hjoined.congr fun n => by simp

/-- The text of a type shows the components that it mentions, and no others. -/
theorem told {t : TypeExpr} (ht : t.All (Refers known)) (hs : s.AllSeen known t) :
    Told s foreign t := by
  induction t using TypeExpr.induct with
  | step t ih =>
    have hchild : s.index.find? t = none → ∀ c ∈ t.children, Told s foreign c := fun h c hc =>
      ih c hc (ht.child c hc) (hs.child h c hc)
    cases t with
    | ref name =>
      intro dot hdot
      have hfalse : dot = false := Bool.eq_false_iff.mpr fun hd => by cases hdot hd
      have hknown : known name := ht.here
      rw [hfalse]
      exact (shows_name (hv.identifier name hknown) (hv.named name hknown)).congr fun n =>
        s.mentions_ref_iff.symm
    | primitive kind format =>
      have hkind : ∀ kind, primitive kind ∈ printedWords := fun kind => by cases kind <;> decide
      exact Told.of_childless rfl rfl rfl fun dot => hv.shows_reserved (hkind kind)
    | binary =>
      exact Told.of_childless rfl rfl rfl fun dot => hv.shows_builtin (by decide) (by decide)
    | const v =>
      exact Told.of_childless rfl rfl rfl fun dot =>
        hv.shows_literal (hs.here (s.find?_of_hasMembers rfl))
    | enum vs => exact hv.told_enum (hs.here (s.find?_of_hasMembers rfl))
    | array item =>
      exact (hchild (s.find?_of_hasMembers rfl) item TypeExpr.mem_children_array).array
    | tuple elements rest =>
      have hc := hchild (s.find?_of_hasMembers rfl)
      exact Told.tuple (fun e he => hc e (TypeExpr.mem_children_element he))
        (fun r hr => hc r (TypeExpr.mem_children_rest hr)) (hs.here (s.find?_of_hasMembers rfl))
    | object members additional =>
      refine hv.told_object (fun h m hm => hchild h _ (TypeExpr.mem_children_member hm)) ?_
      rintro h t rfl
      exact hchild h t TypeExpr.mem_children_additional
    | union variants d =>
      exact Told.union (hv.reserved _ (by decide) false) (hchild (s.find?_of_hasMembers rfl))
    | intersection members => exact Told.intersection (hchild (s.find?_of_hasMembers rfl))
    | unknown =>
      exact Told.of_childless rfl rfl rfl fun dot => hv.shows_reserved (w := "unknown") (by decide)

end Vocabulary
end TypedApi.TypeScript
