import TypedApi.Proofs.TypeScript.Tokens
import TypedApi.TypeScript.Type

/-! Texts that are read as phrases.

`Reads x p` says that `x` is read as the phrase `p` wherever a type is expected. Several
alternatives are read as such only where an operand begins, so only a single alternative may stand
behind `&` (`Reads.conjunct`), and only a single operand in front of `[]` (`Reads.array`). There is
one lemma for each way in which the text of a type is put together. -/
namespace TypedApi.TypeScript

/-! ### Levels -/

namespace Level

/-- The level behind a phrase: its first alternative goes on with the operands that stand before it,
and its last one stays open. -/
def extend (l : Level) : Phrase → Level
  | [] => l
  | [a] => { l with operands := l.operands ++ a }
  | a :: b :: p => extend { alternatives := l.alternatives ++ [l.operands ++ a] } (b :: p)

theorem close_extend {p : Phrase} (hp : p ≠ []) {l : Level} (hl : l.operands = []) :
    (l.extend p).close = l.alternatives ++ p := by
  induction p generalizing l with
  | nil => exact absurd rfl hp
  | cons a p ih =>
    cases p with
    | nil => rw [extend, close, hl, List.nil_append]
    | cons b p =>
      rw [extend, ih (List.cons_ne_nil b p) rfl, hl, List.nil_append, List.append_assoc,
        List.singleton_append]

/-- The alternatives of one phrase and then those of another. -/
theorem extend_append {p q : Phrase} (hp : p ≠ []) (hq : q ≠ []) (l : Level) :
    ({ alternatives := (l.extend p).close } : Level).extend q = l.extend (p ++ q) := by
  induction p generalizing l with
  | nil => exact absurd rfl hp
  | cons a p ih =>
    cases p with
    | nil =>
      obtain ⟨b, q, rfl⟩ := List.exists_cons_of_ne_nil hq
      rfl
    | cons b p => exact ih (List.cons_ne_nil b p) _

theorem extend_extend (a b : List Operand) (l : Level) :
    (l.extend [a]).extend [b] = l.extend [a ++ b] := by
  rw [extend, extend, extend, List.append_assoc]

end Level

/-! ### Reading a phrase -/

structure Reads (x : String) (p : Phrase) : Prop where
  nonempty : p ≠ []
  moves : ∀ (fs : List Frame) (l : Level), l.operands = [] ∨ p.length = 1 →
    Moves x ⟨fs, .before l⟩ ⟨fs, .behind (l.extend p)⟩

/-- What a text is read as. -/
def phraseOf (x : String) : Phrase := (read? x).getD []

variable {x y : String} {p q : Phrase} {a b : List Operand} {o : Operand} {fs : List Frame}
  {l : Level} {xs : List String}

namespace Reads

/-- A text between brackets. -/
theorem inside (h : Reads x p) (fs : List Frame) :
    Moves x ⟨fs, .before {}⟩ ⟨fs, .behind (({} : Level).extend p)⟩ :=
  h.moves fs {} (.inl rfl)

theorem close (h : Reads x p) : (({} : Level).extend p).close = p :=
  Level.close_extend h.nonempty rfl

theorem read?_eq (h : Reads x p) : read? x = some p := by
  have hread := h.inside [] [] loose_nil
  rw [List.append_nil] at hread
  have hend : readFrom .idle ⟨[], .behind (({} : Level).extend p)⟩ [] =
      some ⟨[], .behind (({} : Level).extend p)⟩ := rfl
  rw [read?, hread, hend]
  exact congrArg some h.close

theorem phraseOf_eq (h : Reads x p) : phraseOf x = p := by
  rw [phraseOf, h.read?_eq]
  rfl

theorem self (h : Reads x p) : Reads x (phraseOf x) := by
  rwa [h.phraseOf_eq]

/-- A text that is read as something is not empty. -/
theorem ne_empty (h : Reads x p) : x ≠ "" := by
  rintro rfl
  have hread := h.read?_eq
  cases hread

/-- A single operand, wherever it stands. -/
theorem of_operand (h : ∀ fs l, Moves x ⟨fs, .before l⟩ ⟨fs, .behind (l.add o)⟩) :
    Reads x [[o]] where
  nonempty := List.cons_ne_nil _ _
  moves fs l _ := h fs l

theorem operand (h : Reads x [[o]]) (fs : List Frame) (l : Level) :
    Moves x ⟨fs, .before l⟩ ⟨fs, .behind (l.add o)⟩ :=
  h.moves fs l (.inr rfl)

end Reads

/-! ### Words and literals -/

theorem reads_word {w : String} (hw : isPathFrom true w.toList = true)
    (h : operandOf? w = some o) : Reads w [[o]] := by
  refine .of_operand fun fs l => moves_word hw ?_
  show (operandOf? w).map _ = _
  rw [h]
  rfl

theorem reads_keyword {w : String} (h : w ∈ keywordTypes) : Reads w [[.keyword w]] := by
  have hpath : ∀ w ∈ keywordTypes, isPathFrom true w.toList = true := by decide
  refine reads_word (hpath w h) ?_
  rw [operandOf?, if_pos (List.contains_iff_mem.mpr h)]

theorem reads_name {w : String} (h : isTypeName w = true) : Reads w [[.name w]] := by
  have hw := operandOf?_of_isTypeName h
  rw [isTypeName, Bool.and_eq_true] at h
  exact reads_word (isPathFrom_of_isIdentifier h.1) hw

theorem reads_string (s : String) : Reads (quoted s) [[.literal (.str s)]] :=
  .of_operand fun _ _ => (passes_quoted rfl).moves

theorem reads_number {n : Json.Number} (hn : n.Readable) :
    Reads (String.ofList n.render) [[.literal (.num n)]] :=
  .of_operand fun _ _ => moves_number hn rfl

/-! ### Alternatives, conjunctions, arrays and groups -/

theorem Reads.alternative (hx : Reads x p) (hy : Reads y q) :
    Reads (x ++ (" | " ++ y)) (p ++ q) where
  nonempty := List.append_ne_nil_of_left_ne_nil hx.nonempty q
  moves fs l hl := by
    -- two alternatives or more stand only where no operand stands before them
    have hoperands : l.operands = [] := by
      refine hl.resolve_right fun hlength => ?_
      have hp := List.length_pos_iff.mpr hx.nonempty
      have hq := List.length_pos_iff.mpr hy.nonempty
      rw [List.length_append] at hlength
      omega
    have hbar : Passes " | " ⟨fs, .behind (l.extend p)⟩
        ⟨fs, .before { alternatives := (l.extend p).close }⟩ := fun _ => rfl
    have hright := hy.moves fs { alternatives := (l.extend p).close } (.inl rfl)
    rw [Level.extend_append hx.nonempty hy.nonempty] at hright
    rw [← String.append_assoc]
    exact ((hx.moves fs l (.inl hoperands)).passes_append hbar (by decide)).moves_append hright

theorem Reads.conjunct (hx : Reads x [a]) (hy : Reads y [b]) :
    Reads (x ++ (" & " ++ y)) [a ++ b] where
  nonempty := List.cons_ne_nil _ _
  moves fs l _ := by
    have hand : Passes " & " ⟨fs, .behind (l.extend [a])⟩ ⟨fs, .before (l.extend [a])⟩ :=
      fun _ => rfl
    have hright := hy.moves fs (l.extend [a]) (.inr rfl)
    rw [Level.extend_extend] at hright
    rw [← String.append_assoc]
    exact ((hx.moves fs l (.inr rfl)).passes_append hand (by decide)).moves_append hright

theorem Reads.group (hx : Reads x p) : Reads ("(" ++ x ++ ")") [[.group p]] := by
  refine .of_operand fun fs l => Passes.moves ?_
  have hopen : Passes "(" ⟨fs, .before l⟩ ⟨.group l :: fs, .before {}⟩ := fun _ => rfl
  have hclose : Passes ")" ⟨.group l :: fs, .behind (({} : Level).extend p)⟩
      ⟨fs, .behind (l.add (.group (({} : Level).extend p).close))⟩ := fun _ => rfl
  rw [hx.close] at hclose
  exact (hopen.moves_append (hx.inside _)).passes_append hclose (by decide)

/-- The bracket takes the last operand, and only that. -/
theorem openSquare?_add (fs : List Frame) (l : Level) (o : Operand) :
    State.openSquare? ⟨fs, .behind (l.add o)⟩ = some ⟨fs, .suffix l o⟩ := by
  rw [State.openSquare?]
  simp only [Level.add, List.getLast?_concat, List.dropLast_concat, Option.map_some]

theorem Reads.array (hx : Reads x [[o]]) : Reads (x ++ "[]") [[.array o]] := by
  refine .of_operand fun fs l => Passes.moves ?_
  have hbrackets : Passes "[]" ⟨fs, .behind (l.add o)⟩ ⟨fs, .behind (l.add (.array o))⟩ := by
    intro rest
    have hopen : State.mark? ⟨fs, .behind (l.add o)⟩ '[' = some ⟨fs, .suffix l o⟩ :=
      openSquare?_add fs l o
    show readFrom .idle _ ('[' :: ']' :: rest) = _
    rw [readFrom_mark (by decide), hopen]
    rfl
  exact (hx.operand fs l).passes_append hbrackets (by decide)

/-! ### Lists of texts -/

/-- The alternatives of several texts, one after the other. -/
theorem reads_alternatives (hxs : xs ≠ []) (h : ∀ x ∈ xs, Reads x (phraseOf x)) :
    Reads (String.intercalate " | " xs) (xs.flatMap phraseOf) := by
  induction xs with
  | nil => exact absurd rfl hxs
  | cons x xs ih =>
    obtain ⟨hx, hrest⟩ := List.forall_mem_cons.mp h
    cases xs with
    | nil =>
      rw [String.intercalate_singleton, List.flatMap_singleton]
      exact hx
    | cons y ys =>
      rw [String.intercalate_cons_cons, List.flatMap_cons, String.append_assoc]
      exact hx.alternative (ih (List.cons_ne_nil y ys) hrest)

/-- The operands of several texts of one alternative each. -/
theorem reads_conjuncts (hxs : xs ≠ []) (h : ∀ x ∈ xs, ∃ a, Reads x [a]) :
    Reads (String.intercalate " & " xs) [xs.flatMap fun x => (phraseOf x).flatten] := by
  induction xs with
  | nil => exact absurd rfl hxs
  | cons x xs ih =>
    obtain ⟨⟨a, hx⟩, hrest⟩ := List.forall_mem_cons.mp h
    have hflatten : (phraseOf x).flatten = a := by
      rw [hx.phraseOf_eq, List.flatten_singleton]
    cases xs with
    | nil =>
      rw [String.intercalate_singleton, List.flatMap_singleton, hflatten]
      exact hx
    | cons y ys =>
      rw [String.intercalate_cons_cons, List.flatMap_cons, hflatten, String.append_assoc]
      exact hx.conjunct (ih (List.cons_ne_nil y ys) hrest)

/-- Texts that each move the reader one step on, up to the separator behind them. -/
theorem passes_each {α : Type} (f : α → String) (sep : String) (state : List α → State)
    (done as : List α)
    (h : ∀ done, ∀ a ∈ as, Passes (f a ++ sep) (state done) (state (done ++ [a]))) :
    Passes (String.join (as.map fun a => f a ++ sep)) (state done) (state (done ++ as)) := by
  induction as generalizing done with
  | nil =>
    rw [List.append_nil]
    exact fun _ => rfl
  | cons a as ih =>
    have hrest := ih (done ++ [a]) fun done b hb => h done b (List.mem_cons_of_mem a hb)
    rw [List.append_assoc, List.singleton_append] at hrest
    rw [List.map_cons, String.join_cons]
    exact (h done a List.mem_cons_self).append hrest

theorem intercalate_concat (sep : String) (xs : List String) (y : String) :
    String.intercalate sep (xs ++ [y]) = String.join (xs.map (· ++ sep)) ++ y := by
  induction xs with
  | nil =>
    rw [List.nil_append, String.intercalate_singleton, List.map_nil, String.join_nil,
      String.empty_append]
  | cons x xs ih =>
    rw [List.cons_append, String.intercalate_cons_of_ne_nil (List.append_ne_nil_of_right_ne_nil xs
      (List.cons_ne_nil y [])), ih, List.map_cons, String.join_cons]
    simp only [String.append_assoc]

/-! ### Tuples -/

theorem reads_elements (xs : List String) (h : ∀ x ∈ xs, Reads x (phraseOf x)) (fs : List Frame)
    (l : Level) :
    Passes (String.join (xs.map (· ++ ", "))) ⟨.tuple l [] false :: fs, .before {}⟩
      ⟨.tuple l (xs.map phraseOf) false :: fs, .before {}⟩ := by
  have hstep : ∀ done, ∀ x ∈ xs, Passes (x ++ ", ")
      ⟨.tuple l (done.map phraseOf) false :: fs, .before {}⟩
      ⟨.tuple l ((done ++ [x]).map phraseOf) false :: fs, .before {}⟩ := by
    intro done x hx
    have hcomma : Passes ", "
        ⟨.tuple l (done.map phraseOf) false :: fs, .behind (({} : Level).extend (phraseOf x))⟩
        ⟨.tuple l (done.map phraseOf ++ [(({} : Level).extend (phraseOf x)).close]) false :: fs,
          .before {}⟩ := fun _ => rfl
    rw [(h x hx).close] at hcomma
    rw [List.map_append, List.map_singleton]
    exact ((h x hx).inside _).passes_append hcomma (by decide)
  exact passes_each id ", " (fun done => ⟨.tuple l (done.map phraseOf) false :: fs, .before {}⟩) []
    xs hstep

/-- A tuple, with the rest behind the dots. -/
theorem reads_tuple (h : ∀ x ∈ xs, Reads x (phraseOf x)) {rest : Option String}
    (hrest : ∀ y ∈ rest, Reads y (phraseOf y)) :
    Reads ("[" ++ String.intercalate ", " (xs ++ rest.toList.map ("..." ++ ·)) ++ "]")
      [[.tuple (xs.map phraseOf) (rest.map phraseOf)]] := by
  refine .of_operand fun fs l => Passes.moves ?_
  have hopen : Passes "[" ⟨fs, .before l⟩ ⟨.tuple l [] false :: fs, .before {}⟩ := fun _ => rfl
  cases rest with
  | some y =>
    have hy := hrest y rfl
    have hdots : Passes "..." ⟨.tuple l (xs.map phraseOf) false :: fs, .before {}⟩
        ⟨.tuple l (xs.map phraseOf) true :: fs, .before {}⟩ := fun _ => rfl
    have hclose : Passes "]"
        ⟨.tuple l (xs.map phraseOf) true :: fs, .behind (({} : Level).extend (phraseOf y))⟩
        ⟨fs, .behind (l.add (.tuple (xs.map phraseOf)
          (some (({} : Level).extend (phraseOf y)).close)))⟩ := fun _ => rfl
    rw [hy.close] at hclose
    rw [Option.toList_some, List.map_singleton, intercalate_concat]
    exact (hopen.moves_append ((reads_elements xs h fs l).moves_append
      (hdots.moves_append (hy.inside _)))).passes_append hclose (by decide)
  | none =>
    rw [Option.toList_none, List.map_nil, List.append_nil]
    rcases List.eq_nil_or_concat xs with rfl | ⟨ys, y, rfl⟩
    · exact fun _ => rfl
    · rw [List.concat_eq_append] at h ⊢
      obtain ⟨hys, hy⟩ := List.forall_mem_append.mp h
      have hy := List.forall_mem_singleton.mp hy
      have hclose : Passes "]"
          ⟨.tuple l (ys.map phraseOf) false :: fs, .behind (({} : Level).extend (phraseOf y))⟩
          ⟨fs, .behind (l.add (.tuple
            (ys.map phraseOf ++ [(({} : Level).extend (phraseOf y)).close]) none))⟩ := fun _ => rfl
      rw [hy.close] at hclose
      rw [intercalate_concat, List.map_append, List.map_singleton]
      exact (hopen.moves_append ((reads_elements ys hys fs l).moves_append
        (hy.inside _))).passes_append hclose (by decide)

/-! ### Objects -/

/-- What stands before the type of a member. -/
def Head.of (m : Member) : Head :=
  { name := m.name, optional := !m.required, readOnly := m.readOnly }

section
variable {outer : Level} {members : List (Head × Phrase)} {further : Option Phrase}

/-- A key is gone over as one, whether it stands as it is or in quotes. -/
theorem moves_key {name : String} {st st' : State}
    (hword : isIdentifier name.toList = true → st.word? name = some st')
    (hquoted : st.key? name = some st') : Moves (key name) st st' := by
  unfold key
  split
  · next hname => exact moves_word (isPathFrom_of_isIdentifier hname) (hword hname)
  · refine (passes_quoted ?_).moves
    cases hphase : st.phase with
    | before l => simp [State.key?, hphase] at hquoted
    | _ => simpa [State.literal?, hphase] using hquoted

/-- What stands between a key and its type. -/
theorem passes_mark (required : Bool) (h : Head) (hoptional : h.optional = false) :
    Passes ((if required then "" else "?") ++ ": ")
      ⟨.object outer members further none :: fs, .named h⟩
      ⟨.object outer members further (some { h with optional := !required }) :: fs, .before {}⟩ := by
  cases h
  subst hoptional
  cases required <;> exact fun _ => rfl

theorem cuts_mark (required : Bool) : Cuts ((if required then "" else "?") ++ ": ") := by
  cases required <;> decide

/-- A member up to its type. The name `readonly` may be a modifier until its colon comes. -/
theorem passes_head (m : Member) :
    Passes (memberHead m ++ ": ") ⟨.object outer members further none :: fs, .member⟩
      ⟨.object outer members further (some (Head.of m)) :: fs, .before {}⟩ := by
  obtain ⟨name, type, required, description, readOnly⟩ := m
  unfold memberHead Head.of
  dsimp only
  rw [String.append_assoc]
  cases readOnly with
  | true =>
    have hmodifier : Passes "readonly " ⟨.object outer members further none :: fs, .member⟩
        ⟨.object outer members further none :: fs, .modifier⟩ := fun _ => rfl
    have hkey : Moves (key name) ⟨.object outer members further none :: fs, .modifier⟩
        ⟨.object outer members further none :: fs, .named { name, readOnly := true }⟩ :=
      moves_key (fun hname => by simp [State.word?, hname, State.key?]) rfl
    exact (hmodifier.moves_append hkey).passes_append (passes_mark required _ rfl)
      (cuts_mark required)
  | false =>
    by_cases hreadonly : name = "readonly"
    · subst hreadonly
      have hkey : key "readonly" = "readonly" := by decide
      have hword : Moves "readonly" ⟨.object outer members further none :: fs, .member⟩
          ⟨.object outer members further none :: fs, .modifier⟩ := moves_word (by decide) rfl
      have hmark : Passes ((if required then "" else "?") ++ ": ")
          ⟨.object outer members further none :: fs, .modifier⟩
          ⟨.object outer members further
            (some { name := "readonly", optional := !required }) :: fs, .before {}⟩ := by
        cases required <;> exact fun _ => rfl
      rw [if_neg (by decide), String.empty_append, hkey]
      exact hword.passes_append hmark (cuts_mark required)
    · have hkey : Moves (key name) ⟨.object outer members further none :: fs, .member⟩
          ⟨.object outer members further none :: fs, .named { name }⟩ :=
        moves_key (fun hname => by simp [State.word?, hreadonly, hname, State.key?]) rfl
      rw [if_neg (by decide), String.empty_append]
      exact hkey.passes_append (passes_mark required _ rfl) (cuts_mark required)

/-- A member with its type. -/
theorem moves_member (m : Member) (hx : Reads x p) :
    Moves (memberHead m ++ ": " ++ x) ⟨.object outer members further none :: fs, .member⟩
      ⟨.object outer members further (some (Head.of m)) :: fs, .behind (({} : Level).extend p)⟩ :=
  (passes_head m).moves_append (hx.inside _)

end

variable {f : Member → String}

theorem reads_members (ms : List Member) (h : ∀ m ∈ ms, Reads (f m) (phraseOf (f m)))
    (fs : List Frame) (l : Level) :
    Passes (String.join (ms.map fun m => memberHead m ++ ": " ++ f m ++ "; "))
      ⟨.object l [] none none :: fs, .member⟩
      ⟨.object l (ms.map fun m => (Head.of m, phraseOf (f m))) none none :: fs, .member⟩ := by
  have hstep : ∀ done, ∀ m ∈ ms, Passes (memberHead m ++ ": " ++ f m ++ "; ")
      ⟨.object l (done.map fun m => (Head.of m, phraseOf (f m))) none none :: fs, .member⟩
      ⟨.object l ((done ++ [m]).map fun m => (Head.of m, phraseOf (f m))) none none :: fs,
        .member⟩ := by
    intro done m hm
    have hend : ∀ members : List (Head × Phrase), Passes "; "
        ⟨.object l members none (some (Head.of m)) :: fs,
          .behind (({} : Level).extend (phraseOf (f m)))⟩
        ⟨.object l (members ++ [(Head.of m, (({} : Level).extend (phraseOf (f m))).close)])
          none none :: fs, .member⟩ := fun _ _ => rfl
    rw [(h m hm).close] at hend
    rw [List.map_append, List.map_singleton]
    exact (moves_member m (h m hm)).passes_append (hend _) (by decide)
  exact passes_each (fun m => memberHead m ++ ": " ++ f m) "; " (fun done =>
    ⟨.object l (done.map fun m => (Head.of m, phraseOf (f m))) none none :: fs, .member⟩) [] ms hstep

/-- An index signature up to the end of its object. -/
theorem passes_further (hx : Reads x p) (members : List (Head × Phrase)) (fs : List Frame)
    (l : Level) :
    Passes ("[key: string]: " ++ x ++ " \x7d") ⟨.object l members none none :: fs, .member⟩
      ⟨fs, .behind (l.add (.object members (some p)))⟩ := by
  have hsignature : Passes "[key: string]: " ⟨.object l members none none :: fs, .member⟩
      ⟨.object l members none none :: fs, .before {}⟩ := fun _ => rfl
  have hclose : Passes " \x7d"
      ⟨.object l members none none :: fs, .behind (({} : Level).extend p)⟩
      ⟨fs, .behind (l.add (.object members (some (({} : Level).extend p).close)))⟩ := fun _ => rfl
  rw [hx.close] at hclose
  exact (hsignature.moves_append (hx.inside _)).passes_append hclose (by decide)

theorem passes_brace (fs : List Frame) (l : Level) :
    Passes "\x7b " ⟨fs, .before l⟩ ⟨.object l [] none none :: fs, .member⟩ := fun _ => rfl

/-- An object with members, and with an index signature for further ones. -/
theorem reads_objectType {ms : List Member} (hms : ms ≠ [])
    (h : ∀ m ∈ ms, Reads (f m) (phraseOf (f m))) (value : Option String)
    (hvalue : ∀ v ∈ value, Reads (furtherType v (ms.map f)) (phraseOf (furtherType v (ms.map f)))) :
    Reads (Scope.objectType (ms.map fun m => (memberHead m, f m)) value)
      [[.object (ms.map fun m => (Head.of m, phraseOf (f m)))
        (value.map fun v => phraseOf (furtherType v (ms.map f)))]] := by
  refine .of_operand fun fs l => Passes.moves ?_
  unfold Scope.objectType braces
  simp only [List.map_map, Function.comp_def]
  cases value with
  | some v =>
    have hfurther :=
      passes_further (hvalue v rfl) (ms.map fun m => (Head.of m, phraseOf (f m))) fs l
    rw [intercalate_concat, List.map_map]
    have hall := ((passes_brace fs l).append (reads_members ms h fs l)).append hfurther
    simp only [Function.comp_def, String.append_assoc] at hall ⊢
    exact hall
  | none =>
    obtain ⟨ns, m, rfl⟩ := (List.eq_nil_or_concat ms).resolve_left hms
    rw [List.concat_eq_append] at h ⊢
    obtain ⟨hns, hm⟩ := List.forall_mem_append.mp h
    have hm := List.forall_mem_singleton.mp hm
    have hclose : ∀ members : List (Head × Phrase), Passes " \x7d"
        ⟨.object l members none (some (Head.of m)) :: fs,
          .behind (({} : Level).extend (phraseOf (f m)))⟩
        ⟨fs, .behind (l.add (.object
          (members ++ [(Head.of m, (({} : Level).extend (phraseOf (f m))).close)]) none))⟩ :=
      fun _ _ => rfl
    rw [hm.close] at hclose
    have hall := ((passes_brace fs l).append (reads_members ns hns fs l)).append
      ((moves_member m hm).passes_append (hclose _) (by decide))
    rw [List.append_nil, List.map_append, List.map_singleton, intercalate_concat, List.map_map,
      List.map_append, List.map_singleton]
    simp only [Function.comp_def, String.append_assoc] at hall ⊢
    exact hall

/-- An object type that has nothing but an index signature. -/
theorem reads_signature (hx : Reads x p) :
    Reads (braces ["[key: string]: " ++ x]) [[.object [] (some p)]] := by
  refine .of_operand fun fs l => Passes.moves ?_
  have hall := (passes_brace fs l).append (passes_further hx [] fs l)
  rw [braces, String.intercalate_singleton]
  simp only [String.append_assoc] at hall ⊢
  exact hall

/-- `Record` takes the name that stands last. -/
theorem openAngle?_add (fs : List Frame) (l : Level) (name : String) :
    State.openAngle? ⟨fs, .behind (l.add (.name name))⟩ =
      some ⟨.applied l name [] :: fs, .before {}⟩ := by
  rw [State.openAngle?]
  simp only [Level.add, List.getLast?_concat, List.dropLast_concat]

theorem reads_record (hx : Reads x p) :
    Reads ("Record<string, " ++ x ++ ">") [[.applied "Record" [[[.keyword "string"]], p]]] := by
  refine .of_operand fun fs l => Passes.moves ?_
  have hname : Reads "Record" [[.name "Record"]] := reads_name (by decide)
  have hopen : Passes "<" ⟨fs, .behind (l.add (.name "Record"))⟩
      ⟨.applied l "Record" [] :: fs, .before {}⟩ := by
    intro rest
    have hangle : State.mark? ⟨fs, .behind (l.add (.name "Record"))⟩ '<' =
        some ⟨.applied l "Record" [] :: fs, .before {}⟩ := openAngle?_add fs l "Record"
    show readFrom .idle _ ('<' :: rest) = _
    rw [readFrom_mark (by decide), hangle]
    rfl
  have hstring : Passes "string, " ⟨.applied l "Record" [] :: fs, .before {}⟩
      ⟨.applied l "Record" [[[.keyword "string"]]] :: fs, .before {}⟩ := fun _ => rfl
  have hclose : Passes ">"
      ⟨.applied l "Record" [[[.keyword "string"]]] :: fs, .behind (({} : Level).extend p)⟩
      ⟨fs, .behind (l.add (.applied "Record"
        [[[.keyword "string"]], (({} : Level).extend p).close]))⟩ := fun _ => rfl
  rw [hx.close] at hclose
  have hall := ((((hname.operand fs l).passes_append hopen (by decide)).append hstring).moves_append
    (hx.inside _)).passes_append hclose (by decide)
  have htext : "Record" ++ "<" ++ "string, " = "Record<string, " := by decide
  rwa [htext] at hall

end TypedApi.TypeScript
