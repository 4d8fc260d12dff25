import Mathlib.Data.List.Infix
import TypedApi.Proofs.TypeScript.StringLiteral

/-! Patterns, and the texts in which they are found.

The part of the language's patterns that looks for fixed texts: characters, the point, repetitions of
either, the two anchors and looks ahead. `read?` reads a pattern as its terms. `rests` says what a
term can leave of a text, and a pattern is found in a text if its terms can be passed one after the
other from some place in it (`finds`). A point stands for any character but the end of a line, and
both anchors mean the whole text, however many lines it has. -/
namespace TypedApi.TypeScript.Pattern

/-- What stands for one character. -/
inductive Atom where
  | char (c : Char)
  /-- Any character that ends no line. -/
  | any
deriving DecidableEq, Repr

inductive Term where
  /-- The beginning of the text. -/
  | start
  /-- The end of the text. -/
  | finish
  | one (atom : Atom)
  | many (atom : Atom)
  /-- The terms could be passed from here, but the text is left as it is. -/
  | ahead (terms : List Term)

/-! ### Reading -/

/-- The characters that do not stand for themselves. -/
def marks : List Char :=
  ['^', '$', '\\', '.', '*', '+', '?', '(', ')', '[', ']', '\x7b', '\x7d', '|']

/-- Reads the rest of a pattern. `terms` are those before it, from the last to the first, and `outer`
those around the looks ahead that are open. -/
def readFrom : List Char → List Term → List (List Term) → Option (List Term)
  | [], terms, outer => if outer.isEmpty then some terms.reverse else none
  | '(' :: '?' :: '=' :: cs, terms, outer => readFrom cs [] (terms :: outer)
  | ')' :: cs, terms, before :: outer => readFrom cs (.ahead terms.reverse :: before) outer
  | '^' :: cs, terms, outer => readFrom cs (.start :: terms) outer
  | '$' :: cs, terms, outer => readFrom cs (.finish :: terms) outer
  | '.' :: cs, terms, outer => readFrom cs (.one .any :: terms) outer
  | '*' :: cs, .one atom :: terms, outer => readFrom cs (.many atom :: terms) outer
  | '\\' :: c :: cs, terms, outer =>
    if Text.isAlphanumeric c then none else readFrom cs (.one (.char c) :: terms) outer
  | c :: cs, terms, outer =>
    if marks.contains c then none else readFrom cs (.one (.char c) :: terms) outer

/-- The terms of a pattern. -/
def read? (pattern : String) : Option (List Term) := readFrom pattern.toList [] []

section Reading

variable {c : Char} {cs ds : List Char} {terms ts us : List Term} {outer : List (List Term)}

theorem readFrom_escaped (h : Text.isAlphanumeric c = false) :
    readFrom ('\\' :: c :: cs) terms outer = readFrom cs (.one (.char c) :: terms) outer := by
  rw [readFrom, if_neg (by simp [h])]

theorem readFrom_char (h : c ∉ marks) :
    readFrom (c :: cs) terms outer = readFrom cs (.one (.char c) :: terms) outer := by
  have hne : ∀ d ∈ marks, c ≠ d := fun d hd heq => h (heq ▸ hd)
  simp only [marks, List.forall_mem_cons] at hne
  rw [readFrom, if_neg (by simpa using h)] <;> simp [hne]

/-- Wherever the characters stand in a pattern, they are read as the terms. -/
def Reads (cs : List Char) (ts : List Term) : Prop :=
  ∀ more terms outer, readFrom (cs ++ more) terms outer = readFrom more (ts.reverse ++ terms) outer

theorem Reads.nil : Reads [] [] := fun _ _ _ => rfl

theorem Reads.append (h : Reads cs ts) (g : Reads ds us) : Reads (cs ++ ds) (ts ++ us) := by
  intro more terms outer
  rw [List.append_assoc, h, g, List.reverse_append, List.append_assoc]

theorem Reads.ahead (h : Reads cs ts) :
    Reads ('(' :: '?' :: '=' :: (cs ++ [')'])) [.ahead ts] := by
  intro more terms outer
  have hinside := h (')' :: more) [] (terms :: outer)
  rw [List.append_nil] at hinside
  rw [List.cons_append, List.cons_append, List.cons_append, List.append_assoc, List.singleton_append,
    readFrom, hinside, readFrom, List.reverse_reverse]
  rfl

theorem reads_start : Reads ['^'] [.start] := fun _ _ _ => by
  rw [List.singleton_append, readFrom]
  rfl

theorem reads_finish : Reads ['$'] [.finish] := fun _ _ _ => by
  rw [List.singleton_append, readFrom]
  rfl

theorem reads_anything : Reads ['.', '*'] [.many .any] := fun _ _ _ => by
  rw [List.cons_append, List.singleton_append, readFrom, readFrom]
  rfl

theorem Reads.read? {pattern : String} (h : Reads pattern.toList ts) :
    read? pattern = some ts := by
  have hall := h [] [] []
  rw [List.append_nil, List.append_nil] at hall
  rw [Pattern.read?, hall, readFrom, List.reverse_reverse]
  rfl

end Reading

/-! ### Passing -/

def Atom.accepts : Atom → Char → Bool
  | .char c, d => c = d
  | .any, d => d ∉ lineEnds

/-- What can be left when any number of characters that the atom stands for is passed. -/
def Atom.rests (atom : Atom) : List Char → List (List Char)
  | [] => [[]]
  | c :: cs => (c :: cs) :: if atom.accepts c then atom.rests cs else []

mutual
/-- What can be left of `rest`, the end of `text`, when the term is passed. -/
def Term.rests (text : List Char) : Term → List Char → List (List Char)
  | .start, rest => if rest = text then [rest] else []
  | .finish, rest => if rest = [] then [rest] else []
  | .one atom, rest =>
    match rest with
    | [] => []
    | c :: cs => if atom.accepts c then [cs] else []
  | .many atom, rest => atom.rests rest
  | .ahead terms, rest => if (restsOf text terms rest).isEmpty then [] else [rest]
/-- What can be left when the terms are passed one after the other. -/
def restsOf (text : List Char) : List Term → List Char → List (List Char)
  | [], rest => [rest]
  | term :: terms, rest => (term.rests text rest).flatMap fun left => restsOf text terms left
end

/-- The terms can be passed from some place in the text. -/
def finds (terms : List Term) (text : String) : Bool :=
  text.toList.tails.any fun rest => !(restsOf text.toList terms rest).isEmpty

/-- The characters one by one. -/
def literal (cs : List Char) : List Term := cs.map fun c => .one (.char c)

section Passing

variable {text : String} {whole rest left : List Char} {terms : List Term} {atom : Atom}

theorem mem_rests_atom : left ∈ atom.rests rest ↔
    ∃ passed, (∀ c ∈ passed, atom.accepts c = true) ∧ rest = passed ++ left := by
  induction rest with
  | nil =>
    rw [Atom.rests, List.mem_singleton]
    constructor
    · rintro rfl
      exact ⟨[], by simp, rfl⟩
    · rintro ⟨passed, -, heq⟩
      exact (List.append_eq_nil_iff.mp heq.symm).2
  | cons c cs ih =>
    rw [Atom.rests, List.mem_cons]
    constructor
    · rintro (rfl | h)
      · exact ⟨[], by simp, rfl⟩
      · split at h
        · next haccepts =>
          obtain ⟨passed, hpassed, rfl⟩ := ih.mp h
          exact ⟨c :: passed, List.forall_mem_cons.mpr ⟨haccepts, hpassed⟩, rfl⟩
        · cases h
    · rintro ⟨passed, hpassed, heq⟩
      cases passed with
      | nil => exact .inl heq.symm
      | cons d passed =>
        obtain ⟨rfl, rfl⟩ := List.cons.inj heq
        obtain ⟨haccepts, hpassed⟩ := List.forall_mem_cons.mp hpassed
        rw [if_pos haccepts]
        exact .inr (ih.mpr ⟨passed, hpassed, rfl⟩)

theorem mem_restsOf_nil : left ∈ restsOf whole [] rest ↔ left = rest := by
  rw [restsOf, List.mem_singleton]

theorem mem_restsOf_literal {cs : List Char} :
    left ∈ restsOf whole (literal cs ++ terms) rest ↔
      ∃ mid, rest = cs ++ mid ∧ left ∈ restsOf whole terms mid := by
  induction cs generalizing rest with
  | nil => simp [literal]
  | cons c cs ih =>
    cases rest with
    | nil => simp [literal, restsOf, Term.rests]
    | cons d rest =>
      by_cases hcd : c = d
      · subst hcd
        have hone : left ∈ restsOf whole (literal (c :: cs) ++ terms) (c :: rest) ↔
            left ∈ restsOf whole (literal cs ++ terms) rest := by
          simp [literal, restsOf, Term.rests, Atom.accepts]
        simp [hone, ih]
      · have hne : d ≠ c := fun heq => hcd heq.symm
        simp [literal, restsOf, Term.rests, Atom.accepts, hcd, hne]

theorem mem_restsOf_start :
    left ∈ restsOf whole (.start :: terms) rest ↔ rest = whole ∧ left ∈ restsOf whole terms rest := by
  by_cases h : rest = whole <;> simp [restsOf, Term.rests, h]

theorem mem_restsOf_finish :
    left ∈ restsOf whole (.finish :: terms) rest ↔ rest = [] ∧ left ∈ restsOf whole terms rest := by
  by_cases h : rest = [] <;> simp [restsOf, Term.rests, h]

theorem mem_restsOf_many :
    left ∈ restsOf whole (.many atom :: terms) rest ↔
      ∃ passed mid, (∀ c ∈ passed, atom.accepts c = true) ∧ rest = passed ++ mid ∧
        left ∈ restsOf whole terms mid := by
  simp only [restsOf, Term.rests, List.mem_flatMap, mem_rests_atom]
  constructor
  · rintro ⟨mid, ⟨passed, hpassed, hrest⟩, hleft⟩
    exact ⟨passed, mid, hpassed, hrest, hleft⟩
  · rintro ⟨passed, mid, hpassed, hrest, hleft⟩
    exact ⟨mid, ⟨passed, hpassed, hrest⟩, hleft⟩

theorem mem_restsOf_ahead {inside : List Term} :
    left ∈ restsOf whole (.ahead inside :: terms) rest ↔
      (∃ found, found ∈ restsOf whole inside rest) ∧ left ∈ restsOf whole terms rest := by
  cases h : restsOf whole inside rest <;> simp [restsOf, Term.rests, h]

/-- Looks ahead from one place are independent of each other. -/
theorem exists_mem_restsOf_aheads {looks : List (List Term)} :
    (∃ left, left ∈ restsOf whole (looks.map .ahead) rest) ↔
      ∀ inside ∈ looks, ∃ left, left ∈ restsOf whole inside rest := by
  induction looks with
  | nil => simp [restsOf]
  | cons inside looks ih =>
    rw [List.map_cons, List.forall_mem_cons, ← ih]
    simp only [mem_restsOf_ahead, exists_and_left]

theorem finds_iff : finds terms text = true ↔
    ∃ rest, rest <:+ text.toList ∧ ∃ left, left ∈ restsOf text.toList terms rest := by
  simp [finds, List.eq_nil_iff_forall_not_mem]

/-- A pattern that begins with the anchor is found at the beginning or not at all. -/
theorem finds_start_iff : finds (.start :: terms) text = true ↔
    ∃ left, left ∈ restsOf text.toList terms text.toList := by
  simp only [finds_iff, mem_restsOf_start]
  constructor
  · rintro ⟨rest, -, left, rfl, hleft⟩
    exact ⟨left, hleft⟩
  · rintro ⟨left, hleft⟩
    exact ⟨text.toList, List.suffix_rfl, left, rfl, hleft⟩

end Passing

example : (read? "^(?=a)(?=.*b$)").map (fun terms => ["aab", "ab\n", "ba"].map (finds terms)) =
    some [true, false, false] := by
  decide +kernel

end TypedApi.TypeScript.Pattern
