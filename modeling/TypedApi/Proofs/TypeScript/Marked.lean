import TypedApi.Proofs.TypeScript.Turns
import TypedApi.TypeScript.Global

/-! The words of a text that refer to types.

A word is marked if it refers to a type, and the mark says whether it is applied to others
(`marked`). Renaming cuts no text into other pieces, so the references in a renamed text are those
of the text itself, under their new names where they are not applied (`references_renamed`). -/
namespace TypedApi.TypeScript

/-! ### Marks -/

/-- The words that refer to types, and whether each is applied to others. -/
def markedFrom (b : Before) : List Piece → List (String × Bool)
  | [] => []
  | .word w :: rest =>
    let later := markedFrom (b.next (.word w)) rest
    if isReference b rest then (String.ofList w, isApplied rest) :: later else later
  | p :: rest => markedFrom (b.next p) rest

def marked (b : Before) (cs : List Char) : List (String × Bool) := markedFrom b (pieces cs)

variable {names : List (String × String)} {b b' : Before} {ps : List Piece} {w rest : List Char}

theorem referencesFrom_eq (b : Before) (ps : List Piece) :
    referencesFrom b ps = (markedFrom b ps).map (·.1) := by
  induction ps generalizing b with
  | nil => rfl
  | cons p ps ih =>
    cases p with
    | mark c => exact ih _
    | word w =>
      rw [referencesFrom, markedFrom, ih]
      split <;> rfl

/-- Nothing but the quotes and a dot just before it matters. -/
theorem markedFrom_congr (hq : b.quoting = b'.quoting)
    (hlast : b.last = some '.' ↔ b'.last = some '.') (ps : List Piece) :
    markedFrom b ps = markedFrom b' ps := by
  induction ps generalizing b b' with
  | nil => rfl
  | cons p ps ih =>
    obtain ⟨hquoting, hdot⟩ := Before.next_congr hq hlast p
    have hnext := ih hquoting hdot
    cases p with
    | mark c => exact hnext
    | word w => simp only [markedFrom, hnext, isReference_of_before hq hlast ps]

theorem marked_mark {c : Char} (h : isIdentifierStart c = false) (cs : List Char) :
    marked b (c :: cs) = marked (b.past [c]) cs := by
  rw [marked, pieces_mark h]
  rfl

theorem marked_word (hw : isIdentifier w = true) (hr : Ends rest) :
    marked b (w ++ rest) =
      (if isReference b (pieces rest) then [(String.ofList w, isApplied (pieces rest))] else []) ++
        marked (b.past w) rest := by
  rw [marked, pieces_word hw hr, markedFrom]
  split <;> rfl

/-! ### Pieces and their text -/

/-- Pieces into which their own text is cut. -/
inductive Cut : List Piece → Prop where
  | nil : Cut []
  | mark {c : Char} {ps : List Piece} (hc : isIdentifierStart c = false) (h : Cut ps) :
    Cut (.mark c :: ps)
  | word {w : List Char} {ps : List Piece} (hw : isIdentifier w = true)
    (hends : Ends (ps.flatMap Piece.chars)) (h : Cut ps) : Cut (.word w :: ps)

theorem Cut.pieces_chars (h : Cut ps) : pieces (ps.flatMap Piece.chars) = ps := by
  induction h with
  | nil => rfl
  | mark hc _ ih => rw [List.flatMap_cons, Piece.chars, List.singleton_append, pieces_mark hc, ih]
  | word hw hends _ ih => rw [List.flatMap_cons, Piece.chars, pieces_word hw hends, ih]

theorem cut_pieces (cs : List Char) :
    Cut (pieces cs) ∧ (pieces cs).flatMap Piece.chars = cs := by
  induction cs using wordwise with
  | nil => exact ⟨.nil, rfl⟩
  | mark c cs hmark ih =>
    obtain ⟨hcut, hchars⟩ := ih
    rw [pieces_mark hmark, List.flatMap_cons, hchars]
    exact ⟨.mark hmark hcut, rfl⟩
  | word w more hw hstop ih =>
    obtain ⟨hcut, hchars⟩ := ih
    rw [pieces_word hw hstop, List.flatMap_cons, hchars]
    exact ⟨.word hw (hchars.symm ▸ hstop) hcut, rfl⟩

/-! ### Renaming -/

/-- A word as a renaming writes it. -/
def newWord (names : List (String × String)) (b : Before) (w : List Char) (rest : List Piece) :
    List Char :=
  match names.lookup (String.ofList w) with
  | some new => if isReference b rest && !isApplied rest then new.toList else w
  | none => w

theorem renamedFrom_word (names : List (String × String)) (b : Before) (w : List Char)
    (rest : List Piece) :
    renamedFrom names b (.word w :: rest) =
      .word (newWord names b w rest) :: renamedFrom names (b.next (.word w)) rest := by
  rw [renamedFrom, newWord]
  cases names.lookup (String.ofList w) with
  | none => rfl
  | some new =>
    dsimp only
    split <;> rfl

def Piece.mark? : Piece → Option Char
  | .mark c => some c
  | .word _ => none

/-- A renaming puts words in the place of words. -/
theorem marks_renamedFrom (names : List (String × String)) (b : Before) (ps : List Piece) :
    (renamedFrom names b ps).map Piece.mark? = ps.map Piece.mark? := by
  induction ps generalizing b with
  | nil => rfl
  | cons p ps ih =>
    cases p with
    | mark c => exact congrArg (_ :: ·) (ih _)
    | word w =>
      rw [renamedFrom_word]
      exact congrArg (_ :: ·) (ih _)

/-- Whether the marks begin with a colon, or with a question mark and a colon. -/
def colonMarks : List (Option Char) → Bool
  | some ':' :: _ => true
  | some '?' :: some ':' :: _ => true
  | _ => false

theorem isColon_eq (ps : List Piece) : isColon ps = colonMarks (ps.map Piece.mark?) := by
  rcases ps with _ | ⟨w | c, ps⟩
  · rfl
  · rfl
  by_cases hcolon : c = ':'
  · rw [hcolon]
    rfl
  by_cases hquestion : c = '?'
  · subst hquestion
    rcases ps with _ | ⟨w | d, ps⟩
    · rfl
    · rfl
    by_cases hd : d = ':'
    · rw [hd]
      rfl
    · simp [isColon, colonMarks, Piece.mark?, hd]
  · simp [isColon, colonMarks, Piece.mark?, hcolon, hquestion]

section
variable {qs : List Piece} (h : ps.map Piece.mark? = qs.map Piece.mark?)
include h

theorem marks_dropWhile :
    (ps.dropWhile Piece.isBlank).map Piece.mark? = (qs.dropWhile Piece.isBlank).map Piece.mark? := by
  have hblank : Piece.isBlank = (fun m : Option Char => m.any Text.isBlank) ∘ Piece.mark? :=
    funext fun p => by cases p <;> rfl
  rw [hblank, ← List.dropWhile_map, ← List.dropWhile_map, h]

theorem isColon_congr : isColon ps = isColon qs := by
  rw [isColon_eq, isColon_eq, h]

theorem isReference_congr (b : Before) : isReference b ps = isReference b qs := by
  rw [isReference, isReference, isColon_congr (marks_dropWhile h)]

theorem isApplied_congr : isApplied ps = isApplied qs := by
  have hmark : ∀ ps : List Piece, isApplied ps =
      decide (((ps.dropWhile Piece.isBlank).map Piece.mark?).head? = some (some '<')) := fun ps => by
    rw [isApplied, List.head?_map]
    cases (ps.dropWhile Piece.isBlank).head? with
    | none => rfl
    | some p => cases p <;> simp [Piece.mark?]
  rw [hmark, hmark, marks_dropWhile h]

theorem newWord_congr (b : Before) (w : List Char) : newWord names b w ps = newWord names b w qs := by
  rw [newWord, newWord, isReference_congr h, isApplied_congr h]

end

/-- A mark under the new names. -/
def renamedMark (names : List (String × String)) (m : String × Bool) : String :=
  if m.2 then m.1 else newName names m.1

/-- Outside quotes a word leaves nothing behind. -/
theorem Quoting.after_outside {q : Quoting} (hq : q.isInside = false) (hw : isIdentifier w = true) :
    q.after w = {} := by
  obtain ⟨opening, escaped⟩ := q
  cases opening with
  | some c => cases hq
  | none =>
    cases escaped with
    | false => exact Quoting.after_word hw
    | true =>
      cases w with
      | nil => cases hw
      | cons c cs =>
        -- the backslash before the word takes its first character
        have hfirst : Quoting.next { escaped := true } c = {} := rfl
        rw [Quoting.after, List.foldl_cons, hfirst]
        exact Quoting.after_parts fun d hd =>
          isIdentifierPart_of_mem hw (List.mem_cons_of_mem c hd)

/-- Behind a word outside quotes neither a quote is open nor a dot stands. -/
theorem Before.next_word (hw : isIdentifier w = true) (hq : b.quoting.isInside = false) :
    (b.next (.word w)).quoting = {} ∧ (b.next (.word w)).last ≠ some '.' := by
  refine ⟨Quoting.after_outside hq hw, fun hdot => ?_⟩
  cases hc : w.getLast? with
  | none =>
    rw [List.getLast?_eq_none_iff.mp hc] at hw
    cases hw
  | some c =>
    rw [Before.next, Piece.chars, hc] at hdot
    have hpart := isIdentifierPart_of_mem hw (List.mem_of_getLast? hc)
    rw [Option.some.inj hdot] at hpart
    revert hpart
    decide

section
variable {w' : List Char} (hw : isIdentifier w = true) (hw' : isIdentifier w' = true)
  (hq : b.quoting.isInside = false)
include hw hw' hq

theorem markedFrom_next_word (ps : List Piece) :
    markedFrom (b.next (.word w)) ps = markedFrom (b.next (.word w')) ps := by
  obtain ⟨hquoting, hlast⟩ := Before.next_word hw hq
  obtain ⟨hquoting', hlast'⟩ := Before.next_word hw' hq
  exact markedFrom_congr (hquoting.trans hquoting'.symm) (iff_of_false hlast hlast') ps

theorem renamedFrom_next_word (ps : List Piece) :
    renamedFrom names (b.next (.word w)) ps = renamedFrom names (b.next (.word w')) ps := by
  obtain ⟨hquoting, hlast⟩ := Before.next_word hw hq
  obtain ⟨hquoting', hlast'⟩ := Before.next_word hw' hq
  exact renamedFrom_congr (hquoting.trans hquoting'.symm) (iff_of_false hlast hlast') ps

end

theorem isIdentifier_newWord (hnew : ∀ e ∈ names, isIdentifier e.2.toList = true)
    (hw : isIdentifier w = true) (b : Before) (ps : List Piece) :
    isIdentifier (newWord names b w ps) = true := by
  unfold newWord
  split
  next new hlookup =>
    split
    · exact hnew _ (Json.mem_of_lookup hlookup)
    · exact hw
  next => exact hw

/-- A word that refers to a type is written under its new name, and every other word as it is. -/
theorem newWord_eq (names : List (String × String)) (b : Before) (w : List Char) (ps : List Piece) :
    newWord names b w ps = if isReference b ps
      then (renamedMark names (String.ofList w, isApplied ps)).toList else w := by
  rw [newWord, renamedMark, newName]
  cases isReference b ps <;> cases isApplied ps <;> cases names.lookup (String.ofList w) <;> simp

/-- Renamed pieces are pieces of their own text. -/
theorem Cut.renamedFrom (hnew : ∀ e ∈ names, isIdentifier e.2.toList = true) (h : Cut ps)
    (b : Before) : Cut (renamedFrom names b ps) := by
  induction h generalizing b with
  | nil => exact .nil
  | mark hc _ ih => exact .mark hc (ih _)
  | @word w ps hw hends hcut ih =>
    rw [renamedFrom_word]
    refine .word (isIdentifier_newWord hnew hw b ps) ?_ (ih _)
    cases hcut with
    | nil => exact hends
    | mark hc h => exact hends
    | @word w' ps hw' _ _ =>
      cases w' with
      | nil => cases hw'
      | cons c cs =>
        have hpart := isIdentifierPart_of_mem hw' List.mem_cons_self
        rw [hends c rfl] at hpart
        cases hpart

theorem references_renamedFrom (hnew : ∀ e ∈ names, isIdentifier e.2.toList = true) (h : Cut ps)
    (b : Before) :
    referencesFrom b (renamedFrom names b ps) = (markedFrom b ps).map (renamedMark names) := by
  induction h generalizing b with
  | nil => rfl
  | mark hc _ ih => exact ih _
  | @word w ps hw _ _ ih =>
    have hidentifier := isIdentifier_newWord hnew hw b ps
    have hword := newWord_eq names b w ps
    rw [renamedFrom_word, referencesFrom, markedFrom,
      isReference_congr (marks_renamedFrom names (b.next (.word w)) ps) b]
    cases href : isReference b ps with
    | false =>
      rw [href] at hword
      rw [hword]
      exact ih _
    | true =>
      rw [href] at hword
      have houtside : b.quoting.isInside = false := by
        rw [isReference, Bool.and_eq_true, Bool.and_eq_true, Bool.not_eq_true'] at href
        exact href.1.2
      have hlater := ih (b.next (.word w))
      rw [referencesFrom_eq, markedFrom_next_word hw hidentifier houtside, ← referencesFrom_eq] at hlater
      rw [if_pos rfl, if_pos rfl, hlater, hword, List.map_cons]
      exact congrArg (· :: _) String.ofList_toList

/-- The references in a renamed text. -/
theorem references_renamed (hnew : ∀ e ∈ names, isIdentifier e.2.toList = true) (text : String) :
    references (renamed names text) = (marked {} text.toList).map (renamedMark names) := by
  have hcut : Cut (pieces text.toList) := (cut_pieces _).1
  rw [references, renamed, String.toList_ofList, (hcut.renamedFrom hnew {}).pieces_chars,
    references_renamedFrom hnew hcut, marked]

end TypedApi.TypeScript
