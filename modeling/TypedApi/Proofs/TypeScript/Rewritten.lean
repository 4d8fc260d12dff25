import TypedApi.Proofs.TypeScript.Global
import TypedApi.Proofs.TypeScript.Quoted

/-! What a renaming does to any text.

A word stands alone if it is not inside quotes, not behind a dot, not the key of a member and not
applied to others, all of which can be told from the text before it and the text behind it
(`Standalone`). Such words take their new names if they have one, and nothing else changes
(`Rewritten`). A new name leaves the quotes before later words as they were and is no old name of
another component, so to rename twice is to rename once (`rewritten_renamed`). -/
namespace TypedApi.TypeScript

variable {names : List (String × String)} {ps : List Piece}

/-! ### Places -/

/-- A word between the two texts stands for a type of its name. -/
structure Standalone (before after : List Char) : Prop where
  outside : insideQuotes before before.length = false
  undotted : before.getLast? ≠ some '.'
  unkeyed : ¬ ([':'] <+: after.dropWhile Text.isBlank ∨ ['?', ':'] <+: after.dropWhile Text.isBlank)
  unapplied : ¬ ['<'] <+: after.dropWhile Text.isBlank

/-- A mark that begins no word is the first piece exactly if it is the first character. -/
theorem head?_pieces_eq {c : Char} (hc : isIdentifierStart c = false) (cs : List Char) :
    (pieces cs).head? = some (.mark c) ↔ [c] <+: cs := by
  cases cs with
  | nil => simp [pieces, piecesFrom, closePiece]
  | cons d ds =>
    rw [List.cons_prefix_cons, and_iff_left (List.nil_prefix)]
    constructor
    · intro h
      by_contra hne
      refine head?_pieces_ne (fun e he heq => ?_) h
      obtain rfl := Option.some.inj he
      exact hne heq.symm
    · rintro rfl
      rw [pieces_mark hc]
      rfl

theorem isApplied_pieces (cs : List Char) :
    isApplied (pieces cs) = true ↔ ['<'] <+: cs.dropWhile Text.isBlank := by
  rw [isApplied, dropWhile_pieces, decide_eq_true_eq, head?_pieces_eq (by decide)]

theorem isColon_pieces (cs : List Char) :
    isColon (pieces cs) = true ↔ [':'] <+: cs ∨ ['?', ':'] <+: cs := by
  cases cs with
  | nil => simp [pieces, piecesFrom, closePiece, isColon]
  | cons c cs =>
    rw [List.cons_prefix_cons, List.cons_prefix_cons, and_iff_left (List.nil_prefix)]
    by_cases hstart : isIdentifierStart c = true
    · obtain ⟨w, more, hsplit, hw, hstop⟩ := exists_word hstart cs
      rw [hsplit, pieces_word hw hstop]
      refine iff_of_false Bool.false_ne_true ?_
      rintro (rfl | ⟨rfl, -⟩) <;> revert hstart <;> decide
    · rw [pieces_mark (Bool.eq_false_iff.mpr hstart), ← head?_pieces_eq (by decide) cs]
      by_cases hcolon : c = ':'
      · subst hcolon
        exact iff_of_true rfl (.inl rfl)
      by_cases hquestion : c = '?'
      · subst hquestion
        cases hpieces : pieces cs with
        | nil => simp [isColon]
        | cons p ps =>
          unfold isColon
          split <;> simp_all
      · simp [isColon, hcolon, hquestion, Ne.symm hcolon, Ne.symm hquestion]

/-- The scan finds the words that stand alone. -/
theorem isReference_pieces (before after : List Char) :
    (isReference (Before.past {} before) (pieces after) && !isApplied (pieces after)) = true ↔
      Standalone before after := by
  have hlast : (Before.past {} before).last = before.getLast? := by simp [Before.past]
  have hinside : (Before.past {} before).quoting.isInside = insideQuotes before before.length := by
    rw [insideQuotes, List.take_length]
    rfl
  rw [isReference, dropWhile_pieces, hlast, hinside]
  simp only [Bool.and_eq_true, Bool.not_eq_true', bne_iff_ne, ← Bool.not_eq_true, isColon_pieces,
    isApplied_pieces]
  constructor
  · rintro ⟨⟨⟨hdot, hquotes⟩, hcolon⟩, happlied⟩
    exact ⟨Bool.eq_false_iff.mpr hquotes, hdot, hcolon, happlied⟩
  · intro h
    exact ⟨⟨⟨h.undotted, Bool.eq_false_iff.mp h.outside⟩, h.unkeyed⟩, h.unapplied⟩

/-! ### Once -/

/-- The pieces behind `before`, and what becomes of them: words that stand alone take their new name if
they have one, and all other words and all that is between words stay as they are. -/
inductive Rewritten (names : List (String × String)) : List Char → List Piece → List Piece → Prop
  | nil {before : List Char} : Rewritten names before [] []
  | mark {before : List Char} {c : Char} {ps qs : List Piece}
      (h : Rewritten names (before ++ [c]) ps qs) :
      Rewritten names before (.mark c :: ps) (.mark c :: qs)
  | renamed {before w : List Char} {new : String} {ps qs : List Piece}
      (hnew : names.lookup (String.ofList w) = some new)
      (halone : Standalone before (ps.flatMap Piece.chars)) (h : Rewritten names (before ++ w) ps qs) :
      Rewritten names before (.word w :: ps) (.word new.toList :: qs)
  | kept {before w : List Char} {ps qs : List Piece}
      (hkept : names.lookup (String.ofList w) = none ∨ ¬ Standalone before (ps.flatMap Piece.chars))
      (h : Rewritten names (before ++ w) ps qs) :
      Rewritten names before (.word w :: ps) (.word w :: qs)

theorem rewritten_renamedFrom (names : List (String × String)) (h : Cut ps) (before : List Char) :
    Rewritten names before ps (renamedFrom names (Before.past {} before) ps) := by
  induction h generalizing before with
  | nil => exact .nil
  | @mark c ps hc _ ih =>
    have hlater := ih (before ++ [c])
    rw [← Before.past_append] at hlater
    exact .mark hlater
  | @word w ps hw _ hcut ih =>
    have hlater := ih (before ++ w)
    rw [← Before.past_append] at hlater
    have halone := isReference_pieces before (ps.flatMap Piece.chars)
    rw [hcut.pieces_chars] at halone
    rw [renamedFrom_word, newWord]
    cases hlookup : names.lookup (String.ofList w) with
    | none => exact .kept (.inl hlookup) hlater
    | some new =>
      dsimp only
      split
      · next hrenamed => exact .renamed hlookup (halone.mp hrenamed) hlater
      · next hkept => exact .kept (.inr (mt halone.mpr hkept)) hlater

/-! ### Twice -/

theorem newWord_cases (names : List (String × String)) (b : Before) (w : List Char)
    (ps : List Piece) : newWord names b w ps = w ∨ isReference b ps = true ∧
      ∃ new, names.lookup (String.ofList w) = some new ∧ newWord names b w ps = new.toList := by
  unfold newWord
  split
  · next new hlookup =>
    split
    · next hplace =>
      rw [Bool.and_eq_true] at hplace
      exact .inr ⟨hplace.1, new, hlookup, rfl⟩
    · exact .inl rfl
  · exact .inl rfl

/-- Renamed pieces have nothing left to rename, if the new names are no old ones. -/
theorem renamedFrom_renamedFrom (hidentifier : ∀ e ∈ names, isIdentifier e.2.toList = true)
    (hnew : ∀ e ∈ names, names.lookup e.2 = none) (h : Cut ps) (b : Before) :
    renamedFrom names b (renamedFrom names b ps) = renamedFrom names b ps := by
  induction h generalizing b with
  | nil => rfl
  | mark _ _ ih => exact congrArg (_ :: ·) (ih _)
  | @word w ps hw _ _ ih =>
    have hmarks := marks_renamedFrom names (b.next (.word w)) ps
    rw [renamedFrom_word names b w ps, renamedFrom_word, newWord_congr hmarks]
    rcases newWord_cases names b w ps with hsame | ⟨hplace, new, hlookup, hword⟩
    · rw [hsame, hsame, ih]
    · have hentry := Json.mem_of_lookup hlookup
      have hstays : newWord names b new.toList ps = new.toList := by
        rw [newWord, String.ofList_toList, hnew _ hentry]
      have houtside : b.quoting.isInside = false := by
        rw [isReference, Bool.and_eq_true, Bool.and_eq_true, Bool.not_eq_true'] at hplace
        exact hplace.1.2
      rw [hword, hstays, renamedFrom_next_word (hidentifier _ hentry) hw houtside, ih]

theorem pieces_renamed (hidentifier : ∀ e ∈ names, isIdentifier e.2.toList = true) (text : String) :
    pieces (renamed names text).toList = renamedFrom names {} (pieces text.toList) := by
  rw [renamed, String.toList_ofList, ((cut_pieces text.toList).1.renamedFrom hidentifier {}).pieces_chars]

theorem renamed_renamed (hidentifier : ∀ e ∈ names, isIdentifier e.2.toList = true)
    (hnew : ∀ e ∈ names, names.lookup e.2 = none) (text : String) :
    renamed names (renamed names text) = renamed names text := by
  rw [renamed, pieces_renamed hidentifier,
    renamedFrom_renamedFrom hidentifier hnew (cut_pieces text.toList).1 {}]
  rfl

/-- A new name is not the old name of a component that is renamed. -/
theorem Fresh.lookup_new {known taken : List String} (h : Fresh known taken names) :
    ∀ e ∈ names, names.lookup e.2 = none := by
  intro e he
  obtain ⟨n, hn⟩ := h.longer e he
  refine Json.lookup_eq_none_iff.mpr fun hkey => ?_
  obtain ⟨e', he', heq⟩ := List.mem_map.mp hkey
  refine underscored_notMem_globalTypes e.1 n ?_
  rw [← hn, ← heq]
  exact h.global e' he'

/-- For the new names of any components and for any text: the text is the concatenation of its pieces,
of which the words are as long as can be, the renamed text has the same pieces but for the words that
stand alone and have a new name, and to rename it again changes nothing. -/
theorem rewritten_renamed (known : List String) (text : String) :
    let names := freshNames known
    (Cut (pieces text.toList) ∧ (pieces text.toList).flatMap Piece.chars = text.toList) ∧
      Rewritten names [] (pieces text.toList) (pieces (renamed names text).toList) ∧
      renamed names (renamed names text) = renamed names text := by
  intro names
  obtain ⟨taken, hfresh⟩ := fresh_freshNames known
  have hcut := cut_pieces text.toList
  refine ⟨hcut, ?_, renamed_renamed hfresh.isIdentifier_new hfresh.lookup_new text⟩
  rw [pieces_renamed hfresh.isIdentifier_new]
  exact rewritten_renamedFrom names hcut.1 []

/-- A key and a word behind a dot stay, and so does the text between quotes. -/
example : renamed (freshNames ["Record", "User"]) "\x7b Record: Record \x7d | a.Record | 'Record'" =
    "\x7b Record: Record_ \x7d | a.Record | 'Record'" := by decide

end TypedApi.TypeScript
