import TypedApi.Proofs.Json.Decimal
import TypedApi.Proofs.Json.Table
import TypedApi.TypeScript.Identifier
import TypedApi.TypeScript.Name

/-! Renaming along a text.

`turned names b cs` is what becomes of `cs` behind `b`. A text is renamed part by part: a calm text,
without capitals outside quotes, stays as it is (`turned_calm`), a word stays where it cannot refer
to a component (`turned_kept`), and elsewhere it takes its new name (`turned_word`). -/
namespace TypedApi.TypeScript

/-! ### Pieces of a text -/

/-- A word that ends here goes no further. -/
def Ends (rest : List Char) : Prop := ∀ c ∈ rest.head?, isIdentifierPart c = false

theorem isIdentifierPart_of_start {c : Char} (h : isIdentifierStart c = true) :
    isIdentifierPart c = true := by
  rw [isIdentifierStart, Bool.or_eq_true, Bool.or_eq_true] at h
  rw [isIdentifierPart, Text.isAlphanumeric]
  rcases h with (h | h) | h <;> simp [h]

theorem isIdentifierPart_of_mem {w : List Char} (h : isIdentifier w = true) {c : Char} (hc : c ∈ w) :
    isIdentifierPart c = true := by
  cases w with
  | nil => cases hc
  | cons d ds =>
    rw [isIdentifier, Bool.and_eq_true, List.all_eq_true] at h
    rcases List.mem_cons.mp hc with rfl | hc
    · exact isIdentifierPart_of_start h.1
    · exact h.2 c hc

theorem isIdentifierStart_of_part {c : Char} (h : isIdentifierPart c = false) :
    isIdentifierStart c = false := by
  by_contra hstart
  rw [isIdentifierPart_of_start (by simpa using hstart)] at h
  cases h

theorem isIdentifierStart_of_isNumeral {c : Char} (h : Json.isNumeral c = true) :
    isIdentifierStart c = false := by
  have hcodes : 'a'.val.toNat = 97 ∧ 'A'.val.toNat = 65 ∧ '9'.val.toNat = 57 := ⟨rfl, rfl, rfl⟩
  have hne : ∀ d : Char, Json.isNumeral d = false → c ≠ d := fun d hd heq => by
    rw [heq, hd] at h
    cases h
  rw [Json.isNumeral_eq, Char.isDigit, Bool.and_eq_true, decide_eq_true_eq, decide_eq_true_eq] at h
  have hle := UInt32.le_iff_toNat_le.mp h.2
  rw [isIdentifierStart, Text.isLetter]
  simp only [Bool.or_eq_false_iff, Bool.and_eq_false_iff, decide_eq_false_iff_not,
    beq_eq_false_iff_ne, Char.le_def, UInt32.le_iff_toNat_le]
  exact ⟨⟨⟨.inl (by omega), .inl (by omega)⟩, hne '_' (by decide)⟩, hne '$' (by decide)⟩

theorem pieces_mark {c : Char} (h : isIdentifierStart c = false) (cs : List Char) :
    pieces (c :: cs) = .mark c :: pieces cs := by
  simp [pieces, piecesFrom, closePiece, h]

/-- The word that a text begins with. -/
theorem exists_word {c : Char} (h : isIdentifierStart c = true) (cs : List Char) :
    ∃ w more, c :: cs = w ++ more ∧ isIdentifier w = true ∧ Ends more := by
  refine ⟨c :: cs.takeWhile isIdentifierPart, cs.dropWhile isIdentifierPart, ?_, ?_, ?_⟩
  · rw [List.cons_append, List.takeWhile_append_dropWhile]
  · rw [isIdentifier, h, Bool.true_and, List.all_takeWhile]
  · intro d hd
    have hnot := List.head?_dropWhile_not isIdentifierPart cs
    rwa [Option.mem_def.mp hd] at hnot

/-- Induction along a text, which begins with a mark or with a whole word. -/
@[elab_as_elim]
theorem wordwise {motive : List Char → Prop} (nil : motive [])
    (mark : ∀ c cs, isIdentifierStart c = false → motive cs → motive (c :: cs))
    (word : ∀ w rest, isIdentifier w = true → Ends rest → motive rest → motive (w ++ rest))
    (cs : List Char) : motive cs := by
  induction hlength : cs.length using Nat.strong_induction_on generalizing cs with
  | _ n ih =>
    subst hlength
    cases cs with
    | nil => exact nil
    | cons c cs =>
      by_cases hstart : isIdentifierStart c = true
      · obtain ⟨w, rest, hsplit, hw, hends⟩ := exists_word hstart cs
        have hne : w ≠ [] := by
          rintro rfl
          cases hw
        have hshorter : rest.length < (c :: cs).length := by
          rw [hsplit, List.length_append]
          exact Nat.lt_add_of_pos_left (List.length_pos_iff.mpr hne)
        rw [hsplit]
        exact word w rest hw hends (ih _ hshorter rest rfl)
      · exact mark c cs (Bool.eq_false_iff.mpr hstart) (ih _ (Nat.lt_succ_self _) cs rfl)

theorem piecesFrom_ends {w rest : List Char} (hw : w ≠ []) (hr : Ends rest) :
    piecesFrom w rest = .word w :: pieces rest := by
  have hempty : w.isEmpty = false := List.isEmpty_eq_false_iff.mpr hw
  cases rest with
  | nil => simp [piecesFrom, closePiece, hempty, pieces]
  | cons c cs =>
    have hpart := hr c rfl
    have hstart := isIdentifierStart_of_part hpart
    rw [pieces_mark hstart]
    simp [piecesFrom, closePiece, hempty, hpart, hstart, pieces]

theorem pieces_word {w rest : List Char} (hw : isIdentifier w = true) (hr : Ends rest) :
    pieces (w ++ rest) = .word w :: pieces rest := by
  have hfrom : ∀ cs : List Char, (∀ c ∈ cs, isIdentifierPart c = true) → ∀ w, w ≠ [] →
      piecesFrom w (cs ++ rest) = .word (w ++ cs) :: pieces rest := fun cs => by
    induction cs with
    | nil => exact fun _ w hw => by rw [List.append_nil]; exact piecesFrom_ends hw hr
    | cons c cs ih =>
      intro hparts w hne
      have hempty : w.isEmpty = false := List.isEmpty_eq_false_iff.mpr hne
      have hpart := hparts c List.mem_cons_self
      rw [List.cons_append, piecesFrom, hempty, hpart]
      have hlonger := ih (fun d hd => hparts d (List.mem_cons_of_mem _ hd)) (w ++ [c]) (by simp)
      rw [List.append_assoc] at hlonger
      exact hlonger
  cases w with
  | nil => cases hw
  | cons c cs =>
    rw [isIdentifier, Bool.and_eq_true, List.all_eq_true] at hw
    have hopen : pieces (c :: (cs ++ rest)) = piecesFrom [c] (cs ++ rest) := by
      simp [pieces, piecesFrom, closePiece, hw.1]
    rw [List.cons_append, hopen]
    exact hfrom cs hw.2 [c] (by simp)

/-! ### What stands before a place -/

theorem Quoting.after_append (q : Quoting) (xs ys : List Char) :
    q.after (xs ++ ys) = (q.after xs).after ys :=
  List.foldl_append

/-- What stands before the end of `cs`. -/
def Before.past (b : Before) (cs : List Char) : Before :=
  { quoting := b.quoting.after cs, last := cs.getLast? <|> b.last }

theorem Before.past_append (b : Before) (xs ys : List Char) :
    (b.past xs).past ys = b.past (xs ++ ys) := by
  have hlast : (ys.getLast? <|> (xs.getLast? <|> b.last)) = ((xs ++ ys).getLast? <|> b.last) := by
    simp only [Option.orElse_eq_orElse, Option.orElse_eq_or, List.getLast?_append, Option.or_assoc]
  rw [past, past, past, ← Quoting.after_append, hlast]

/-- What becomes of a text behind `b`. -/
def turned (names : List (String × String)) (b : Before) (cs : List Char) : List Char :=
  (renamedFrom names b (pieces cs)).flatMap Piece.chars

variable {names : List (String × String)} {b : Before} {w rest : List Char}

theorem renamed_eq (names : List (String × String)) (text : String) :
    renamed names text = String.ofList (turned names {} text.toList) := rfl

section
variable {b' : Before} (hq : b.quoting = b'.quoting) (hlast : b.last = some '.' ↔ b'.last = some '.')
include hq hlast

theorem Before.next_congr (p : Piece) : (b.next p).quoting = (b'.next p).quoting ∧
    ((b.next p).last = some '.' ↔ (b'.next p).last = some '.') := by
  refine ⟨by rw [Before.next, Before.next, hq], ?_⟩
  rw [Before.next, Before.next]
  cases p.chars.getLast? with
  | none => exact hlast
  | some c => exact Iff.rfl

theorem isReference_of_before (ps : List Piece) : isReference b ps = isReference b' ps := by
  have hdot : (b.last != some '.') = (b'.last != some '.') := by
    rw [Bool.eq_iff_iff, bne_iff_ne, bne_iff_ne, Ne, Ne, hlast]
  rw [isReference, isReference, hdot, hq]

/-- Nothing but the quotes and a dot just before them matters to pieces. -/
theorem renamedFrom_congr (ps : List Piece) : renamedFrom names b ps = renamedFrom names b' ps := by
  induction ps generalizing b b' with
  | nil => rfl
  | cons p ps ih =>
    obtain ⟨hquoting, hdot⟩ := Before.next_congr hq hlast p
    have hnext := ih hquoting hdot
    cases p with
    | mark c => exact congrArg (_ :: ·) hnext
    | word w => simp only [renamedFrom, hnext, isReference_of_before hq hlast ps]

theorem turned_congr (cs : List Char) : turned names b cs = turned names b' cs :=
  congrArg (List.flatMap Piece.chars) (renamedFrom_congr hq hlast (pieces cs))

end

theorem turned_mark {c : Char} (h : isIdentifierStart c = false) (cs : List Char) :
    turned names b (c :: cs) = c :: turned names (b.past [c]) cs := by
  rw [turned, pieces_mark h]
  rfl

/-! ### Words -/

/-- A word that no renaming touches: it has no new name, it does not refer to a type, or it is
applied to others. -/
def Kept (names : List (String × String)) (b : Before) (w rest : List Char) : Prop :=
  names.lookup (String.ofList w) = none ∨ isReference b (pieces rest) = false ∨
    isApplied (pieces rest) = true

theorem renamedFrom_kept (h : Kept names b w rest) :
    renamedFrom names b (.word w :: pieces rest) =
      .word w :: renamedFrom names (b.past w) (pieces rest) := by
  rw [renamedFrom]
  cases hlookup : names.lookup (String.ofList w) with
  | none => rfl
  | some new =>
    rcases h with h | h | h
    · rw [hlookup] at h
      cases h
    · rw [h]
      rfl
    · rw [h, Bool.not_true, Bool.and_false]
      rfl

theorem turned_kept (hw : isIdentifier w = true) (hr : Ends rest) (h : Kept names b w rest) :
    turned names b (w ++ rest) = w ++ turned names (b.past w) rest := by
  rw [turned, pieces_word hw hr, renamedFrom_kept h]
  rfl

theorem turned_word {new : String} (hw : isIdentifier w = true) (hr : Ends rest)
    (hname : names.lookup (String.ofList w) = some new) (href : isReference b (pieces rest) = true)
    (happlied : isApplied (pieces rest) = false) :
    turned names b (w ++ rest) = new.toList ++ turned names (b.past w) rest := by
  rw [turned, pieces_word hw hr, renamedFrom, hname, href, happlied]
  rfl

/-! ### Calm texts -/

/-- No capital stands outside quotes. -/
def isCalm : Quoting → List Char → Bool
  | _, [] => true
  | q, c :: cs => (q.isInside || !isUpper c) && isCalm (q.next c) cs

theorem isCalm_append (q : Quoting) (xs ys : List Char) :
    isCalm q (xs ++ ys) = (isCalm q xs && isCalm (q.after xs) ys) := by
  induction xs generalizing q with
  | nil => rfl
  | cons x xs ih =>
    rw [List.cons_append, isCalm, isCalm, ih, Bool.and_assoc]
    rfl

/-- No word begins outside quotes. -/
def isMute : Quoting → List Char → Bool
  | _, [] => true
  | q, c :: cs => (q.isInside || !isIdentifierStart c) && isMute (q.next c) cs

theorem isMute_append (q : Quoting) (xs ys : List Char) :
    isMute q (xs ++ ys) = (isMute q xs && isMute (q.after xs) ys) := by
  induction xs generalizing q with
  | nil => rfl
  | cons x xs ih =>
    rw [List.cons_append, isMute, isMute, ih, Bool.and_assoc]
    rfl

theorem isUpper_eq_false {c : Char} (h : isIdentifierStart c = false) : isUpper c = false := by
  rw [isIdentifierStart, Text.isLetter, Bool.or_eq_false_iff, Bool.or_eq_false_iff,
    Bool.or_eq_false_iff] at h
  exact h.1.1.2

theorem isCalm_of_isMute {q : Quoting} {cs : List Char} (h : isMute q cs = true) :
    isCalm q cs = true := by
  induction cs generalizing q with
  | nil => rfl
  | cons c cs ih =>
    rw [isMute, Bool.and_eq_true, Bool.or_eq_true, Bool.not_eq_true'] at h
    rw [isCalm, ih h.2, Bool.and_true, Bool.or_eq_true, Bool.not_eq_true']
    exact h.1.imp_right isUpper_eq_false

/-- Inside quotes at every place of the text, and behind it. -/
def isHeld : Quoting → List Char → Bool
  | q, [] => q.isInside
  | q, c :: cs => q.isInside && isHeld (q.next c) cs

theorem isHeld_append (q : Quoting) (xs ys : List Char) :
    isHeld q (xs ++ ys) = (isHeld q xs && isHeld (q.after xs) ys) := by
  induction xs generalizing q with
  | nil =>
    -- the end of the first text is a place of the second
    have hstart : isHeld q ys = (q.isInside && isHeld q ys) := by
      cases ys with
      | nil => exact (Bool.and_self _).symm
      | cons y ys => rw [isHeld, ← Bool.and_assoc, Bool.and_self]
    exact hstart
  | cons x xs ih =>
    rw [List.cons_append, isHeld, isHeld, ih, Bool.and_assoc]
    rfl

theorem isMute_of_isHeld {q : Quoting} {cs : List Char} (h : isHeld q cs = true) :
    isMute q cs = true := by
  induction cs generalizing q with
  | nil => rfl
  | cons c cs ih =>
    rw [isHeld, Bool.and_eq_true] at h
    rw [isMute, h.1, Bool.true_or, Bool.true_and]
    exact ih h.2

/-- Every name in the table begins with a capital. -/
def Capital (names : List (String × String)) : Prop :=
  ∀ e ∈ names, ∃ c cs, e.1.toList = c :: cs ∧ isUpper c = true

theorem Capital.lookup_eq_none (h : Capital names) {w : List Char}
    (hw : ∀ c ∈ w.head?, isUpper c = false) : names.lookup (String.ofList w) = none := by
  by_contra hsome
  obtain ⟨new, hnew⟩ := Option.ne_none_iff_exists'.mp hsome
  obtain ⟨c, cs, hname, hupper⟩ := h _ (Json.mem_of_lookup hnew)
  rw [String.toList_ofList] at hname
  rw [hw c (by rw [hname]; rfl)] at hupper
  cases hupper

theorem isReference_of_isInside (h : b.quoting.isInside = true) (ps : List Piece) :
    isReference b ps = false := by
  rw [isReference, h, Bool.not_true, Bool.and_false, Bool.false_and]

theorem kept_of_isCalm (hcapital : Capital names) {xs : List Char} (hcalm : isCalm b.quoting xs = true)
    (hw : w.head? = xs.head?) : Kept names b w rest := by
  cases xs with
  | nil => exact .inl (hcapital.lookup_eq_none (by simp [hw]))
  | cons c cs =>
    rw [isCalm, Bool.and_eq_true, Bool.or_eq_true, Bool.not_eq_true'] at hcalm
    rcases hcalm.1 with hinside | hupper
    · exact .inr (.inl (isReference_of_isInside hinside _))
    · exact .inl (hcapital.lookup_eq_none (by simp [hw, hupper]))

theorem mem_getLast?_append (xs : List Char) {ys : List Char} {c : Char} (h : c ∈ ys.getLast?) :
    c ∈ (xs ++ ys).getLast? := by
  rw [List.getLast?_append, Option.mem_def.mp h]
  rfl

/-- The first word of a text ends if the text does, or if its last word does not go on. -/
theorem ends_append {more : List Char} (hw : isIdentifier w = true) (hstop : Ends more)
    (hends : ∀ c ∈ (w ++ more).getLast?, isIdentifierPart c = true → Ends rest) :
    Ends (more ++ rest) := by
  cases more with
  | cons d ds => exact hstop
  | nil =>
    have hne : w ≠ [] := by
      rintro rfl
      cases hw
    obtain ⟨d, hd⟩ := Option.ne_none_iff_exists'.mp (mt List.getLast?_eq_none_iff.mp hne)
    rw [List.append_nil] at hends
    exact hends d hd (isIdentifierPart_of_mem hw (List.mem_of_getLast? hd))

/-- A calm text stays, if its last word ends with it. -/
theorem turned_calm (hcapital : Capital names) (xs : List Char) (b : Before)
    (hcalm : isCalm b.quoting xs = true)
    (hends : ∀ c ∈ xs.getLast?, isIdentifierPart c = true → Ends rest) :
    turned names b (xs ++ rest) = xs ++ turned names (b.past xs) rest := by
  induction xs using wordwise generalizing b with
  | nil => rfl
  | mark c cs hmark ih =>
    rw [isCalm, Bool.and_eq_true] at hcalm
    have hmore := ih (b.past [c]) hcalm.2 fun d hd => hends d (mem_getLast?_append [c] hd)
    rw [List.cons_append, turned_mark hmark, hmore, Before.past_append]
    rfl
  | word w more hw hstop ih =>
    have hkept : Kept names b w (more ++ rest) := by
      refine kept_of_isCalm hcapital hcalm ?_
      cases w with
      | nil => cases hw
      | cons d ds => rfl
    rw [isCalm_append, Bool.and_eq_true] at hcalm
    have hmore := ih (b.past w) hcalm.2 fun d hd => hends d (mem_getLast?_append w hd)
    rw [List.append_assoc, turned_kept hw (ends_append hw hstop hends) hkept, hmore,
      Before.past_append, List.append_assoc]

/-! ### Quoted texts -/

theorem toList_quoted (s : String) :
    (quoted s).toList = '"' :: (s.toList.flatMap escapeChar ++ ['"']) := by
  simp only [quoted, escape, String.toList_append, String.toList_ofList]
  rfl

/-- Inside double quotes. -/
def Quoting.double : Quoting := { opening := some '"' }

theorem Quoting.next_double {c : Char} (hquote : c ≠ '"') (hbackslash : c ≠ '\\') :
    Quoting.double.next c = .double := by
  simp [double, next, hquote, hbackslash]

/-- An escaped character neither leaves the quotes nor a backslash open. -/
theorem held_escapeChar (c : Char) :
    isHeld .double (escapeChar c) = true ∧ Quoting.double.after (escapeChar c) = .double := by
  unfold escapeChar
  repeat' split
  iterate 5 decide
  · have hdigit : ∀ k, Quoting.double.next (hexDigit (k % 16)) = .double := fun k => by
      have hhex : ∀ k < 16, hexDigit k ≠ '"' ∧ hexDigit k ≠ '\\' := by decide
      obtain ⟨hquote, hbackslash⟩ := hhex (k % 16) (Nat.mod_lt _ (by decide))
      exact Quoting.next_double hquote hbackslash
    have hopen : (Quoting.double.next '\\').next 'u' = .double := by decide
    simp only [hex4, isHeld, Quoting.after, List.foldl_cons, List.foldl_nil, hopen, hdigit]
    exact ⟨rfl, trivial⟩
  · next hbackslash hquote _ _ _ _ =>
    simp only [isHeld, Quoting.after, List.foldl_cons, List.foldl_nil,
      Quoting.next_double hquote hbackslash]
    exact ⟨rfl, trivial⟩

theorem held_escaped (cs : List Char) :
    isHeld .double (cs.flatMap escapeChar) = true ∧
      Quoting.double.after (cs.flatMap escapeChar) = .double := by
  induction cs with
  | nil => decide
  | cons c cs ih =>
    rw [List.flatMap_cons, isHeld_append, Quoting.after_append, (held_escapeChar c).1,
      (held_escapeChar c).2]
    exact ih

/-! ### What follows a word -/

theorem isIdentifierStart_of_isBlank {c : Char} (h : Text.isBlank c = true) :
    isIdentifierStart c = false := by
  have hcodes : 'a'.val.toNat = 97 ∧ 'z'.val.toNat = 122 ∧ 'A'.val.toNat = 65 ∧ 'Z'.val.toNat = 90 :=
    ⟨rfl, rfl, rfl, rfl⟩
  simp only [Text.isBlank, Bool.or_eq_true, Bool.and_eq_true, decide_eq_true_eq, beq_iff_eq,
    Char.toNat] at h
  rw [isIdentifierStart, Text.isLetter]
  simp only [Bool.or_eq_false_iff, Bool.and_eq_false_iff, decide_eq_false_iff_not,
    beq_eq_false_iff_ne, Char.le_def, UInt32.le_iff_toNat_le]
  refine ⟨⟨⟨by omega, by omega⟩, ?_⟩, ?_⟩
  · rintro rfl
    revert h
    decide
  · rintro rfl
    revert h
    decide

theorem dropWhile_pieces (cs : List Char) :
    (pieces cs).dropWhile Piece.isBlank = pieces (cs.dropWhile Text.isBlank) := by
  induction cs with
  | nil => rfl
  | cons c cs ih =>
    by_cases hblank : Text.isBlank c = true
    · have hpiece : (Piece.mark c).isBlank = true := hblank
      rw [pieces_mark (isIdentifierStart_of_isBlank hblank), List.dropWhile_cons_of_pos hpiece,
        List.dropWhile_cons_of_pos hblank, ih]
    · rw [List.dropWhile_cons_of_neg hblank]
      by_cases hstart : isIdentifierStart c = true
      · obtain ⟨w, more, hsplit, hw, hstop⟩ := exists_word hstart cs
        rw [hsplit, pieces_word hw hstop]
        rfl
      · have hpiece : ¬ (Piece.mark c).isBlank = true := hblank
        rw [pieces_mark (Bool.eq_false_iff.mpr hstart), List.dropWhile_cons_of_neg hpiece]

/-- What may follow a reference to a type: the word ends, and it is neither applied to others nor
the key of a member. -/
structure Neutral (rest : List Char) : Prop where
  ends : Ends rest
  behind : ∀ c ∈ (rest.dropWhile Text.isBlank).head?, c ∉ [':', '?', '<']

/-- A text that does not begin with one of these marks has no such piece at its head. -/
theorem head?_pieces_ne {c : Char} {cs : List Char} (h : ∀ d ∈ cs.head?, d ≠ c) :
    (pieces cs).head? ≠ some (.mark c) := by
  cases cs using wordwise with
  | nil => exact nofun
  | mark d ds hmark _ =>
    rw [pieces_mark hmark]
    exact fun heq => h d rfl (Piece.mark.inj (Option.some.inj heq))
  | word w more hw hstop _ =>
    rw [pieces_word hw hstop]
    exact nofun

theorem Neutral.isApplied (h : Neutral rest) : isApplied (pieces rest) = false := by
  rw [TypeScript.isApplied, dropWhile_pieces, decide_eq_false_iff_not]
  exact head?_pieces_ne fun d hd heq => h.behind d hd (by simp [heq])

theorem Neutral.isReference (h : Neutral rest) (hq : b.quoting = {}) (hlast : b.last ≠ some '.') :
    isReference b (pieces rest) = true := by
  have hcolon : isColon (pieces (rest.dropWhile Text.isBlank)) = false := by
    have hne : ∀ c, c ∈ [':', '?', '<'] →
        (pieces (rest.dropWhile Text.isBlank)).head? ≠ some (.mark c) := fun c hc =>
      head?_pieces_ne fun d hd heq => h.behind d hd (heq ▸ hc)
    unfold isColon
    split
    · next heq => exact absurd (by rw [heq]; rfl) (hne ':' (by simp))
    · next heq => exact absurd (by rw [heq]; rfl) (hne '?' (by simp))
    · rfl
  rw [TypeScript.isReference, dropWhile_pieces, hcolon, hq, bne_iff_ne.mpr hlast]
  rfl

theorem neutral_nil : Neutral [] := ⟨nofun, nofun⟩

/-- A text that may stand behind references to types, whatever follows it. -/
def cuts (cs : List Char) : Bool :=
  (cs.head?.any fun c => !isIdentifierPart c) &&
    (cs.dropWhile Text.isBlank).head?.any fun c => !([':', '?', '<'].contains c)

theorem neutral_append {cs : List Char} (h : cuts cs = true) (rest : List Char) :
    Neutral (cs ++ rest) := by
  rw [cuts, Bool.and_eq_true, Option.any_eq_true, Option.any_eq_true] at h
  obtain ⟨⟨c, hc, hpart⟩, d, hd, hmark⟩ := h
  constructor
  · intro e he
    rw [List.head?_append, hc] at he
    cases he
    simpa using hpart
  · intro e he
    have hne : (cs.dropWhile Text.isBlank).isEmpty = false := by
      rw [List.isEmpty_eq_false_iff]
      rintro hnil
      rw [hnil] at hd
      cases hd
    rw [List.dropWhile_append, hne, if_neg Bool.false_ne_true, List.head?_append, hd] at he
    cases he
    simpa using hmark

end TypedApi.TypeScript
