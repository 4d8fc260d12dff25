import Mathlib.Data.List.Forall2
import TypedApi.Proofs.TypeScript.Pieces
import TypedApi.TypeScript.Type

/-! Texts that a renaming turns into each other.

`Turns names dot x y` says that `x` becomes `y` wherever a type may stand, also behind a dot if
`dot` is set. How the text of a type is put together is followed part by part. Where texts are
compared, it takes the way back as well: a `Swap` has a table for either direction, and the texts
that it exchanges are equal on the one side exactly if they are on the other. -/
namespace TypedApi.TypeScript

/-- The start of a text, or the place behind a dot. -/
def Before.start (dot : Bool) : Before := { last := if dot then some '.' else none }

/-- Renaming turns `x` into `y`, whatever neutral text follows. -/
def Turns (names : List (String × String)) (dot : Bool) (x y : String) : Prop :=
  ∀ rest, Neutral rest →
    turned names (.start dot) (x.toList ++ rest) = y.toList ++ turned names {} rest

variable {names : List (String × String)} {dot : Bool} {b : Before} {rest : List Char}
  {x y x' y' : String}

theorem Turns.renamed_eq (h : Turns names false x y) : renamed names x = y := by
  have hturned := h [] neutral_nil
  rw [List.append_nil] at hturned
  have hrest : turned names {} [] = [] := rfl
  rw [hrest, List.append_nil] at hturned
  rw [TypeScript.renamed_eq]
  exact (congrArg String.ofList hturned).trans (String.ofList_toList)

theorem Quoting.after_parts {cs : List Char} (h : ∀ c ∈ cs, isIdentifierPart c = true) :
    Quoting.after {} cs = {} := by
  have hpart : ∀ c, isIdentifierPart c = true → Quoting.next {} c = {} := fun c hc => by
    have hquote : c ≠ '"' ∧ c ≠ '\'' := by
      constructor <;> rintro rfl <;> revert hc <;> decide
    simp [Quoting.next, hquote]
  induction cs with
  | nil => rfl
  | cons c cs ih =>
    rw [Quoting.after, List.foldl_cons, hpart c (h c List.mem_cons_self)]
    exact ih fun d hd => h d (List.mem_cons_of_mem _ hd)

theorem Quoting.after_word {w : List Char} (hw : isIdentifier w = true) :
    Quoting.after {} w = {} :=
  Quoting.after_parts fun _ hc => isIdentifierPart_of_mem hw hc

/-! ### Parts that stay -/

theorem turned_of_open (hq : b.quoting = {}) (hlast : b.last ≠ some '.') (cs : List Char) :
    turned names b cs = turned names {} cs :=
  turned_congr hq ⟨fun h => absurd h hlast, fun h => by cases h⟩ cs

/-- Where no word goes on, a dot does not matter. -/
theorem turned_of_ends (hq : b.quoting = {}) (hr : Ends rest) :
    turned names b rest = turned names {} rest := by
  cases rest with
  | nil => rfl
  | cons c cs =>
    have hstart := isIdentifierStart_of_part (hr c rfl)
    rw [turned_mark hstart, turned_mark hstart]
    have hquoting : (b.past [c]).quoting = (Before.past {} [c]).quoting :=
      congrArg (Quoting.after · [c]) hq
    have hlast : (b.past [c]).last = some '.' ↔ (Before.past {} [c]).last = some '.' := Iff.rfl
    rw [turned_congr hquoting hlast]

/-- A calm text whose quotes are closed. -/
def Still (x : String) : Prop := isCalm {} x.toList = true ∧ Quoting.after {} x.toList = {}

instance (x : String) : Decidable (Still x) := inferInstanceAs (Decidable (_ ∧ _))

/-- A mute text whose quotes are closed. -/
def Mute (x : String) : Prop := isMute {} x.toList = true ∧ Quoting.after {} x.toList = {}

instance (x : String) : Decidable (Mute x) := inferInstanceAs (Decidable (_ ∧ _))

theorem Mute.still (h : Mute x) : Still x := ⟨isCalm_of_isMute h.1, h.2⟩

/-- A type may begin behind the text. -/
def opens (cs : List Char) : Bool := cs.getLast?.any fun c => !isIdentifierPart c && c != '.'

/-- Ready to stand before types, and between them. -/
def Opening (x : String) : Prop := Still x ∧ opens x.toList = true

instance (x : String) : Decidable (Opening x) := inferInstanceAs (Decidable (_ ∧ _))

def Separating (x : String) : Prop := Still x ∧ cuts x.toList = true

instance (x : String) : Decidable (Separating x) := inferInstanceAs (Decidable (_ ∧ _))

theorem turned_opening (hcapital : Capital names) (h : Opening x) (hq : b.quoting = {})
    (rest : List Char) :
    turned names b (x.toList ++ rest) = x.toList ++ turned names {} rest := by
  obtain ⟨⟨hcalm, hquoting⟩, hopens⟩ := h
  rw [opens, Option.any_eq_true] at hopens
  obtain ⟨c, hc, hpart⟩ := hopens
  rw [Bool.and_eq_true, Bool.not_eq_true', bne_iff_ne] at hpart
  rw [turned_calm hcapital _ _ (by rw [hq]; exact hcalm) fun d hd hpart' => ?_,
    turned_of_open (by rw [Before.past, hq]; exact hquoting) ?_]
  · rw [Before.past, hc]
    exact fun heq => hpart.2 (Option.some.inj heq)
  · rw [hc] at hd
    cases hd
    rw [hpart.1] at hpart'
    cases hpart'

theorem turns_still (hcapital : Capital names) (h : Still x) : Turns names dot x x := by
  intro rest hr
  rw [turned_calm hcapital _ _ h.1 fun _ _ _ => hr.ends, turned_of_ends h.2 hr.ends]

theorem Turns.behind (hcapital : Capital names) {pre : String} (hpre : Opening pre)
    (h : Turns names false x y) : Turns names dot (pre ++ x) (pre ++ y) := by
  intro rest hr
  rw [String.toList_append, String.toList_append, List.append_assoc, List.append_assoc,
    turned_opening hcapital hpre rfl]
  exact congrArg _ (h rest hr)

theorem Turns.before (hcapital : Capital names) {post : String} (hpost : Separating post)
    (h : Turns names dot x y) : Turns names dot (x ++ post) (y ++ post) := by
  intro rest hr
  rw [String.toList_append, String.toList_append, List.append_assoc, List.append_assoc,
    h _ (neutral_append hpost.2 rest)]
  have hstill : Turns names false post post := turns_still hcapital hpost.1
  exact congrArg _ (hstill rest hr)

theorem Turns.between (hcapital : Capital names) {sep : String} (hopening : Opening sep)
    (hcuts : cuts sep.toList = true) (h : Turns names dot x y) (h' : Turns names false x' y') :
    Turns names dot (x ++ sep ++ x') (y ++ sep ++ y') := by
  intro rest hr
  simp only [String.toList_append, List.append_assoc]
  rw [h _ (neutral_append hcuts _)]
  have hturned : Turns names false (sep ++ x') (sep ++ y') := h'.behind hcapital hopening
  have hbehind := hturned rest hr
  simp only [String.toList_append, List.append_assoc] at hbehind
  exact congrArg _ hbehind

theorem Turns.behindDots (h : Turns names true x y) :
    Turns names false ("..." ++ x) ("..." ++ y) := by
  intro rest hr
  have hdots : ∀ cs : List Char,
      turned names {} ("...".toList ++ cs) = "...".toList ++ turned names (.start true) cs := by
    intro cs
    show turned names {} ('.' :: '.' :: '.' :: cs) = '.' :: '.' :: '.' :: turned names _ cs
    rw [turned_mark (by decide), turned_mark (by decide), turned_mark (by decide)]
    rfl
  rw [String.toList_append, String.toList_append, List.append_assoc, List.append_assoc]
  exact (hdots _).trans (congrArg _ (h rest hr))

/-! ### Words -/

/-- A word without a new name stays, also behind a dot. -/
theorem turns_word {w : String} (hw : isIdentifier w.toList = true) (h : names.lookup w = none) :
    Turns names dot w w := by
  intro rest hr
  have hkept : Kept names (.start dot) w.toList rest := .inl (by rw [String.ofList_toList, h])
  rw [turned_kept hw hr.ends hkept, turned_of_ends (Quoting.after_word hw) hr.ends]

/-- A name turns into the new one, unless it stands behind a dot. -/
theorem turns_name {w new : String} (hw : isIdentifier w.toList = true)
    (h : names.lookup w = some new) : Turns names false w new := by
  intro rest hr
  have hlookup : names.lookup (String.ofList w.toList) = some new := by rw [String.ofList_toList, h]
  rw [turned_word hw hr.ends hlookup (hr.isReference rfl fun h => by cases h) hr.isApplied,
    turned_of_ends (Quoting.after_word hw) hr.ends]

/-- Behind a dot every word stays. -/
theorem turns_dotted {w : String} (hw : isIdentifier w.toList = true) : Turns names true w w := by
  intro rest hr
  have hkept : Kept names (.start true) w.toList rest := .inr (.inl rfl)
  rw [turned_kept hw hr.ends hkept, turned_of_ends (Quoting.after_word hw) hr.ends]

/-- A member of an object whose name is in small letters. -/
theorem Turns.member (hcapital : Capital names) {object : String}
    (hobject : isIdentifier object.toList = true)
    (hsmall : object.toList.head?.any isUpper = false) (h : Turns names true x y) :
    Turns names dot (object ++ "." ++ x) (object ++ "." ++ y) := by
  intro rest hr
  have hends : ∀ cs : List Char, Ends ('.' :: cs) := fun cs c hc => by
    cases hc
    decide
  have hdot : ∀ cs : List Char, turned names {} ('.' :: cs) = '.' :: turned names (.start true) cs :=
    fun cs => turned_mark (by decide) cs
  have hopen : ∀ cs : List Char, ".".toList ++ cs = '.' :: cs := fun _ => rfl
  have hlookup := hcapital.lookup_eq_none ((Option.any_eq_false _ _).mp hsmall)
  simp only [String.toList_append, List.append_assoc]
  rw [hopen, hopen, turned_kept hobject (hends _) (.inl hlookup),
    turned_of_ends (Quoting.after_word hobject) (hends _), hdot, h rest hr]

/-- A word that is applied to others stays. -/
theorem Turns.applied (hcapital : Capital names) {w : String} (hw : isIdentifier w.toList = true)
    (h : Turns names false x y) :
    Turns names dot (w ++ "<" ++ x ++ ">") (w ++ "<" ++ y ++ ">") := by
  intro rest hr
  have hkept : ∀ cs : List Char, Kept names (.start dot) w.toList ('<' :: cs) := fun cs => by
    refine .inr (.inr ?_)
    rw [pieces_mark (by decide)]
    rfl
  have hends : ∀ cs : List Char, Ends ('<' :: cs) := fun cs c hc => by
    cases hc
    decide
  have hinner : Turns names false ("<" ++ x ++ ">") ("<" ++ y ++ ">") :=
    (h.behind hcapital (by decide)).before hcapital (by decide)
  have hturned := hinner rest hr
  simp only [String.toList_append, List.append_assoc] at hturned ⊢
  have hopen : ∀ cs : List Char, "<".toList ++ cs = '<' :: cs := fun _ => rfl
  rw [hopen] at hturned ⊢
  rw [turned_kept hw (hends _) (hkept _), turned_of_ends (Quoting.after_word hw) (hends _)]
  exact congrArg _ hturned

/-! ### Literals -/

/-- A character that neither begins a name in capitals nor opens quotes. -/
def Bare (c : Char) : Prop := isUpper c = false ∧ c ≠ '"' ∧ c ≠ '\''

theorem still_of_bare (h : ∀ c ∈ x.toList, Bare c) : Still x := by
  have hall : ∀ cs : List Char, (∀ c ∈ cs, Bare c) →
      isCalm {} cs = true ∧ Quoting.after {} cs = {} := by
    intro cs hcs
    induction cs with
    | nil => exact ⟨rfl, rfl⟩
    | cons c cs ih =>
      obtain ⟨hupper, hdouble, hsingle⟩ := hcs c List.mem_cons_self
      have hnext : Quoting.next {} c = {} := by simp [Quoting.next, hdouble, hsingle]
      obtain ⟨hcalm, hafter⟩ := ih fun d hd => hcs d (List.mem_cons_of_mem _ hd)
      rw [isCalm, hupper, hnext, hcalm, Quoting.after, List.foldl_cons, hnext]
      exact ⟨rfl, hafter⟩
  exact hall _ h

/-- A character that neither begins a word nor opens quotes. -/
def Silent (c : Char) : Prop := isIdentifierStart c = false ∧ c ≠ '"' ∧ c ≠ '\''

theorem Silent.bare {c : Char} (h : Silent c) : Bare c := ⟨isUpper_eq_false h.1, h.2⟩

theorem mute_of_silent (h : ∀ c ∈ x.toList, Silent c) : Mute x := by
  refine ⟨?_, (still_of_bare fun c hc => (h c hc).bare).2⟩
  have hall : ∀ cs : List Char, (∀ c ∈ cs, Silent c) → ∀ q, isMute q cs = true := by
    intro cs hcs
    induction cs with
    | nil => exact fun _ => rfl
    | cons c cs ih =>
      intro q
      obtain ⟨hc, hcs⟩ := List.forall_mem_cons.mp hcs
      rw [isMute, hc.1, ih hcs, Bool.not_false, Bool.or_true, Bool.and_true]
  exact hall _ h {}

theorem silent_of_isNumeral {c : Char} (h : Json.isNumeral c = true) : Silent c := by
  have hne : ∀ d : Char, Json.isNumeral d = false → c ≠ d := fun d hd heq => by
    rw [heq, hd] at h
    cases h
  exact ⟨isIdentifierStart_of_isNumeral h, hne '"' (by decide), hne '\'' (by decide)⟩

/-- A number is written without letters, or with one `e` before the sign of its exponent. -/
theorem render_cases (n : Json.Number) :
    (∀ c ∈ n.render, Silent c) ∨ ∃ mantissa sign digits,
      n.render = mantissa ++ 'e' :: sign :: digits ∧ sign ∈ ['-', '+'] ∧
        (∀ c ∈ mantissa, Silent c) ∧ ∀ c ∈ digits, Silent c := by
  have hsigns : ∀ c ∈ ['-', '+', '.', '0'], Silent c := by
    simp only [Silent]
    exact Json.forall_mem_of_all (by decide)
  have hdigits : ∀ {m : Nat}, ∀ c ∈ Nat.toDigits 10 m, Silent c := fun c hc =>
    silent_of_isNumeral (Json.isNumeral_of_mem_toDigits hc)
  have hzeros : ∀ {m : Nat}, ∀ c ∈ List.replicate m '0', Silent c := fun c hc =>
    silent_of_isNumeral (Json.isNumeral_of_mem_zeros hc)
  have happend : ∀ {xs ys : List Char}, (∀ c ∈ xs, Silent c) → (∀ c ∈ ys, Silent c) →
      ∀ c ∈ xs ++ ys, Silent c := fun hxs hys c hc => (List.mem_append.mp hc).elim (hxs c) (hys c)
  have hcons : ∀ {d : Char} {xs : List Char}, d ∈ ['-', '+', '.', '0'] → (∀ c ∈ xs, Silent c) →
      ∀ c ∈ d :: xs, Silent c := fun hd hxs => List.forall_mem_cons.mpr ⟨hsigns _ hd, hxs⟩
  have hnil : ∀ c ∈ ([] : List Char), Silent c := List.forall_mem_nil _
  cases n with
  | int n =>
    refine .inl (happend ?_ hdigits)
    split
    · exact hcons (by decide) hnil
    · exact hnil
  | real d =>
    have hnegative : ∀ c ∈ if d.negative then ['-'] else [], Silent c := by
      split
      · exact hcons (by decide) hnil
      · exact hnil
    rw [Json.Number.render, Json.Decimal.render]
    generalize (if d.negative = true then ['-'] else []) = negative at hnegative ⊢
    dsimp only
    split
    · exact .inl (happend hnegative (hcons (by decide) (hcons (by decide) (hcons (by decide) hnil))))
    split
    · exact .inl (happend hnegative
        (hcons (by decide) (hcons (by decide) (happend hzeros hdigits))))
    split
    · refine .inl (happend hnegative ?_)
      split
      · exact happend (happend hdigits hzeros) (hcons (by decide) (hcons (by decide) hnil))
      · exact happend (fun c hc => hdigits c (List.mem_of_mem_take hc))
          (hcons (by decide) fun c hc => hdigits c (List.mem_of_mem_drop hc))
    · refine .inr ⟨_, _, _, (List.append_assoc ..).symm, ?_, happend hnegative ?_, hdigits⟩
      · split <;> decide
      · split
        · exact hnil
        · next c heq => exact heq ▸ hdigits
        · next c rest heq =>
          obtain ⟨hc, hrest⟩ := List.forall_mem_cons.mp (heq ▸ hdigits)
          exact List.forall_mem_cons.mpr ⟨hc, hcons (by decide) hrest⟩

theorem bare_render (n : Json.Number) : ∀ c ∈ n.render, Bare c := by
  have hsigns : ∀ c ∈ ['-', '+', '.', 'e'], Bare c := by
    simp only [Bare]
    exact Json.forall_mem_of_all (by decide)
  exact Json.Number.forall_mem_render (fun c hc => (silent_of_isNumeral hc).bare) hsigns n

theorem mute_quoted (s : String) : Mute (quoted s) := by
  obtain ⟨hheld, hafter⟩ := held_escaped s.toList
  have hopen : Quoting.next {} '"' = .double := rfl
  refine ⟨?_, ?_⟩
  · rw [toList_quoted, isMute, hopen, isMute_append, isMute_of_isHeld hheld, hafter]
    decide
  · rw [toList_quoted, Quoting.after, List.foldl_cons, hopen, ← Quoting.after, Quoting.after_append,
      hafter]
    decide

theorem still_quoted (s : String) : Still (quoted s) := (mute_quoted s).still

theorem toList_literal (n : Json.Number) : (literal (.num n)).toList = n.render := by
  have hwrite : Json.write (.num n) [] = n.render ++ [] := rfl
  show (Json.compact (.num n)).toList = n.render
  rw [Json.compact, String.toList_ofList, hwrite, List.append_nil]

theorem still_literal (v : Json) : Still (literal v) := by
  cases v with
  | null => decide
  | bool b => cases b <;> decide
  | num n => exact still_of_bare fun c hc => bare_render n c (toList_literal n ▸ hc)
  | str s => exact still_quoted s
  | arr items =>
    show Still "unknown"
    decide
  | obj members =>
    show Still "unknown"
    decide

/-! ### Members -/

theorem opening_quoted (s : String) : Opening (quoted s) := by
  refine ⟨still_quoted s, ?_⟩
  have hlast : (quoted s).toList.getLast? = some '"' := by
    rw [quoted, String.toList_append, List.getLast?_append]
    rfl
  rw [opens, hlast]
  decide

/-- What stands between a key and its type. -/
def keyMark (required : Bool) : String := if required then ": " else "?: "

theorem isColon_keyMark (required : Bool) (more : List Char) :
    Ends ((keyMark required).toList ++ more) ∧
      isColon ((pieces ((keyMark required).toList ++ more)).dropWhile Piece.isBlank) = true := by
  cases required with
  | true =>
    have hpieces : pieces (':' :: ' ' :: more) = .mark ':' :: pieces (' ' :: more) :=
      pieces_mark (by decide) _
    refine ⟨fun c hc => ?_, ?_⟩
    · cases hc
      decide
    · show isColon ((pieces (':' :: ' ' :: more)).dropWhile Piece.isBlank) = true
      rw [hpieces]
      rfl
  | false =>
    have hpieces : pieces ('?' :: ':' :: ' ' :: more) =
        .mark '?' :: .mark ':' :: pieces (' ' :: more) := by
      rw [pieces_mark (by decide), pieces_mark (by decide)]
    refine ⟨fun c hc => ?_, ?_⟩
    · cases hc
      decide
    · show isColon ((pieces ('?' :: ':' :: ' ' :: more)).dropWhile Piece.isBlank) = true
      rw [hpieces]
      rfl

/-- A key stays, whatever it is named. -/
theorem Turns.keyed (hcapital : Capital names) (name : String) (required : Bool)
    (h : Turns names false x y) :
    Turns names false (key name ++ (keyMark required ++ x)) (key name ++ (keyMark required ++ y)) := by
  have hmark : Opening (keyMark required) := by cases required <;> decide
  have hbehind : Turns names false (keyMark required ++ x) (keyMark required ++ y) :=
    h.behind hcapital hmark
  unfold key
  split
  · next hname =>
    intro rest hr
    have hcolon := isColon_keyMark required (x.toList ++ rest)
    have hkept : Kept names (.start false) name.toList
        ((keyMark required).toList ++ (x.toList ++ rest)) := by
      refine .inr (.inl ?_)
      rw [isReference, hcolon.2, Bool.not_true, Bool.and_false]
    have hturned := hbehind rest hr
    simp only [String.toList_append, List.append_assoc] at hturned ⊢
    rw [turned_kept hname hcolon.1 hkept, turned_of_ends (Quoting.after_word hname) hcolon.1]
    exact congrArg _ hturned
  · exact hbehind.behind hcapital (opening_quoted name)

end TypedApi.TypeScript
