import Mathlib.Data.List.TakeWhile
import TypedApi.Proofs.Json.Text
import TypedApi.Proofs.TypeScript.Grammar
import TypedApi.Proofs.TypeScript.Pieces

/-! How the reader goes over a text.

`Passes x a b` says that the reader goes from the state `a` over `x` to the state `b`, whatever
follows. A word or a number may go on behind `x`; `Moves x a b` says the same of what follows
loosely. Each kind of token is gone over as one, and texts are put together by `Passes.append`,
`Passes.moves_append` and `Moves.passes_append`. -/
namespace TypedApi.TypeScript

/-- No word and no number goes on here. -/
def Loose (cs : List Char) : Prop := ∀ c ∈ cs.head?, isInside c = false

def Passes (x : String) (a b : State) : Prop :=
  ∀ rest, readFrom .idle a (x.toList ++ rest) = readFrom .idle b rest

def Moves (x : String) (a b : State) : Prop :=
  ∀ rest, Loose rest → readFrom .idle a (x.toList ++ rest) = readFrom .idle b rest

variable {x y : String} {a b c : State} {cs rest : List Char}

theorem loose_nil : Loose [] := nofun

theorem Passes.moves (h : Passes x a b) : Moves x a b := fun rest _ => h rest

theorem Passes.append (hx : Passes x a b) (hy : Passes y b c) : Passes (x ++ y) a c := by
  intro rest
  rw [String.toList_append, List.append_assoc, hx, hy]

theorem Passes.moves_append (hx : Passes x a b) (hy : Moves y b c) : Moves (x ++ y) a c := by
  intro rest hr
  rw [String.toList_append, List.append_assoc, hx, hy rest hr]

/-- A text at which words and numbers end. -/
def Cuts (x : String) : Prop := (x.toList.head?.any fun c => !isInside c) = true

instance (x : String) : Decidable (Cuts x) := inferInstanceAs (Decidable (_ = _))

theorem Cuts.loose (h : Cuts x) (rest : List Char) : Loose (x.toList ++ rest) := by
  rw [Cuts, Option.any_eq_true] at h
  obtain ⟨c, hc, hinside⟩ := h
  intro d hd
  rw [List.head?_append, hc, Option.some_or, Option.mem_def, Option.some.injEq] at hd
  rw [← hd]
  simpa using hinside

theorem Moves.passes_append (hx : Moves x a b) (hy : Passes y b c) (hcuts : Cuts y) :
    Passes (x ++ y) a c := by
  intro rest
  rw [String.toList_append, List.append_assoc, hx _ (hcuts.loose rest), hy]

/-! ### One character -/

theorem readFrom_cons {scan after : Scan} {c : Char} {ts : List Token}
    (h : scan.next? c = some (ts, after)) (st : State) (cs : List Char) :
    readFrom scan st (c :: cs) = (ts.foldlM State.take? st).bind (readFrom after · cs) := by
  rw [readFrom, h]
  rfl

/-- A character that goes on in a token. -/
theorem readFrom_inside {scan after : Scan} {c : Char} (h : scan.next? c = some ([], after))
    (st : State) (cs : List Char) : readFrom scan st (c :: cs) = readFrom after st cs := by
  rw [readFrom_cons h]
  rfl

/-- A token that ends with its last character. -/
theorem readFrom_last {scan : Scan} {c : Char} {t : Token} (h : scan.next? c = some ([t], .idle))
    (st : State) (cs : List Char) :
    readFrom scan st (c :: cs) = (st.take? t).bind (readFrom .idle · cs) := by
  rw [readFrom_cons h, List.foldlM_cons]
  cases st.take? t <;> rfl

/-- A token that ends before the next character leaves the reader between tokens. -/
theorem readFrom_ended {scan : Scan} {t : Token} (hended : scan.ended? = some [t])
    (hnext : ∀ c, isInside c = false → scan.next? c = Scan.next?.passed? scan c) (hr : Loose rest)
    (st : State) :
    readFrom scan st rest = (st.take? t).bind (readFrom .idle · rest) := by
  cases rest with
  | nil =>
    rw [readFrom, hended, Option.bind_some, List.foldlM_cons]
    rfl
  | cons c cs =>
    have hscan := hnext c (hr c rfl)
    have hidle : Scan.idle.next? c = Scan.open? c := by
      rw [Scan.next?, Scan.next?.passed?]
      cases Scan.open? c <;> rfl
    rw [Scan.next?.passed?, hended] at hscan
    cases hopen : Scan.open? c with
    | none =>
      rw [hopen] at hscan hidle
      have hnone : ∀ scan : Scan, scan.next? c = none →
          ∀ st, readFrom scan st (c :: cs) = none := by
        intro scan h st
        rw [readFrom, h]
        rfl
      rw [hnone scan hscan]
      cases st.take? t with
      | none => rfl
      | some st' => exact (hnone .idle hidle st').symm
    | some opened =>
      obtain ⟨ts, after⟩ := opened
      rw [hopen] at hscan hidle
      have hcons : readFrom scan st (c :: cs) =
          ((t :: ts).foldlM State.take? st).bind (readFrom after · cs) := readFrom_cons hscan st cs
      rw [hcons, List.foldlM_cons]
      cases st.take? t with
      | none => rfl
      | some st' => exact (readFrom_cons hidle st' cs).symm

/-! ### Marks -/

theorem readFrom_mark {c : Char} (hc : c ∈ marks) (st : State) (cs : List Char) :
    readFrom .idle st (c :: cs) = (st.mark? c).bind (readFrom .idle · cs) := by
  have hspace : c ≠ ' ' := by rintro rfl; revert hc; decide
  have hopen : Scan.open? c = some ([.mark c], .idle) := by
    rw [Scan.open?, if_neg hspace, if_pos (List.contains_iff_mem.mpr hc)]
  refine readFrom_last (t := .mark c) ?_ st cs
  rw [Scan.next?, Scan.next?.passed?, hopen]
  rfl

/-! ### Words -/

theorem readFrom_word (more : List Char) (hmore : ∀ c ∈ more, isInside c = true) (hr : Loose rest)
    (cs : List Char) (st : State) :
    readFrom (.word cs) st (more ++ rest) =
      (st.word? (String.ofList (cs ++ more))).bind (readFrom .idle · rest) := by
  induction more generalizing cs with
  | nil =>
    refine (readFrom_ended (t := .word (String.ofList cs)) rfl ?_ hr st).trans ?_
    · intro c hc
      rw [Scan.next?, hc]
      rfl
    · rw [List.append_nil]
      rfl
  | cons c more ih =>
    obtain ⟨hc, hmore⟩ := List.forall_mem_cons.mp hmore
    have hnext : (Scan.word cs).next? c = some ([], .word (cs ++ [c])) := by
      rw [Scan.next?, hc]
      rfl
    rw [List.cons_append, readFrom_inside hnext, ih hmore, List.append_assoc, List.singleton_append]

theorem open?_start {c : Char} (hc : isIdentifierStart c = true) :
    Scan.open? c = some ([], .word [c]) := by
  have hne : ∀ d, isIdentifierStart d = false → c ≠ d := by
    rintro d hd rfl
    rw [hc] at hd
    cases hd
  have hmarks : ∀ d ∈ marks, isIdentifierStart d = false := Json.forall_mem_of_all (by decide)
  have hmark : c ∉ marks := fun h => hne c (hmarks c h) rfl
  have hnumeral : Json.isNumeral c = false :=
    Bool.eq_false_iff.mpr fun h => hne c (isIdentifierStart_of_isNumeral h) rfl
  simp [Scan.open?, hne ' ' (by decide), hmark, hne '"' (by decide), hne '.' (by decide), hnumeral,
    hne '-' (by decide), hc]

theorem isInside_of_isPathFrom {start : Bool} {w : List Char} (hw : isPathFrom start w = true) :
    ∀ c ∈ w, isInside c = true := by
  induction w generalizing start with
  | nil => exact List.forall_mem_nil _
  | cons c w ih =>
    rw [isPathFrom] at hw
    split at hw
    · rw [Bool.and_eq_true] at hw
      refine List.forall_mem_cons.mpr ⟨?_, ih hw.2⟩
      rw [isInside, isIdentifierPart_of_start hw.1]
      rfl
    split at hw
    · next hdot => exact List.forall_mem_cons.mpr ⟨by rw [hdot]; decide, ih hw⟩
    · rw [Bool.and_eq_true] at hw
      refine List.forall_mem_cons.mpr ⟨?_, ih hw.2⟩
      rw [isInside, hw.1]
      rfl

/-- A word is gone over as one. -/
theorem moves_word {w : String} (hw : isPathFrom true w.toList = true) {st st' : State}
    (h : st.word? w = some st') : Moves w st st' := by
  intro rest hr
  have hinside := isInside_of_isPathFrom hw
  cases hchars : w.toList with
  | nil => rw [hchars] at hw; cases hw
  | cons c more =>
    rw [hchars, isPathFrom, if_pos rfl, Bool.and_eq_true] at hw
    rw [hchars] at hinside
    have hnext : Scan.idle.next? c = some ([], .word [c]) := by
      rw [Scan.next?, Scan.next?.passed?, open?_start hw.1]
      rfl
    have hword : String.ofList ([c] ++ more) = w := by
      rw [List.singleton_append, ← hchars, String.ofList_toList]
    rw [List.cons_append, readFrom_inside hnext,
      readFrom_word more (fun d hd => hinside d (List.mem_cons_of_mem c hd)) hr, hword, h]
    rfl

theorem isPathFrom_of_parts {w : List Char} (hw : ∀ c ∈ w, isIdentifierPart c = true) :
    isPathFrom false w = true := by
  induction w with
  | nil => rfl
  | cons c w ih =>
    obtain ⟨hc, hw⟩ := List.forall_mem_cons.mp hw
    have hdot : c ≠ '.' := by rintro rfl; revert hc; decide
    rw [isPathFrom, if_neg (by decide), if_neg hdot, hc, ih hw]
    rfl

theorem isPathFrom_of_isIdentifier {w : List Char} (hw : isIdentifier w = true) :
    isPathFrom true w = true := by
  cases w with
  | nil => cases hw
  | cons c w =>
    rw [isIdentifier, Bool.and_eq_true, List.all_eq_true] at hw
    rw [isPathFrom, if_pos rfl, hw.1, isPathFrom_of_parts hw.2]
    rfl

/-- The name of a type is read as a name. -/
theorem operandOf?_of_isTypeName {w : String} (hw : isTypeName w = true) :
    operandOf? w = some (.name w) := by
  rw [isTypeName, Bool.and_eq_true, Bool.not_eq_true'] at hw
  obtain ⟨hidentifier, htaken⟩ := hw
  have hkeyword : keywordTypes.contains w = false := by
    refine Bool.eq_false_iff.mpr fun h => ?_
    have hmem : w ∈ takenWords := List.mem_append_left _
      (List.mem_append_left _ (List.contains_iff_mem.mp h))
    rw [List.contains_iff_mem.mpr hmem] at htaken
    cases htaken
  have hfirst : w.toList.takeWhile (· != '.') = w.toList := by
    refine List.takeWhile_eq_self_iff.mpr fun c hc => bne_iff_ne.mpr ?_
    rintro rfl
    exact absurd (isIdentifierPart_of_mem hidentifier hc) (by decide)
  have hpath : isPath w.toList = true := by
    rw [isPath, isPathFrom_of_isIdentifier hidentifier, hfirst, String.ofList_toList, htaken]
    rfl
  rw [operandOf?, hkeyword, hpath]
  rfl

/-! ### Numbers -/

theorem readFrom_number (more : List Char) (hmore : ∀ c ∈ more, isInside c = true)
    (hr : Loose rest) (cs : List Char) {v : Json} (hv : literal? (cs ++ more) = some v)
    (st : State) :
    readFrom (.number cs) st (more ++ rest) = (st.literal? v).bind (readFrom .idle · rest) := by
  induction more generalizing cs with
  | nil =>
    rw [List.append_nil] at hv
    refine (readFrom_ended (t := .literal v) ?_ ?_ hr st).trans rfl
    · rw [Scan.ended?, hv]
      rfl
    · intro c hc
      rw [Scan.next?, hc]
      rfl
  | cons c more ih =>
    obtain ⟨hc, hmore⟩ := List.forall_mem_cons.mp hmore
    have hnext : (Scan.number cs).next? c = some ([], .number (cs ++ [c])) := by
      rw [Scan.next?, hc]
      rfl
    rw [List.cons_append, readFrom_inside hnext]
    refine ih hmore _ ?_
    rwa [List.append_assoc, List.singleton_append]

theorem open?_number {c : Char} (hc : Json.isNumeral c = true ∨ c = '-') :
    Scan.open? c = some ([], .number [c]) := by
  rcases hc with hc | rfl
  · have hne : ∀ d, Json.isNumeral d = false → c ≠ d := by
      rintro d hd rfl
      rw [hc] at hd
      cases hd
    have hmarks : ∀ d ∈ marks, Json.isNumeral d = false := Json.forall_mem_of_all (by decide)
    have hmark : c ∉ marks := fun h => hne c (hmarks c h) rfl
    simp [Scan.open?, hne ' ' (by decide), hmark, hne '"' (by decide), hne '.' (by decide), hc]
  · rfl

/-- A number is gone over as one. -/
theorem moves_number {n : Json.Number} (hn : n.Readable) {st st' : State}
    (h : st.literal? (.num n) = some st') : Moves (String.ofList n.render) st st' := by
  intro rest hr
  have hinside : ∀ c ∈ n.render, isInside c = true := by
    refine Json.Number.forall_mem_render (fun c hc => ?_) (Json.forall_mem_of_all (by decide)) n
    have hdigit : Text.isDigit c = true := hc
    simp [isInside, isIdentifierPart, Text.isAlphanumeric, hdigit]
  have hliteral : literal? n.render = some (.num n) := by
    have hdelimited : Json.Delimited [] := fun c hc => by cases hc
    have hread := Json.readScalar_nearest hn hdelimited
    rw [List.append_nil] at hread
    rw [literal?, hread]
  obtain ⟨c, tail, hcs, hc⟩ := n.head_render hn
  have hnext : Scan.idle.next? c = some ([], .number [c]) := by
    rw [Scan.next?, Scan.next?.passed?, open?_number hc]
    rfl
  rw [hcs] at hinside hliteral
  rw [String.toList_ofList, hcs, List.cons_append, readFrom_inside hnext,
    readFrom_number tail (fun c hc => hinside c (List.mem_cons_of_mem _ hc)) hr [c] hliteral, h]
  rfl

/-! ### Strings -/

theorem hexValue?_hexDigit : ∀ n < 16, Json.hexValue? (hexDigit n) = some n := by decide

theorem hexCode?_hex4 {n : Nat} (hn : n < 0x10000) :
    Json.hexCode? (hexDigit (n / 4096 % 16)) (hexDigit (n / 256 % 16)) (hexDigit (n / 16 % 16))
      (hexDigit (n % 16)) = some n := by
  have hdigit : ∀ k, Json.hexValue? (hexDigit (k % 16)) = some (k % 16) := fun k =>
    hexValue?_hexDigit _ (Nat.mod_lt k (by decide))
  have hsum : ((n / 4096 % 16 * 16 + n / 256 % 16) * 16 + n / 16 % 16) * 16 + n % 16 = n := by omega
  rw [Json.hexCode?, hdigit, hdigit, hdigit, hdigit]
  exact congrArg some hsum

/-- A character that is written by its code. -/
def IsCoded (c : Char) : Prop :=
  (Text.isControl c || c = '\u2028' || c = '\u2029') = true ∧ c ∉ ['\n', '\r', '\t']

instance (c : Char) : Decidable (IsCoded c) := inferInstanceAs (Decidable (_ ∧ _))

/-- The unit that an escaped character is read as. -/
def unitOf (c : Char) : Json.TextUnit := if IsCoded c then .code c.toNat else .plain c

theorem IsCoded.small {c : Char} (h : IsCoded c) : c.toNat < 0xD800 := by
  have hcodes : '\u2028'.toNat = 0x2028 ∧ '\u2029'.toNat = 0x2029 := ⟨rfl, rfl⟩
  obtain ⟨h, -⟩ := h
  simp only [Text.isControl, Bool.or_eq_true, Bool.and_eq_true, decide_eq_true_eq] at h
  rcases h with (h | rfl) | rfl <;> omega

/-- An escaped character is read as one unit. -/
theorem readText_escapeChar (c : Char) (acc : List Json.TextUnit) (rest : List Char) :
    Json.readText acc (escapeChar c ++ rest) = Json.readText (unitOf c :: acc) rest := by
  unfold escapeChar
  split
  · next h => subst h; rfl
  split
  · next h => subst h; rfl
  split
  · next h => subst h; rfl
  split
  · next h => subst h; rfl
  split
  · next h => subst h; rfl
  split
  · next hn hr ht hc =>
    have hcoded : IsCoded c := ⟨hc, by simp [hn, hr, ht]⟩
    have hsmall := hcoded.small
    rw [unitOf, if_pos hcoded, hex4]
    simp only [List.cons_append, List.nil_append]
    rw [Json.readText, hexCode?_hex4 (by omega)]
  · next hb hq _ _ _ hc =>
    have hcontrol : ¬ c.toNat < 0x20 := fun h => hc (by simp [Text.isControl, h])
    rw [unitOf, if_neg fun h => hc h.1, List.singleton_append,
      Json.readText_plain hq hb hcontrol]

theorem unitOf_cases (c : Char) :
    unitOf c = .plain c ∨ c.toNat < 0xD800 ∧ unitOf c = .code c.toNat := by
  by_cases hc : IsCoded c
  · exact .inr ⟨hc.small, if_pos hc⟩
  · exact .inl (if_neg hc)

/-- The text between the quotes comes back. -/
theorem literal?_quoted (s : String) : literal? (quoted s).toList = some (.str s) := by
  have hfoldr : ∀ cs : List Char, cs.flatMap escapeChar ++ ['"'] =
      cs.foldr (fun c more => escapeChar c ++ more) ['"'] := by
    intro cs
    induction cs with
    | nil => rfl
    | cons c cs ih => rw [List.flatMap_cons, List.append_assoc, ih, List.foldr_cons]
  rw [literal?, toList_quoted, hfoldr, Json.readScalar,
    Json.readText_escape readText_escapeChar unitOf_cases, String.ofList_toList]

/-- An escaped character neither ends a string nor leaves a backslash open. -/
theorem readFrom_escapeChar (c : Char) (cs rest : List Char) (st : State) :
    readFrom (.text cs false) st (escapeChar c ++ rest) =
      readFrom (.text (cs ++ escapeChar c) false) st rest := by
  have hplain : ∀ {d : Char}, d ≠ '\\' → d ≠ '"' → ∀ cs rest,
      readFrom (.text cs false) st (d :: rest) = readFrom (.text (cs ++ [d]) false) st rest := by
    intro d hb hq cs rest
    refine readFrom_inside ?_ st rest
    rw [Scan.next?, if_neg hb, if_neg hq]
  have hpair : ∀ (d : Char) (cs rest : List Char),
      readFrom (.text cs false) st ('\\' :: d :: rest) =
        readFrom (.text (cs ++ ['\\', d]) false) st rest := by
    intro d cs rest
    have hopen : (Scan.text cs false).next? '\\' = some ([], .text (cs ++ ['\\']) true) := rfl
    have hclose : (Scan.text (cs ++ ['\\']) true).next? d =
        some ([], .text (cs ++ ['\\'] ++ [d]) false) := rfl
    rw [readFrom_inside hopen, readFrom_inside hclose, List.append_assoc]
    rfl
  have hdigit : ∀ k < 16, hexDigit k ≠ '\\' ∧ hexDigit k ≠ '"' := by decide
  unfold escapeChar
  split
  · exact hpair _ cs rest
  split
  · exact hpair _ cs rest
  split
  · exact hpair _ cs rest
  split
  · exact hpair _ cs rest
  split
  · exact hpair _ cs rest
  split
  · have hhex : ∀ (k : Nat) (cs rest : List Char),
        readFrom (.text cs false) st (hexDigit (k % 16) :: rest) =
          readFrom (.text (cs ++ [hexDigit (k % 16)]) false) st rest := by
      intro k
      obtain ⟨hb, hq⟩ := hdigit (k % 16) (Nat.mod_lt k (by decide))
      exact hplain hb hq
    simp only [hex4, List.cons_append, List.nil_append, hpair, hhex, List.append_assoc]
  · next hb hq _ _ _ _ => exact hplain hb hq cs rest

theorem readFrom_escaped (ds cs rest : List Char) (st : State) :
    readFrom (.text cs false) st (ds.flatMap escapeChar ++ rest) =
      readFrom (.text (cs ++ ds.flatMap escapeChar) false) st rest := by
  induction ds generalizing cs with
  | nil => rw [List.flatMap_nil, List.append_nil, List.nil_append]
  | cons d ds ih =>
    rw [List.flatMap_cons, List.append_assoc, readFrom_escapeChar, ih, List.append_assoc]

/-- A string is gone over as one. -/
theorem passes_quoted {s : String} {st st' : State} (h : st.literal? (.str s) = some st') :
    Passes (quoted s) st st' := by
  intro rest
  have hopen : Scan.idle.next? '"' = some ([], .text ['"'] false) := rfl
  have hclose : (Scan.text ('"' :: s.toList.flatMap escapeChar) false).next? '"' =
      some ([.literal (.str s)], .idle) := by
    have hliteral := literal?_quoted s
    rw [toList_quoted] at hliteral
    rw [Scan.next?, if_neg (by decide), if_pos rfl, List.cons_append, hliteral]
    rfl
  rw [toList_quoted, List.cons_append, List.append_assoc, readFrom_inside hopen, readFrom_escaped,
    List.singleton_append, List.singleton_append, readFrom_last hclose]
  show (st.literal? (.str s)).bind _ = _
  rw [h]
  rfl

end TypedApi.TypeScript
