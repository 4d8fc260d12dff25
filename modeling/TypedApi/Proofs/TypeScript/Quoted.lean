import TypedApi.Proofs.TypeScript.Marked
import TypedApi.Proofs.TypeScript.StringLiteral
import TypedApi.Proofs.TypeScript.Tokens

/-! Texts in double quotes.

What a client takes over from its document, it writes as string literals, and two readers have to
agree on where one ends: strict code, which wants the value, and the scan that looks for words that
refer to types. Whatever the text is, the first reads it back and the second is inside quotes from
the first quote to the last (`sealed_quoted`). Both go over the literal character by character of the
text, and a backslash never stays open between two. -/
namespace TypedApi.TypeScript

/-! ### The value of a literal -/

namespace Reading

variable {r r' : Reading} {c : Char} {us : List Nat} {cs rest : List Char}

theorem read?_open (hopen : ¬ (c = '"' ∧ r.closes = true)) (hnext : r.next? c = some (us, r')) :
    r.read? (c :: cs) = (r'.read? cs).map fun read => (us ++ read.1, read.2) := by
  rw [read?, if_neg hopen, hnext]
  rfl

/-- In an escape no quote is the last. -/
theorem read?_inner (hr : r.closes = false) (hnext : r.next? c = some (us, r')) :
    r.read? (c :: cs) = (r'.read? cs).map fun read => (us ++ read.1, read.2) :=
  read?_open (fun h => Bool.false_ne_true (hr.symm.trans h.2)) hnext

/-- A character behind a backslash. -/
theorem read?_pair (h : escaped? c = some (us, .text)) (rest : List Char) :
    text.read? (['\\', c] ++ rest) = (text.read? rest).map fun read => (us ++ read.1, read.2) := by
  have hslash : text.next? '\\' = some ([], .escape) := rfl
  rw [List.cons_append, List.singleton_append, read?_open (by decide) hslash,
    read?_inner (r := escape) rfl h, Option.map_map]
  rfl

/-- What adds no unit only moves the reader. -/
theorem read?_moved (hr : r.closes = false) (hnext : r.next? c = some ([], r')) :
    r.read? (c :: cs) = r'.read? cs := by
  rw [read?_inner hr hnext]
  simp

/-- Four hexadecimal digits are one unit. -/
theorem read?_hex4 {n : Nat} (hn : n < 0x10000) (rest : List Char) :
    text.read? ('\\' :: 'u' :: (hex4 n ++ rest)) =
      (text.read? rest).map fun read => (n :: read.1, read.2) := by
  have hdigit : ∀ k, Json.hexValue? (hexDigit (k % 16)) = some (k % 16) := fun k =>
    hexValue?_hexDigit _ (Nat.mod_lt k (by decide))
  have hbrace : ∀ k, hexDigit (k % 16) ≠ '\x7b' := fun k => by
    have hall : ∀ d < 16, hexDigit d ≠ '\x7b' := by decide
    exact hall _ (Nat.mod_lt k (by decide))
  have hslash : text.next? '\\' = some ([], .escape) := rfl
  have hletter : escape.next? 'u' = some ([], .code) := rfl
  have hfirst : code.next? (hexDigit (n / 4096 % 16)) = some ([], .unit 2 (n / 4096 % 16)) := by
    rw [next?, if_neg (hbrace _), hdigit]
    rfl
  have hmore : ∀ more value k, (unit (more + 1) value).next? (hexDigit (k % 16)) =
      some ([], .unit more (value * 16 + k % 16)) := fun more value k => by
    rw [next?, hdigit]
    rfl
  have hlast : ∀ value k, (unit 0 value).next? (hexDigit (k % 16)) =
      some ([value * 16 + k % 16], .text) := fun value k => by
    rw [next?, hdigit]
    rfl
  have hsum : ((n / 4096 % 16 * 16 + n / 256 % 16) * 16 + n / 16 % 16) * 16 + n % 16 = n := by omega
  rw [hex4, read?_open (by decide) hslash, read?_moved rfl hletter]
  simp only [List.cons_append, List.nil_append]
  rw [read?_moved rfl hfirst, read?_moved rfl (hmore 1 _ _), read?_moved rfl (hmore 0 _ _),
    read?_inner rfl (hlast _ _), hsum, Option.map_map]
  rfl

/-- An escaped character is read as the units of the character. -/
theorem read?_escapeChar (c : Char) (rest : List Char) :
    text.read? (escapeChar c ++ rest) =
      (text.read? rest).map fun read => (codeUnits c.toNat ++ read.1, read.2) := by
  unfold escapeChar
  split
  · next h => exact read?_pair (by rw [h]; rfl) rest
  split
  · next h => exact read?_pair (by rw [h]; rfl) rest
  split
  · next h => exact read?_pair (by rw [h]; rfl) rest
  split
  · next h => exact read?_pair (by rw [h]; rfl) rest
  split
  · next h => exact read?_pair (by rw [h]; rfl) rest
  split
  · next hn hr ht hc =>
    have hcoded : IsCoded c := ⟨hc, by simp [hn, hr, ht]⟩
    have hsmall : c.toNat < 0x10000 := Nat.lt_trans hcoded.small (by decide)
    rw [List.cons_append, List.cons_append, read?_hex4 hsmall, codeUnits, if_pos hsmall]
    rfl
  · next hb hq hn hr _ _ =>
    have hplain : text.next? c = some (codeUnits c.toNat, .text) := plain?_of_notMem (by simp [special, *])
    rw [List.singleton_append, read?_open (fun h => hq h.1) hplain]

theorem read?_escaped (cs rest : List Char) :
    text.read? (cs.flatMap escapeChar ++ '"' :: rest) = some (textUnits cs, rest) := by
  induction cs with
  | nil => rfl
  | cons c cs ih =>
    rw [List.flatMap_cons, List.append_assoc, read?_escapeChar, ih, textUnits_cons]
    rfl

end Reading

theorem stringLiteral?_quoted (s : String) (rest : List Char) :
    stringLiteral? ((quoted s).toList ++ rest) = some (textUnits s.toList, rest) := by
  rw [toList_quoted, List.cons_append, List.append_assoc]
  exact Reading.read?_escaped s.toList rest

/-! ### Backslashes -/

/-- How many backslashes a text ends with. -/
def slashes (cs : List Char) : Nat := (cs.reverse.takeWhile (· = '\\')).length

theorem slashes_concat (cs : List Char) (c : Char) :
    slashes (cs ++ [c]) = if c = '\\' then slashes cs + 1 else 0 := by
  unfold slashes
  rw [List.reverse_concat, List.takeWhile_cons]
  by_cases hc : c = '\\' <;> simp [hc]

/-- As long as the quotes are not closed, a backslash is open behind an odd number of them. -/
theorem Quoting.after_double {cs : List Char} (h : isHeld .double cs = true) :
    Quoting.double.after cs = { opening := some '"', escaped := slashes cs % 2 = 1 } := by
  induction cs using List.reverseRecOn with
  | nil => rfl
  | append_singleton cs c ih =>
    rw [isHeld_append, Bool.and_eq_true] at h
    obtain ⟨hcs, hc⟩ := h
    have hlast : (Quoting.double.after (cs ++ [c])).isInside = true := by
      rw [isHeld, Bool.and_eq_true] at hc
      rw [Quoting.after_append]
      exact hc.2
    have hstep : Quoting.double.after (cs ++ [c]) = (Quoting.double.after cs).next c := by
      rw [Quoting.after_append]
      rfl
    rw [hstep, ih hcs] at hlast ⊢
    rw [slashes_concat]
    rcases Nat.mod_two_eq_zero_or_one (slashes cs) with heven | hodd
    · by_cases hslash : c = '\\'
      · simp [next, heven, hslash, Nat.add_mod]
      · have hquote : c ≠ '"' := fun hquote => by
          simp [next, heven, hquote, isInside] at hlast
        simp [next, heven, hslash, hquote]
    · by_cases hslash : c = '\\'
      · simp [next, hodd, hslash, Nat.add_mod]
      · simp [next, hodd, hslash]

/-- Nothing in the text ends a literal around it: a backslash belongs to every quote, and all that
must not stand in a literal is written by its code. -/
structure Sealed (body : List Char) : Prop where
  quote : ∀ before after, body = before ++ '"' :: after → slashes before % 2 = 1
  plain : ∀ c ∈ body, Text.isControl c = false ∧ c ∉ lineEnds

theorem plain_escapeChar (c : Char) :
    ∀ d ∈ escapeChar c, Text.isControl d = false ∧ d ∉ lineEnds := by
  have hfixed : ∀ cs : List Char, (cs.all fun d => !Text.isControl d && !lineEnds.contains d) = true →
      ∀ d ∈ cs, Text.isControl d = false ∧ d ∉ lineEnds := fun cs hcs d hd => by
    simpa using List.all_eq_true.mp hcs d hd
  unfold escapeChar
  repeat' split
  iterate 5 exact hfixed _ (by decide)
  · have hhex : ∀ k < 16, Text.isControl (hexDigit k) = false ∧ hexDigit k ∉ lineEnds := by decide
    have hdigit : ∀ k, Text.isControl (hexDigit (k % 16)) = false ∧ hexDigit (k % 16) ∉ lineEnds :=
      fun k => hhex _ (Nat.mod_lt k (by decide))
    simp only [hex4, List.forall_mem_cons]
    exact ⟨by decide, by decide, hdigit _, hdigit _, hdigit _, hdigit _, List.forall_mem_nil _⟩
  · next hn hr _ hc =>
    simp only [Bool.or_eq_true, not_or, Bool.not_eq_true, decide_eq_true_eq] at hc
    refine List.forall_mem_singleton.mpr ⟨hc.1.1, ?_⟩
    simp [lineEnds, hn, hr, hc]

theorem sealed_escape (s : String) : Sealed (escape s).toList := by
  rw [escape, String.toList_ofList]
  refine ⟨fun before after hbody => ?_, fun c hc => ?_⟩
  · have hheld := (held_escaped s.toList).1
    rw [hbody, isHeld_append, Bool.and_eq_true] at hheld
    obtain ⟨hbefore, hquote⟩ := hheld
    rw [Quoting.after_double hbefore, isHeld, Bool.and_eq_true] at hquote
    rcases Nat.mod_two_eq_zero_or_one (slashes before) with heven | hodd
    · -- the quote would have closed the literal
      have hclosed : Quoting.next { opening := some '"', escaped := slashes before % 2 = 1 } '"' = {} := by
        simp [Quoting.next, heven]
      rw [hclosed] at hquote
      cases after <;> exact absurd hquote.2 (by simp [isHeld, Quoting.isInside])
    · exact hodd
  · obtain ⟨d, -, hd⟩ := List.mem_flatMap.mp hc
    exact plain_escapeChar d c hd

/-! ### Places in a text -/

/-- The place behind the first `n` characters is inside quotes. -/
def insideQuotes (text : List Char) (n : Nat) : Bool := (Quoting.after {} (text.take n)).isInside

/-- Only a backslash between quotes stays open. -/
theorem Quoting.escaped_next {q : Quoting} {c : Char} (h : (q.next c).escaped = true) :
    (q.next c).isInside = true := by
  obtain ⟨opening, escaped⟩ := q
  cases escaped with
  | true => cases h
  | false =>
    cases opening with
    | none =>
      simp only [next, Bool.false_eq_true, if_false] at h
      split at h <;> cases h
    | some d =>
      simp only [next, Bool.false_eq_true, if_false] at h ⊢
      split
      · rfl
      · next hslash =>
        rw [if_neg hslash] at h
        split at h <;> cases h

theorem Quoting.escaped_after {cs : List Char} (h : (Quoting.after {} cs).escaped = true) :
    (Quoting.after {} cs).isInside = true := by
  induction cs using List.reverseRecOn with
  | nil => cases h
  | append_singleton cs c _ =>
    rw [Quoting.after_append] at h ⊢
    exact escaped_next h

/-- Outside of quotes nothing is open. -/
theorem Quoting.after_eq_empty {cs : List Char} (h : (Quoting.after {} cs).isInside = false) :
    Quoting.after {} cs = {} := by
  have hescaped : (Quoting.after {} cs).escaped = false := by
    rw [← Bool.not_eq_true]
    exact fun htrue => Bool.false_ne_true (h.symm.trans (escaped_after htrue))
  revert h hescaped
  generalize Quoting.after {} cs = q
  obtain ⟨_ | d, escaped⟩ := q
  · rintro - rfl
    rfl
  · intro h
    cases h

theorem isInside_of_isHeld {q : Quoting} {cs : List Char} (h : isHeld q cs = true) {n : Nat}
    (hn : n ≤ cs.length) : (q.after (cs.take n)).isInside = true := by
  induction cs generalizing q n with
  | nil =>
    obtain rfl := Nat.le_zero.mp hn
    exact h
  | cons c cs ih =>
    rw [isHeld, Bool.and_eq_true] at h
    cases n with
    | zero => exact h.1
    | succ n => exact ih h.2 (Nat.le_of_succ_le_succ hn)

/-- What stands before the pieces that follow. -/
def Before.behind (b : Before) (ps : List Piece) : Before := ps.foldl Before.next b

theorem Before.quoting_behind (b : Before) (ps : List Piece) :
    (b.behind ps).quoting = b.quoting.after (ps.flatMap Piece.chars) := by
  induction ps generalizing b with
  | nil => rfl
  | cons p ps ih =>
    rw [List.flatMap_cons, Quoting.after_append]
    exact ih (b.next p)

theorem drop_renamedFrom (names : List (String × String)) (b : Before) (ps qs : List Piece) :
    (renamedFrom names b (ps ++ qs)).drop ps.length = renamedFrom names (b.behind ps) qs := by
  induction ps generalizing b with
  | nil => rfl
  | cons p ps ih =>
    cases p with
    | mark c => exact ih _
    | word w =>
      rw [List.cons_append, renamedFrom_word]
      exact ih _

/-- A renaming leaves a word inside quotes as it is. -/
theorem renamedFrom_inside (names : List (String × String)) {text : List Char} {ps qs : List Piece}
    {w : List Char} (hpieces : pieces text = ps ++ .word w :: qs)
    (hplace : insideQuotes text (ps.flatMap Piece.chars).length = true) :
    (renamedFrom names {} (pieces text))[ps.length]? = some (.word w) := by
  have hchars : text = ps.flatMap Piece.chars ++ (Piece.word w :: qs).flatMap Piece.chars := by
    rw [← List.flatMap_append, ← hpieces, (cut_pieces _).2]
  have hquoting : (Before.behind {} ps).quoting.isInside = true := by
    rwa [hchars, insideQuotes, List.take_left, ← Before.quoting_behind {} ps] at hplace
  have hreference : isReference (Before.behind {} ps) qs = false := by
    rw [isReference, hquoting, Bool.not_true, Bool.and_false, Bool.false_and]
  have hword : newWord names (Before.behind {} ps) w qs = w := by
    unfold newWord
    split
    · rw [hreference, Bool.false_and, if_neg Bool.false_ne_true]
    · rfl
  have hrest := drop_renamedFrom names {} ps (.word w :: qs)
  rw [renamedFrom_word, hword] at hrest
  have hhead := congrArg List.head? hrest
  rw [List.head?_drop] at hhead
  rw [hpieces]
  exact hhead

/-- Both scans pass over a literal in a text. -/
structure Skipped (before literal rest : List Char) : Prop where
  /-- From behind the first quote up to the last. -/
  inside : ∀ n, before.length < n → n < (before ++ literal).length →
    insideQuotes (before ++ literal ++ rest) n = true
  closed : insideQuotes (before ++ literal ++ rest) (before ++ literal).length = false
  /-- A renaming leaves the words in it as they are. -/
  kept : ∀ names ps w qs, pieces (before ++ literal ++ rest) = ps ++ .word w :: qs →
    before.length < (ps.flatMap Piece.chars).length →
      (ps.flatMap Piece.chars).length < (before ++ literal).length →
        (renamedFrom names {} (pieces (before ++ literal ++ rest)))[ps.length]? = some (.word w)

theorem insideQuotes_quoted (s : String) {before : List Char} (hbefore : Quoting.after {} before = {})
    (rest : List Char) {n : Nat} (hlow : before.length < n)
    (hhigh : n < (before ++ (quoted s).toList).length) :
    insideQuotes (before ++ (quoted s).toList ++ rest) n = true := by
  have hlength : (before ++ (quoted s).toList).length =
      before.length + ((s.toList.flatMap escapeChar).length + 2) := by
    rw [List.length_append, toList_quoted, List.length_cons, List.length_append]
    rfl
  obtain ⟨k, rfl⟩ := Nat.exists_eq_add_of_lt hlow
  have hk : k ≤ (s.toList.flatMap escapeChar).length := by omega
  rw [insideQuotes, List.append_assoc, Nat.add_assoc, List.take_length_add_append,
    Quoting.after_append, hbefore, toList_quoted, List.cons_append, List.take_succ_cons,
    List.append_assoc, List.take_append_of_le_length hk]
  exact isInside_of_isHeld (held_escaped s.toList).1 hk

theorem skipped_quoted (s : String) {before : List Char}
    (h : insideQuotes before before.length = false) (rest : List Char) :
    Skipped before (quoted s).toList rest := by
  have hbefore : Quoting.after {} before = {} := by
    rw [insideQuotes, List.take_length] at h
    exact Quoting.after_eq_empty h
  refine ⟨fun _ => insideQuotes_quoted s hbefore rest, ?_, fun names ps w qs hpieces hlow hhigh => ?_⟩
  · rw [insideQuotes, List.take_left, Quoting.after_append, hbefore]
    exact congrArg Quoting.isInside (mute_quoted s).2
  · exact renamedFrom_inside names hpieces (insideQuotes_quoted s hbefore rest hlow hhigh)

/-- A literal stands for its text and for no other, and ends at its last quote, whatever follows it.
The scan for words that refer to types agrees wherever quotes are closed in front of the literal. -/
theorem sealed_quoted (s : String) :
    (∀ value rest more, stringLiteral? ((quoted s).toList ++ rest) = some (textUnits value, more) ↔
      value = s.toList ∧ more = rest) ∧
    Sealed (escape s).toList ∧
    ∀ before, insideQuotes before before.length = false →
      ∀ rest, Skipped before (quoted s).toList rest := by
  refine ⟨fun value rest more => ?_, sealed_escape s, fun before h => skipped_quoted s h⟩
  rw [stringLiteral?_quoted]
  constructor
  · intro h
    obtain ⟨hunits, hrest⟩ := Prod.mk.inj (Option.some.inj h)
    exact ⟨(textUnits_injective hunits).symm, hrest.symm⟩
  · rintro ⟨rfl, rfl⟩
    rfl

/-- A text that ends with a backslash, behind a literal with a quote of the other kind. -/
theorem sealed_quoted_backslash :
    let before := "'\"' | ".toList
    insideQuotes before before.length = false ∧
      stringLiteral? ((quoted "\"Record\\").toList ++ " | Record".toList) =
        some (textUnits "\"Record\\".toList, " | Record".toList) ∧
      Skipped before (quoted "\"Record\\").toList " | Record".toList := by
  obtain ⟨hvalue, -, hskipped⟩ := sealed_quoted "\"Record\\"
  have hbefore : insideQuotes "'\"' | ".toList "'\"' | ".toList.length = false := by decide
  exact ⟨hbefore, (hvalue _ _ _).mpr ⟨rfl, rfl⟩, hskipped _ hbefore _⟩

end TypedApi.TypeScript
