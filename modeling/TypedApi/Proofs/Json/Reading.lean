import TypedApi.Proofs.Json.Decimal
import TypedApi.Proofs.Json.Table
import TypedApi.Proofs.Json.Text

/-! Values come back from their text.

`Readable` values have readable numbers and no repeated keys. The reader makes of the
indented text of such a value the draft of that value, with the containers marked that lie
beyond the nesting limit and with the numbers that it finds (`readValue_pretty`). A value that
nests no deeper than the limit and whose numbers read back is read as it is
(`Draft.within_eq_ofValue`). -/
namespace TypedApi.Json

/-- The values that texts name. -/
inductive Readable : Json → Prop where
  | null : Readable .null
  | bool (b : Bool) : Readable (.bool b)
  | num {n : Number} : n.Readable → Readable (.num n)
  | str (s : String) : Readable (.str s)
  | arr {xs : List Json} : (∀ x ∈ xs, Readable x) → Readable (.arr xs)
  | obj {ms : List (String × Json)} : (ms.map (·.1)).Nodup → (∀ m ∈ ms, Readable m.2) →
      Readable (.obj ms)

theorem Readable.number {n : Number} (h : Readable (.num n)) : n.Readable := by
  cases h with
  | num h => exact h

theorem Readable.items {xs : List Json} (h : Readable (.arr xs)) : ∀ x ∈ xs, Readable x := by
  cases h with
  | arr h => exact h

theorem Readable.distinct {ms : List (String × Json)} (h : Readable (.obj ms)) :
    (ms.map (·.1)).Nodup := by
  cases h with
  | obj h _ => exact h

theorem Readable.members {ms : List (String × Json)} (h : Readable (.obj ms)) :
    ∀ m ∈ ms, Readable m.2 := by
  cases h with
  | obj _ h => exact h

/-- A value that a member may hold and be told from one that is absent. -/
def Given (v : Json) : Prop := v.Readable ∧ v ≠ .null

mutual
/-- The containers of a value that are open at once. -/
def depth : Json → Nat
  | .arr xs => depthItems xs + 1
  | .obj ms => depthMembers ms + 1
  | _ => 0
def depthItems : List Json → Nat
  | [] => 0
  | x :: xs => max (depth x) (depthItems xs)
def depthMembers : List (String × Json) → Nat
  | [] => 0
  | (_, x) :: ms => max (depth x) (depthMembers ms)
end

mutual
/-- The numbers that stand in a value. -/
def numbers : Json → List Number
  | .num n => [n]
  | .arr xs => numbersItems xs
  | .obj ms => numbersMembers ms
  | _ => []
def numbersItems : List Json → List Number
  | [] => []
  | x :: xs => numbers x ++ numbersItems xs
def numbersMembers : List (String × Json) → List Number
  | [] => []
  | (_, x) :: ms => numbers x ++ numbersMembers ms
end

/-! ### Drafts of values -/

namespace Draft

mutual
/-- The draft made of the text of a value when `room` more containers may open. -/
def within (room : Nat) : Json → Draft
  | .null => .null
  | .bool b => .bool b
  | .num n => .ofNumber? n.reread?
  | .str s => .str s
  | .arr xs => nested room (.arr (withinItems (room - 1) xs) none)
  | .obj ms => nested room (.obj (withinMembers (room - 1) ms) none)
def withinItems (room : Nat) : List Json → List Draft
  | [] => []
  | x :: xs => within room x :: withinItems room xs
def withinMembers (room : Nat) : List (String × Json) → List (Option String × Draft)
  | [] => []
  | (k, x) :: ms => (some k, within room x) :: withinMembers room ms
end

mutual
/-- With room enough no container is marked. -/
theorem within_eq_ofValue {room : Nat} : (v : Json) → v.depth ≤ room →
    (∀ n ∈ v.numbers, n.ReadsBack) → within room v = ofValue v
  | .null, _, _ => rfl
  | .bool _, _, _ => rfl
  | .num n, _, hn => by
    have hback : n.reread? = some n := hn n List.mem_cons_self
    rw [within, hback]
    rfl
  | .str _, _, _ => rfl
  | .arr xs, h, hn => by
    rw [depth] at h
    have hroom : room ≠ 0 := by omega
    rw [within, withinItems_eq_ofItems xs (by omega) hn, nested, if_neg hroom, ofValue]
  | .obj ms, h, hn => by
    rw [depth] at h
    have hroom : room ≠ 0 := by omega
    rw [within, withinMembers_eq_ofMembers ms (by omega) hn, nested, if_neg hroom, ofValue]

theorem withinItems_eq_ofItems {room : Nat} : (xs : List Json) → depthItems xs ≤ room →
    (∀ n ∈ numbersItems xs, n.ReadsBack) → withinItems room xs = ofItems xs
  | [], _, _ => rfl
  | x :: xs, h, hn => by
    rw [depthItems] at h
    obtain ⟨hx, hxs⟩ := List.forall_mem_append.mp hn
    rw [withinItems, within_eq_ofValue x (by omega) hx, withinItems_eq_ofItems xs (by omega) hxs,
      ofItems]

theorem withinMembers_eq_ofMembers {room : Nat} : (ms : List (String × Json)) →
    depthMembers ms ≤ room → (∀ n ∈ numbersMembers ms, n.ReadsBack) →
    withinMembers room ms = ofMembers ms
  | [], _, _ => rfl
  | (k, x) :: ms, h, hn => by
    rw [depthMembers] at h
    obtain ⟨hx, hms⟩ := List.forall_mem_append.mp hn
    rw [withinMembers, within_eq_ofValue x (by omega) hx,
      withinMembers_eq_ofMembers ms (by omega) hms, ofMembers]
end

theorem ofItems_eq (xs : List Json) : ofItems xs = xs.map ofValue := by
  induction xs with
  | nil => rfl
  | cons x xs ih => rw [ofItems, ih, List.map_cons]

theorem ofMembers_eq (ms : List (String × Json)) :
    ofMembers ms = ms.map fun m => (some m.1, ofValue m.2) := by
  induction ms with
  | nil => rfl
  | cons m ms ih => rw [ofMembers, ih, List.map_cons]

mutual
/-- The draft of a readable value stands for that value. -/
theorem value_ofValue : (v : Json) → v.Readable → value (ofValue v) = .ok v
  | .null, _ => rfl
  | .bool _, _ => rfl
  | .num _, _ => rfl
  | .str _, _ => rfl
  | .arr xs, h => by
    rw [ofValue, value, values_ofItems xs h.items]
    rfl
  | .obj ms, h => by
    rw [ofValue, value, memberValues_ofMembers ms h.members]
    show Except.ok (Json.obj (table ms)) = _
    rw [table_of_nodup h.distinct]

theorem values_ofItems : (xs : List Json) → (∀ x ∈ xs, x.Readable) → values (ofItems xs) = .ok xs
  | [], _ => rfl
  | x :: xs, h => by
    rw [ofItems, values, value_ofValue x (h x List.mem_cons_self),
      values_ofItems xs fun y hy => h y (List.mem_cons_of_mem _ hy)]
    rfl

theorem memberValues_ofMembers : (ms : List (String × Json)) → (∀ m ∈ ms, m.2.Readable) →
    memberValues (ofMembers ms) = .ok ms
  | [], _ => rfl
  | (k, x) :: ms, h => by
    rw [ofMembers, memberValues, value_ofValue x (h (k, x) List.mem_cons_self),
      memberValues_ofMembers ms fun m hm => h m (List.mem_cons_of_mem _ hm)]
    rfl
end

end Draft

/-! ### Reading -/

theorem skipSpace_cons {c : Char} (h : isSpace c = false) (rest : List Char) :
    skipSpace (c :: rest) = c :: rest := by
  simp [skipSpace, h]

theorem skipSpace_space (rest : List Char) : skipSpace (' ' :: rest) = skipSpace rest := rfl

theorem skipSpace_newLine (level : Nat) (rest : List Char) :
    skipSpace (newLine level rest) = skipSpace rest := by
  rw [newLine, skipSpace, List.dropWhile_cons_of_pos (by decide), List.dropWhile_append_of_pos]
  · rfl
  · intro c hc
    rw [(List.mem_replicate.mp hc).2]
    decide

theorem readValue_of_skipSpace {cs cs' : List Char} (h : skipSpace cs = skipSpace cs')
    (fuel room : Nat) : readValue fuel room cs = readValue fuel room cs' := by
  cases fuel with
  | zero => rw [readValue, readValue]
  | succ fuel => rw [readValue, readValue, h]

/-- What the text of a value begins with. -/
def Opens (c : Char) : Prop := isSpace c = false ∧ c ≠ ',' ∧ c ≠ ']'

instance (c : Char) : Decidable (Opens c) := inferInstanceAs (Decidable (_ ∧ _ ∧ _))

theorem opens_of_isNumeral {c : Char} (h : isNumeral c = true) : Opens c := by
  refine ⟨?_, ?_, ?_⟩
  · by_contra hs
    simp only [Bool.not_eq_false, isSpace, Bool.or_eq_true, decide_eq_true_eq] at hs
    rcases hs with ((rfl | rfl) | rfl) | rfl <;> exact absurd h (by decide)
  · rintro rfl
    exact absurd h (by decide)
  · rintro rfl
    exact absurd h (by decide)

theorem Number.opens_render {n : Number} (hn : n.Readable) :
    ∃ c more, n.render = c :: more ∧ Opens c ∧ c ≠ '[' ∧ c ≠ '\x7b' := by
  obtain ⟨c, more, hrender, hc | rfl⟩ := n.head_render hn
  · refine ⟨c, more, hrender, opens_of_isNumeral hc, ?_, ?_⟩ <;>
      (rintro rfl; exact absurd hc (by decide))
  · exact ⟨'-', more, hrender, by decide, by decide, by decide⟩

/-- The text of a value begins neither with a comma nor with a closing bracket. -/
theorem opens_write {v : Json} (hv : v.Readable) (rest : List Char) :
    ∃ c more, write v rest = c :: more ∧ Opens c := by
  cases v with
  | null => exact ⟨'n', _, rfl, by decide⟩
  | bool b =>
    cases b with
    | true => exact ⟨'t', _, rfl, by decide⟩
    | false => exact ⟨'f', _, rfl, by decide⟩
  | num n =>
    obtain ⟨c, more, hrender, hc, -⟩ := Number.opens_render hv.number
    have hwrite : write (.num n) rest = n.render ++ rest := rfl
    exact ⟨c, more ++ rest, by rw [hwrite, hrender]; rfl, hc⟩
  | str s => exact ⟨'"', _, rfl, by decide⟩
  | arr xs => exact ⟨'[', _, rfl, by decide⟩
  | obj ms => exact ⟨'\x7b', _, rfl, by decide⟩

theorem opens_writePretty {v : Json} (hv : v.Readable) (level : Nat) (rest : List Char) :
    ∃ c more, writePretty level v rest = c :: more ∧ Opens c := by
  cases v with
  | arr xs => cases xs <;> exact ⟨'[', _, rfl, by decide⟩
  | obj ms => cases ms <;> exact ⟨'\x7b', _, rfl, by decide⟩
  | bool b => cases b <;> exact opens_write hv rest
  | _ => exact opens_write hv rest

/-! ### Steps -/

mutual
/-- Enough fuel to read the text of a value. -/
def readSteps : Json → Nat
  | .arr xs => readStepsItems xs + 1
  | .obj ms => readStepsMembers ms + 1
  | _ => 1
def readStepsItems : List Json → Nat
  | [] => 1
  | x :: xs => readSteps x + readStepsItems xs + 2
def readStepsMembers : List (String × Json) → Nat
  | [] => 1
  | (_, x) :: ms => readSteps x + readStepsMembers ms + 2
end

theorem readSteps_pos (v : Json) : 1 ≤ readSteps v := by
  cases v <;> simp [readSteps]

theorem length_newLine (level : Nat) (rest : List Char) :
    (newLine level rest).length = 2 * level + rest.length + 1 := by
  simp [newLine]

theorem length_writeString (s : String) (rest : List Char) :
    rest.length + 2 ≤ (writeString s rest).length := by
  have hfold : ∀ cs : List Char, (cs.foldr (fun c more => escapeChar c ++ more) ('"' :: rest)).length ≥
      rest.length + 1 := by
    intro cs
    induction cs with
    | nil => simp
    | cons c cs ih =>
      rw [List.foldr_cons, List.length_append]
      omega
  have := hfold s.toList
  simp only [writeString, writeText, List.length_cons]
  omega

theorem Number.length_render {n : Number} (hn : n.Readable) : 1 ≤ n.render.length := by
  obtain ⟨c, more, hrender, -⟩ := Number.opens_render hn
  rw [hrender]
  exact Nat.succ_le_succ (Nat.zero_le _)

theorem readSteps_scalar (text : List Char) (h : 1 ≤ text.length) (rest : List Char) :
    1 + 3 * rest.length ≤ 3 * (text ++ rest).length := by
  rw [List.length_append]
  omega

mutual
/-- A text has a character for every three steps that reading it takes. -/
theorem readSteps_le (level : Nat) : (v : Json) → v.Readable → (rest : List Char) →
    readSteps v + 3 * rest.length ≤ 3 * (writePretty level v rest).length
  | .null, _, rest => readSteps_scalar "null".toList (by decide) rest
  | .bool true, _, rest => readSteps_scalar "true".toList (by decide) rest
  | .bool false, _, rest => readSteps_scalar "false".toList (by decide) rest
  | .num n, h, rest => readSteps_scalar n.render (Number.length_render h.number) rest
  | .str s, _, rest => by
    have hlength : rest.length + 2 ≤ (writePretty level (.str s) rest).length :=
      length_writeString s rest
    simp only [readSteps]
    omega
  | .arr [], _, rest => by
    have hlength : (writePretty level (.arr []) rest).length = rest.length + 2 := rfl
    simp only [readSteps, readStepsItems]
    omega
  | .arr (x :: xs), h, rest => by
    have hx := readSteps_le (level + 1) x (h.items x List.mem_cons_self)
      (writePrettyItems (level + 1) xs (newLine level (']' :: rest)))
    have hxs := readStepsItems_le (level + 1) xs (fun y hy => h.items y (List.mem_cons_of_mem _ hy))
      (newLine level (']' :: rest))
    have hlength : (writePretty level (.arr (x :: xs)) rest).length = _ :=
      congrArg (· + 1) (length_newLine (level + 1) _)
    simp only [readSteps, readStepsItems, List.length_cons, length_newLine] at hx hxs ⊢
    omega
  | .obj [], _, rest => by
    have hlength : (writePretty level (.obj []) rest).length = rest.length + 2 := rfl
    simp only [readSteps, readStepsMembers]
    omega
  | .obj ((k, x) :: ms), h, rest => by
    have hx := readSteps_le (level + 1) x (h.members (k, x) List.mem_cons_self)
      (writePrettyMembers (level + 1) ms (newLine level ('\x7d' :: rest)))
    have hms := readStepsMembers_le (level + 1) ms
      (fun m hm => h.members m (List.mem_cons_of_mem _ hm)) (newLine level ('\x7d' :: rest))
    have hk := length_writeString k (':' :: ' ' :: writePretty (level + 1) x
      (writePrettyMembers (level + 1) ms (newLine level ('\x7d' :: rest))))
    have hlength : (writePretty level (.obj ((k, x) :: ms)) rest).length = _ :=
      congrArg (· + 1) (length_newLine (level + 1) _)
    simp only [readSteps, readStepsMembers, List.length_cons, length_newLine] at hx hms hk ⊢
    omega

theorem readStepsItems_le (level : Nat) : (xs : List Json) → (∀ x ∈ xs, x.Readable) →
    (rest : List Char) →
    readStepsItems xs + 3 * rest.length ≤ 3 * (writePrettyItems level xs rest).length + 1
  | [], _, rest => by simp [readStepsItems, writePrettyItems]; omega
  | x :: xs, h, rest => by
    have hx := readSteps_le level x (h x List.mem_cons_self) (writePrettyItems level xs rest)
    have hxs := readStepsItems_le level xs (fun y hy => h y (List.mem_cons_of_mem _ hy)) rest
    simp only [readStepsItems, writePrettyItems, List.length_cons, length_newLine]
    omega

theorem readStepsMembers_le (level : Nat) : (ms : List (String × Json)) →
    (∀ m ∈ ms, m.2.Readable) → (rest : List Char) →
    readStepsMembers ms + 3 * rest.length ≤ 3 * (writePrettyMembers level ms rest).length + 1
  | [], _, rest => by simp [readStepsMembers, writePrettyMembers]; omega
  | (k, x) :: ms, h, rest => by
    have hx := readSteps_le level x (h (k, x) List.mem_cons_self) (writePrettyMembers level ms rest)
    have hms := readStepsMembers_le level ms (fun m hm => h m (List.mem_cons_of_mem _ hm)) rest
    have hk := length_writeString k (':' :: ' ' :: writePretty level x
      (writePrettyMembers level ms rest))
    simp only [readStepsMembers, writePrettyMembers, List.length_cons, length_newLine] at hk ⊢
    omega
end

/-! ### Reading what was written -/

/-- An item and those that follow. -/
theorem readItem_of {fuel room : Nat} {cs more rest : List Char} {d : Draft} {ds : List Draft}
    (hd : readValue fuel room cs = (d, some more))
    (hds : readItems fuel room false more = (ds, .inr rest)) :
    readItem (fuel + 1) room cs = (d :: ds, .inr rest) := by
  rw [readItem, hd]
  simp only [hds]

/-- A member and those that follow. -/
theorem readMember_of (first : Bool) (key : String) {fuel room : Nat} {cs more rest : List Char}
    {d : Draft} {ds : List (Option String × Draft)}
    (hd : readValue fuel room cs = (d, some more))
    (hds : readMembers fuel room false more = (ds, .inr rest)) :
    ∃ text, writeString key (':' :: cs) = '"' :: text ∧
      readMember (fuel + 1) room first text = ((some key, d) :: ds, .inr rest) := by
  obtain ⟨text, hwrite, hread⟩ := readText_writeString key (':' :: cs)
  refine ⟨text, hwrite, ?_⟩
  simp only [readMember, hread, skipSpace_cons (show isSpace ':' = false by decide), hd, hds]

theorem readItems_first {fuel room : Nat} {cs more : List Char} {c : Char}
    (h : skipSpace cs = c :: more) (hc : Opens c) :
    readItems (fuel + 1) room true cs = readItem fuel room (c :: more) := by
  obtain ⟨-, hcomma, hclose⟩ := hc
  rw [readItems, h]
  split <;> simp_all

theorem readItems_next {fuel room : Nat} {cs more : List Char} {c : Char}
    (h : skipSpace cs = c :: more) (hc : Opens c) :
    readItems (fuel + 1) room false (',' :: cs) = readItem fuel room (c :: more) := by
  obtain ⟨-, hcomma, hclose⟩ := hc
  rw [readItems, skipSpace_cons (by decide)]
  simp only [Bool.false_eq_true, if_false, h]
  split <;> simp_all

theorem readMembers_first {fuel room : Nat} {cs text : List Char} (h : skipSpace cs = '"' :: text) :
    readMembers (fuel + 1) room true cs = readMember fuel room true text := by
  rw [readMembers, h]
  rfl

theorem readMembers_next {fuel room : Nat} {cs text : List Char} (h : skipSpace cs = '"' :: text) :
    readMembers (fuel + 1) room false (',' :: cs) = readMember fuel room false text := by
  rw [readMembers, skipSpace_cons (by decide)]
  simp only [Bool.false_eq_true, if_false, h]

theorem delimited_items (level below : Nat) (xs : List Json) (rest : List Char) :
    Delimited (writePrettyItems level xs (newLine below rest)) := by
  cases xs <;> (intro c hc; cases hc; decide)

theorem delimited_members (level below : Nat) (ms : List (String × Json)) (rest : List Char) :
    Delimited (writePrettyMembers level ms (newLine below rest)) := by
  cases ms with
  | nil => intro c hc; cases hc; decide
  | cons m ms => intro c hc; cases hc; decide

/-- Where a value begins after blanks. -/
theorem skipSpace_writePretty {v : Json} (hv : v.Readable) (below level : Nat) (rest : List Char) :
    ∃ c more, writePretty level v rest = c :: more ∧ Opens c ∧
      skipSpace (newLine below (writePretty level v rest)) = c :: more := by
  obtain ⟨c, more, heq, hc⟩ := opens_writePretty hv level rest
  refine ⟨c, more, heq, hc, ?_⟩
  rw [skipSpace_newLine, heq, skipSpace_cons hc.1]

/-- A container with its end. -/
theorem readValue_arr {fuel room : Nat} {cs rest : List Char} {ds : List Draft}
    (h : readItems fuel (room - 1) true cs = (ds, .inr rest)) :
    readValue (fuel + 1) room ('[' :: cs) = (nested room (.arr ds none), some rest) := by
  rw [readValue, skipSpace_cons (by decide)]
  simp only [h]

theorem readValue_obj {fuel room : Nat} {cs rest : List Char} {ds : List (Option String × Draft)}
    (h : readMembers fuel (room - 1) true cs = (ds, .inr rest)) :
    readValue (fuel + 1) room ('\x7b' :: cs) = (nested room (.obj ds none), some rest) := by
  rw [readValue, skipSpace_cons (by decide)]
  simp only [h]

theorem readValue_scalar {fuel room : Nat} {c : Char} {more : List Char} (hs : isSpace c = false)
    (ha : c ≠ '[') (ho : c ≠ '\x7b') :
    readValue (fuel + 1) room (c :: more) = readScalar Numeral.stepwise? (c :: more) := by
  rw [readValue, skipSpace_cons hs]
  split <;> simp_all

theorem readValue_render {fuel room : Nat} {n : Number} (hn : n.Readable) {rest : List Char}
    (hr : Delimited rest) :
    readValue (fuel + 1) room (n.render ++ rest) = (.ofNumber? n.reread?, some rest) := by
  obtain ⟨c, more, hrender, hc, ha, ho⟩ := Number.opens_render hn
  have hread := readScalar_reread hn hr
  rw [hrender, List.cons_append] at hread ⊢
  exact (readValue_scalar hc.1 ha ho).trans hread

theorem readValue_writeString {fuel room : Nat} (s : String) (rest : List Char) :
    readValue (fuel + 1) room (writeString s rest) = (.str s, some rest) := by
  obtain ⟨more, hwrite, hread⟩ := readText_writeString s rest
  rw [hwrite, readValue_scalar (by decide) (by decide) (by decide), readScalar, hread]

mutual
/-- The indented text of a value is read as the draft of that value, with the numbers found in it. -/
theorem readValue_pretty (room level fuel : Nat) (rest : List Char) (hr : Delimited rest) :
    (v : Json) → v.Readable → readSteps v ≤ fuel + 1 →
    readValue (fuel + 1) room (writePretty level v rest) = (Draft.within room v, some rest)
  | .null, _, _ => readValue_scalar (by decide) (by decide) (by decide)
  | .bool true, _, _ => readValue_scalar (by decide) (by decide) (by decide)
  | .bool false, _, _ => readValue_scalar (by decide) (by decide) (by decide)
  | .num _, h, _ => readValue_render h.number hr
  | .str s, _, _ => readValue_writeString s rest
  | .arr [], _, hf => by
    obtain ⟨f, rfl⟩ : ∃ f, fuel = f + 1 := ⟨fuel - 1, by simp [readSteps, readStepsItems] at hf; omega⟩
    exact readValue_arr (by rw [readItems, skipSpace_cons (by decide)]; rfl)
  | .arr (x :: xs), h, hf => by
    simp only [readSteps, readStepsItems] at hf
    obtain ⟨f, rfl⟩ : ∃ f, fuel = f + 3 := ⟨fuel - 3, by have := readSteps_pos x; omega⟩
    have hx := h.items x List.mem_cons_self
    have hxs := fun y hy => h.items y (List.mem_cons_of_mem x hy)
    obtain ⟨c, more, heq, hc, hskip⟩ := skipSpace_writePretty hx (level + 1) (level + 1)
      (writePrettyItems (level + 1) xs (newLine level (']' :: rest)))
    have hitem := readValue_pretty (room - 1) (level + 1) f _
      (delimited_items (level + 1) level xs (']' :: rest)) x hx (by omega)
    have hitems := readItems_pretty (room - 1) (level + 1) level f rest xs hxs (by omega)
    refine readValue_arr ?_
    rw [readItems_first hskip hc, ← heq]
    exact readItem_of hitem hitems
  | .obj [], _, hf => by
    obtain ⟨f, rfl⟩ : ∃ f, fuel = f + 1 :=
      ⟨fuel - 1, by simp [readSteps, readStepsMembers] at hf; omega⟩
    exact readValue_obj (by rw [readMembers, skipSpace_cons (by decide)]; rfl)
  | .obj ((k, x) :: ms), h, hf => by
    simp only [readSteps, readStepsMembers] at hf
    obtain ⟨f, rfl⟩ : ∃ f, fuel = f + 3 := ⟨fuel - 3, by have := readSteps_pos x; omega⟩
    have hx := h.members (k, x) List.mem_cons_self
    have hms := fun m hm => h.members m (List.mem_cons_of_mem (k, x) hm)
    have hvalue := readValue_pretty (room - 1) (level + 1) f _
      (delimited_members (level + 1) level ms ('\x7d' :: rest)) x hx (by omega)
    rw [← readValue_of_skipSpace (skipSpace_space _)] at hvalue
    have hmembers := readMembers_pretty (room - 1) (level + 1) level f rest ms hms (by omega)
    obtain ⟨text, hwrite, hread⟩ := readMember_of true k hvalue hmembers
    refine readValue_obj ?_
    rw [hwrite, readMembers_first ((skipSpace_newLine _ _).trans (skipSpace_cons (by decide) _))]
    exact hread

theorem readItems_pretty (room level below fuel : Nat) (rest : List Char) :
    (xs : List Json) → (∀ x ∈ xs, x.Readable) → readStepsItems xs ≤ fuel + 1 →
    readItems (fuel + 1) room false (writePrettyItems level xs (newLine below (']' :: rest))) =
      (Draft.withinItems room xs, .inr rest)
  | [], _, _ => by
    rw [writePrettyItems, readItems, skipSpace_newLine, skipSpace_cons (by decide)]
    rfl
  | x :: xs, h, hf => by
    simp only [readStepsItems] at hf
    obtain ⟨f, rfl⟩ : ∃ f, fuel = f + 2 := ⟨fuel - 2, by have := readSteps_pos x; omega⟩
    have hx := h x List.mem_cons_self
    have hxs := fun y hy => h y (List.mem_cons_of_mem x hy)
    obtain ⟨c, more, heq, hc, hskip⟩ := skipSpace_writePretty hx level level
      (writePrettyItems level xs (newLine below (']' :: rest)))
    have hitem := readValue_pretty room level f _ (delimited_items level below xs (']' :: rest))
      x hx (by omega)
    have hitems := readItems_pretty room level below f rest xs hxs (by omega)
    rw [writePrettyItems, readItems_next hskip hc, ← heq]
    exact readItem_of hitem hitems

theorem readMembers_pretty (room level below fuel : Nat) (rest : List Char) :
    (ms : List (String × Json)) → (∀ m ∈ ms, m.2.Readable) → readStepsMembers ms ≤ fuel + 1 →
    readMembers (fuel + 1) room false (writePrettyMembers level ms (newLine below ('\x7d' :: rest))) =
      (Draft.withinMembers room ms, .inr rest)
  | [], _, _ => by
    rw [writePrettyMembers, readMembers, skipSpace_newLine, skipSpace_cons (by decide)]
    rfl
  | (k, x) :: ms, h, hf => by
    simp only [readStepsMembers] at hf
    obtain ⟨f, rfl⟩ : ∃ f, fuel = f + 2 := ⟨fuel - 2, by have := readSteps_pos x; omega⟩
    have hx := h (k, x) List.mem_cons_self
    have hms := fun m hm => h m (List.mem_cons_of_mem (k, x) hm)
    have hvalue := readValue_pretty room level f _
      (delimited_members level below ms ('\x7d' :: rest)) x hx (by omega)
    rw [← readValue_of_skipSpace (skipSpace_space _)] at hvalue
    have hmembers := readMembers_pretty room level below f rest ms hms (by omega)
    obtain ⟨text, hwrite, hread⟩ := readMember_of false k hvalue hmembers
    rw [writePrettyMembers, hwrite,
      readMembers_next ((skipSpace_newLine _ _).trans (skipSpace_cons (by decide) _))]
    exact hread
end

/-- The indented text of a value names the draft of that value, and nothing follows. -/
theorem reading_within {v : Json} (hv : v.Readable) :
    Reading.ofText v.pretty = ⟨.within nestingLimit v, false⟩ := by
  have hsteps := readSteps_le 0 v hv []
  have hread := readValue_pretty nestingLimit 0 (3 * (writePretty 0 v []).length + 2) []
    (fun c hc => by cases hc) v hv (by simp only [List.length_nil] at hsteps; omega)
  unfold Reading.ofText pretty
  rw [String.toList_ofList]
  simp only [hread]
  rfl

end TypedApi.Json
