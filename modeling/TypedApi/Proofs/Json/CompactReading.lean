import TypedApi.Proofs.Json.Compact
import TypedApi.Proofs.Json.Recovery

/-! Values come back from their compact text.

The reader makes the same draft of the compact text of a value as of the indented one
(`readValue_write`), so a decoder cannot tell the two texts apart (`run_compact`). -/
namespace TypedApi.Json

theorem length_append_le {word : List Char} (h : 1 ≤ word.length) (rest : List Char) :
    1 + 3 * rest.length ≤ 3 * (word ++ rest).length := by
  rw [List.length_append]
  omega

mutual
/-- A compact text has a character for every three steps that reading it takes. -/
theorem readSteps_le_write : (v : Json) → v.Readable → (rest : List Char) →
    readSteps v + 3 * rest.length ≤ 3 * (write v rest).length
  | .null, _, rest => length_append_le (by decide) rest
  | .bool true, _, rest => length_append_le (by decide) rest
  | .bool false, _, rest => length_append_le (by decide) rest
  | .num _, h, rest => length_append_le (Number.length_render h.number) rest
  | .str s, _, rest => by
    have := length_writeString s rest
    show 1 + 3 * rest.length ≤ 3 * (writeString s rest).length
    omega
  | .arr xs, h, rest => by
    have hxs := readStepsItems_le_write true xs h.items (']' :: rest)
    show readStepsItems xs + 1 + 3 * rest.length ≤ 3 * (writeItems true xs (']' :: rest)).length.succ
    simp only [List.length_cons, if_true] at hxs
    omega
  | .obj ms, h, rest => by
    have hms := readStepsMembers_le_write true ms h.members ('\x7d' :: rest)
    show readStepsMembers ms + 1 + 3 * rest.length ≤
      3 * (writeMembers true ms ('\x7d' :: rest)).length.succ
    rw [List.length_cons] at hms
    omega

theorem readStepsItems_le_write (first : Bool) : (xs : List Json) → (∀ x ∈ xs, x.Readable) →
    (rest : List Char) →
    readStepsItems xs + 3 * rest.length ≤
      3 * (writeItems first xs rest).length + if first then 3 else 1
  | [], _, rest => by cases first <;> simp [readStepsItems, writeItems] <;> omega
  | x :: xs, h, rest => by
    -- no comma stands before the first item, so it has two steps to spare
    have hx := readSteps_le_write x (h x List.mem_cons_self) (writeItems false xs rest)
    have hxs := readStepsItems_le_write false xs (fun y hy => h y (List.mem_cons_of_mem _ hy)) rest
    simp only [Bool.false_eq_true, if_false] at hxs
    cases first <;>
      simp only [readStepsItems, writeItems, List.length_cons, Bool.false_eq_true, if_false, if_true] <;>
      omega

theorem readStepsMembers_le_write (first : Bool) : (ms : List (String × Json)) →
    (∀ m ∈ ms, m.2.Readable) → (rest : List Char) →
    readStepsMembers ms + 3 * rest.length ≤ 3 * (writeMembers first ms rest).length + 1
  | [], _, rest => by simp [readStepsMembers, writeMembers]; omega
  | (k, x) :: ms, h, rest => by
    have hx := readSteps_le_write x (h (k, x) List.mem_cons_self) (writeMembers false ms rest)
    have hms := readStepsMembers_le_write false ms (fun m hm => h m (List.mem_cons_of_mem _ hm)) rest
    have hk := length_writeString k (':' :: write x (writeMembers false ms rest))
    cases first <;> simp only [readStepsMembers, writeMembers, List.length_cons] at hk ⊢ <;> omega
end

mutual
/-- The compact text of a value is read as the indented one is. -/
theorem readValue_write (room fuel : Nat) (rest : List Char) (hr : Delimited rest) :
    (v : Json) → v.Readable → readSteps v ≤ fuel + 1 →
    readValue (fuel + 1) room (write v rest) = (Draft.within room v, some rest)
  | .null, _, _ => readValue_scalar (by decide) (by decide) (by decide)
  | .bool true, _, _ => readValue_scalar (by decide) (by decide) (by decide)
  | .bool false, _, _ => readValue_scalar (by decide) (by decide) (by decide)
  | .num _, h, _ => readValue_render h.number hr
  | .str s, _, _ => readValue_writeString s rest
  | .arr xs, h, hf => by
    simp only [readSteps] at hf
    obtain ⟨f, rfl⟩ : ∃ f, fuel = f + 1 := ⟨fuel - 1, by cases xs <;> simp [readStepsItems] at hf <;> omega⟩
    exact readValue_arr (readItems_write (room - 1) f rest true xs h.items (by omega))
  | .obj ms, h, hf => by
    simp only [readSteps] at hf
    obtain ⟨f, rfl⟩ : ∃ f, fuel = f + 1 :=
      ⟨fuel - 1, by cases ms <;> simp [readStepsMembers] at hf <;> omega⟩
    exact readValue_obj (readMembers_write (room - 1) f rest true ms h.members (by omega))

theorem readItems_write (room fuel : Nat) (rest : List Char) (first : Bool) :
    (xs : List Json) → (∀ x ∈ xs, x.Readable) → readStepsItems xs ≤ fuel + 1 →
    readItems (fuel + 1) room first (writeItems first xs (']' :: rest)) =
      (Draft.withinItems room xs, .inr rest)
  | [], _, _ => by
    rw [writeItems, readItems, skipSpace_cons (by decide)]
    rfl
  | x :: xs, h, hf => by
    simp only [readStepsItems] at hf
    obtain ⟨f, rfl⟩ : ∃ f, fuel = f + 2 := ⟨fuel - 2, by have := readSteps_pos x; omega⟩
    have hx := h x List.mem_cons_self
    have hxs := fun y hy => h y (List.mem_cons_of_mem x hy)
    obtain ⟨c, more, heq, hc⟩ := opens_write hx (writeItems false xs (']' :: rest))
    have hitem := readValue_write room f _ (delimited_writeItems xs rest) x hx (by omega)
    have hitems := readItems_write room f rest false xs hxs (by omega)
    have hskip : skipSpace (write x (writeItems false xs (']' :: rest))) = c :: more := by
      rw [heq, skipSpace_cons hc.1]
    cases first with
    | true =>
      rw [writeItems, readItems_first hskip hc, ← heq]
      exact readItem_of hitem hitems
    | false =>
      rw [writeItems, readItems_next hskip hc, ← heq]
      exact readItem_of hitem hitems

theorem readMembers_write (room fuel : Nat) (rest : List Char) (first : Bool) :
    (ms : List (String × Json)) → (∀ m ∈ ms, m.2.Readable) → readStepsMembers ms ≤ fuel + 1 →
    readMembers (fuel + 1) room first (writeMembers first ms ('\x7d' :: rest)) =
      (Draft.withinMembers room ms, .inr rest)
  | [], _, _ => by
    rw [writeMembers, readMembers, skipSpace_cons (by decide)]
    rfl
  | (k, x) :: ms, h, hf => by
    simp only [readStepsMembers] at hf
    obtain ⟨f, rfl⟩ : ∃ f, fuel = f + 2 := ⟨fuel - 2, by have := readSteps_pos x; omega⟩
    have hx := h (k, x) List.mem_cons_self
    have hms := fun m hm => h m (List.mem_cons_of_mem (k, x) hm)
    have hvalue := readValue_write room f _ (delimited_writeMembers ms rest) x hx (by omega)
    have hmembers := readMembers_write room f rest false ms hms (by omega)
    obtain ⟨text, hwrite, hread⟩ := readMember_of first k hvalue hmembers
    cases first with
    | true =>
      rw [writeMembers, hwrite, readMembers_first (skipSpace_cons (by decide) _)]
      exact hread
    | false =>
      rw [writeMembers, hwrite, readMembers_next (skipSpace_cons (by decide) _)]
      exact hread
end

/-- The compact text of a value names the draft of that value, and nothing follows. -/
theorem reading_compact {v : Json} (hv : v.Readable) :
    Reading.ofText v.compact = ⟨.within nestingLimit v, false⟩ := by
  have hsteps := readSteps_le_write v hv []
  have hread := readValue_write nestingLimit (3 * (write v []).length + 2) []
    (fun c hc => by cases hc) v hv (by simp only [List.length_nil] at hsteps; omega)
  unfold Reading.ofText compact
  rw [String.toList_ofList]
  simp only [hread]
  rfl

variable {α : Type} {v : Json}

/-- The compact text is decoded as the indented one is. -/
theorem run_compact_eq (decode : Decoder α) (hv : v.Readable) :
    decode.run v.compact = decode.run v.pretty := by
  rw [Decoder.run, Decoder.run, reading_compact hv, reading_within hv]

theorem run_compact (decode : Decoder α) (hv : v.Readable) (hd : v.depth ≤ nestingLimit)
    (hn : ∀ n ∈ v.numbers, n.ReadsBack) : decode.run v.compact = decode (.ofValue v) := by
  rw [run_compact_eq decode hv, run_pretty decode hv hd hn]

end TypedApi.Json
