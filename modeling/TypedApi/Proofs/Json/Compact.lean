import TypedApi.Proofs.Json.Reading

/-! The compact text of a value is read in one way only.

No compact text of a readable value is the beginning of another one, so both a value and what
follows it can be told from the text (`write_inj`). -/
namespace TypedApi.Json

theorem writeString_append (s : String) (r r' : List Char) :
    writeString s r ++ r' = writeString s (r ++ r') := by
  have hbody : ∀ cs : List Char,
      cs.foldr (fun c acc => escapeChar c ++ acc) ('"' :: r) ++ r' =
        cs.foldr (fun c acc => escapeChar c ++ acc) ('"' :: (r ++ r')) := fun cs => by
    induction cs with
    | nil => rfl
    | cons c cs ih => rw [List.foldr_cons, List.foldr_cons, List.append_assoc, ih]
  exact congrArg ('"' :: ·) (hbody s.toList)

mutual
/-- A value is written in front of whatever follows it. -/
theorem write_append (r r' : List Char) : (v : Json) → write v r ++ r' = write v (r ++ r')
  | .null => List.append_assoc _ _ _
  | .bool true => List.append_assoc _ _ _
  | .bool false => List.append_assoc _ _ _
  | .num _ => List.append_assoc _ _ _
  | .str s => writeString_append s r r'
  | .arr xs => congrArg ('[' :: ·) (writeItems_append (']' :: r) r' true xs)
  | .obj ms => congrArg ('\x7b' :: ·) (writeMembers_append ('\x7d' :: r) r' true ms)

theorem writeItems_append (r r' : List Char) :
    (first : Bool) → (xs : List Json) →
      writeItems first xs r ++ r' = writeItems first xs (r ++ r')
  | _, [] => by rw [writeItems, writeItems]
  | true, x :: xs => by
    rw [writeItems, writeItems, write_append, writeItems_append r r' false xs]
  | false, x :: xs => by
    rw [writeItems, writeItems, List.cons_append, write_append, writeItems_append r r' false xs]

theorem writeMembers_append (r r' : List Char) :
    (first : Bool) → (ms : List (String × Json)) →
      writeMembers first ms r ++ r' = writeMembers first ms (r ++ r')
  | _, [] => by rw [writeMembers, writeMembers]
  | true, (k, x) :: ms => by
    rw [writeMembers, writeMembers, writeString_append, List.cons_append, write_append,
      writeMembers_append r r' false ms]
  | false, (k, x) :: ms => by
    rw [writeMembers, writeMembers, List.cons_append, writeString_append, List.cons_append,
      write_append, writeMembers_append r r' false ms]
end

theorem toList_compact_append (v : Json) (rest : List Char) :
    v.compact.toList ++ rest = write v rest := by
  rw [compact, String.toList_ofList, write_append, List.nil_append]

/-- Values that are no containers. -/
def isScalar : Json → Bool
  | .arr _ => false
  | .obj _ => false
  | _ => true

/-- Scalars are told by their texts, a number by being the nearest one. -/
theorem readScalar_write {v : Json} (hv : v.Readable) (hs : v.isScalar = true) {rest : List Char}
    (hr : Delimited rest) :
    readScalar Numeral.nearest? (write v rest) = (.ofValue v, some rest) := by
  cases v with
  | null => rfl
  | bool b => cases b <;> rfl
  | num n => exact readScalar_nearest hv.number hr
  | str s =>
    obtain ⟨more, hwrite, hread⟩ := readText_writeString s rest
    show readScalar Numeral.nearest? (writeString s rest) = _
    rw [hwrite, readScalar, hread]
    rfl
  | arr xs => cases hs
  | obj ms => cases hs

/-- No scalar is read where a container begins. -/
theorem readScalar_container {v : Json} (hs : v.isScalar = false) (rest : List Char) :
    (readScalar Numeral.nearest? (write v rest)).2 = none := by
  cases v with
  | arr xs => rfl
  | obj ms => rfl
  | _ => cases hs

theorem ofValue_inj {v w : Json} (hv : v.Readable) (hw : w.Readable)
    (h : Draft.ofValue v = Draft.ofValue w) : v = w := by
  have hvalue := Draft.value_ofValue v hv
  rw [h, Draft.value_ofValue w hw] at hvalue
  exact (Except.ok.inj hvalue).symm

theorem write_scalar_inj {v w : Json} (hv : v.Readable) (hw : w.Readable) (hs : v.isScalar = true)
    {r r' : List Char} (hr : Delimited r) (hr' : Delimited r') (h : write v r = write w r') :
    v = w ∧ r = r' := by
  have hread := readScalar_write hv hs hr
  rw [h] at hread
  cases hw' : w.isScalar with
  | false =>
    have hnone := readScalar_container hw' r'
    rw [hread] at hnone
    cases hnone
  | true =>
    rw [readScalar_write hw hw' hr', Prod.mk.injEq, Option.some.injEq] at hread
    exact ⟨ofValue_inj hv hw hread.1.symm, hread.2.symm⟩

/-- Nothing is read at a closing parenthesis. -/
theorem write_ne_parenthesis {v : Json} (hv : v.Readable) (more : List Char) :
    write v [] ≠ ')' :: more := by
  intro h
  cases hs : v.isScalar with
  | true =>
    have hend : Delimited [] := fun c hc => nomatch hc
    have hread := readScalar_write hv hs hend
    have hnone : (readScalar Numeral.nearest? (')' :: more)).2 = none := rfl
    rw [← h, hread] at hnone
    cases hnone
  | false =>
    cases v with
    | arr xs => exact absurd (List.cons.inj h).1 (by decide)
    | obj ms => exact absurd (List.cons.inj h).1 (by decide)
    | _ => cases hs

theorem delimited_cons {c : Char} (h : isNumeral c = false ∧ c ≠ '.' ∧ c ≠ 'e' ∧ c ≠ 'E')
    (rest : List Char) : Delimited (c :: rest) := by
  intro d hd
  cases hd
  exact h

theorem delimited_writeItems (xs : List Json) (rest : List Char) :
    Delimited (writeItems false xs (']' :: rest)) := by
  cases xs <;> exact delimited_cons (by decide) _

theorem delimited_writeMembers (ms : List (String × Json)) (rest : List Char) :
    Delimited (writeMembers false ms ('\x7d' :: rest)) := by
  cases ms <;> exact delimited_cons (by decide) _

theorem writeString_inj {s s' : String} {r r' : List Char} (h : writeString s r = writeString s' r') :
    s = s' ∧ r = r' := by
  obtain ⟨more, hwrite, hread⟩ := readText_writeString s r
  obtain ⟨more', hwrite', hread'⟩ := readText_writeString s' r'
  rw [hwrite, hwrite'] at h
  rw [(List.cons.inj h).2, hread'] at hread
  cases hread
  exact ⟨rfl, rfl⟩

/-- The end of a list is no item. -/
theorem writeItems_ne_close {first : Bool} {x : Json} (hx : x.Readable) (xs : List Json)
    (rest r : List Char) : writeItems first (x :: xs) rest ≠ ']' :: r := by
  intro h
  cases first with
  | true =>
    obtain ⟨c, more, hwrite, -, -, hc⟩ := opens_write hx (writeItems false xs rest)
    rw [writeItems, hwrite] at h
    exact hc (List.cons.inj h).1
  | false => exact absurd (List.cons.inj h).1 (by decide)

/-- The end of an object is no member. -/
theorem writeMembers_ne_close {first : Bool} (m : String × Json) (ms : List (String × Json))
    (rest r : List Char) : writeMembers first (m :: ms) rest ≠ '\x7d' :: r := by
  intro h
  cases first <;> exact absurd (List.cons.inj h).1 (by decide)

mutual
/-- A value and what follows it can be told from the text. -/
theorem write_inj {r r' : List Char} (hr : Delimited r) (hr' : Delimited r') :
    (v : Json) → v.Readable → (w : Json) → w.Readable → write v r = write w r' → v = w ∧ r = r'
  | .arr xs, hv, w, hw, h => by
    cases w with
    | arr ys =>
      obtain ⟨rfl, rfl⟩ := writeItems_inj true xs hv.items ys hw.items (List.cons.inj h).2
      exact ⟨rfl, rfl⟩
    | obj ms => exact absurd (List.cons.inj h).1 (by decide)
    | _ => cases (write_scalar_inj hw hv rfl hr' hr h.symm).1
  | .obj ms, hv, w, hw, h => by
    cases w with
    | obj ns =>
      obtain ⟨rfl, rfl⟩ := writeMembers_inj true ms hv.members ns hw.members (List.cons.inj h).2
      exact ⟨rfl, rfl⟩
    | arr xs => exact absurd (List.cons.inj h).1 (by decide)
    | _ => cases (write_scalar_inj hw hv rfl hr' hr h.symm).1
  | .null, hv, _, hw, h => write_scalar_inj hv hw rfl hr hr' h
  | .bool _, hv, _, hw, h => write_scalar_inj hv hw rfl hr hr' h
  | .num _, hv, _, hw, h => write_scalar_inj hv hw rfl hr hr' h
  | .str _, hv, _, hw, h => write_scalar_inj hv hw rfl hr hr' h

theorem writeItems_inj {r r' : List Char} (first : Bool) :
    (xs : List Json) → (∀ x ∈ xs, x.Readable) → (ys : List Json) → (∀ y ∈ ys, y.Readable) →
    writeItems first xs (']' :: r) = writeItems first ys (']' :: r') → xs = ys ∧ r = r'
  | [], _, [], _, h => by
    rw [writeItems, writeItems] at h
    exact ⟨rfl, (List.cons.inj h).2⟩
  | [], _, y :: ys, hy, h => by
    rw [writeItems] at h
    exact absurd h.symm (writeItems_ne_close (hy y List.mem_cons_self) ys _ _)
  | x :: xs, hx, [], _, h => by
    rw [writeItems.eq_1] at h
    exact absurd h (writeItems_ne_close (hx x List.mem_cons_self) xs _ _)
  | x :: xs, hx, y :: ys, hy, h => by
    have hitem : write x (writeItems false xs (']' :: r)) =
        write y (writeItems false ys (']' :: r')) := by
      cases first with
      | true => exact h
      | false => exact (List.cons.inj h).2
    obtain ⟨rfl, hitems⟩ := write_inj (delimited_writeItems xs r) (delimited_writeItems ys r')
      x (hx x List.mem_cons_self) y (hy y List.mem_cons_self) hitem
    obtain ⟨rfl, rfl⟩ := writeItems_inj false xs (fun z hz => hx z (List.mem_cons_of_mem _ hz))
      ys (fun z hz => hy z (List.mem_cons_of_mem _ hz)) hitems
    exact ⟨rfl, rfl⟩

theorem writeMembers_inj {r r' : List Char} (first : Bool) :
    (ms : List (String × Json)) → (∀ m ∈ ms, m.2.Readable) →
    (ns : List (String × Json)) → (∀ n ∈ ns, n.2.Readable) →
    writeMembers first ms ('\x7d' :: r) = writeMembers first ns ('\x7d' :: r') → ms = ns ∧ r = r'
  | [], _, [], _, h => by
    rw [writeMembers, writeMembers] at h
    exact ⟨rfl, (List.cons.inj h).2⟩
  | [], _, n :: ns, _, h => by
    rw [writeMembers] at h
    exact absurd h.symm (writeMembers_ne_close n ns _ _)
  | m :: ms, _, [], _, h => by
    rw [writeMembers.eq_1] at h
    exact absurd h (writeMembers_ne_close m ms _ _)
  | (k, x) :: ms, hm, (l, y) :: ns, hn, h => by
    have hmember : writeString k (':' :: write x (writeMembers false ms ('\x7d' :: r))) =
        writeString l (':' :: write y (writeMembers false ns ('\x7d' :: r'))) := by
      cases first with
      | true => exact h
      | false => exact (List.cons.inj h).2
    obtain ⟨rfl, hvalue⟩ := writeString_inj hmember
    obtain ⟨rfl, hmembers⟩ := write_inj (delimited_writeMembers ms r) (delimited_writeMembers ns r')
      x (hm (k, x) List.mem_cons_self) y (hn (k, y) List.mem_cons_self) (List.cons.inj hvalue).2
    obtain ⟨rfl, rfl⟩ := writeMembers_inj false ms (fun z hz => hm z (List.mem_cons_of_mem _ hz))
      ns (fun z hz => hn z (List.mem_cons_of_mem _ hz)) hmembers
    exact ⟨rfl, rfl⟩
end

end TypedApi.Json
