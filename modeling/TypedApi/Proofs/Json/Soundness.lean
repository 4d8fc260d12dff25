import Mathlib.Data.List.TakeWhile
import TypedApi.Proofs.Json.Decimal

/-! Drafts of texts are sound.

The numbers of a sound draft are readable and its lists are no longer than a bound. Reading
goes through a text from left to right: each item of a list takes at least one character, so
the draft of a text is sound with the length of the text as the bound (`sound_reading`). -/
namespace TypedApi.Json

/-- A draft with readable numbers and lists of at most `bound` items. -/
inductive Draft.Sound (bound : Nat) : Draft → Prop where
  | null : Sound bound .null
  | bool (b : Bool) : Sound bound (.bool b)
  | num {n : Number} : n.Readable → Sound bound (.num n)
  | str (s : String) : Sound bound (.str s)
  | unfit : Sound bound .unfit
  | stopped (s : Stop) : Sound bound (.stopped s)
  | deep (d : Draft) : Sound bound (.deep d)
  | arr {xs : List Draft} {ending : Option Stop} : xs.length ≤ bound →
      (∀ x ∈ xs, Sound bound x) → Sound bound (.arr xs ending)
  | obj {ms : List (Option String × Draft)} {ending : Option Stop} :
      (∀ m ∈ ms, Sound bound m.2) → Sound bound (.obj ms ending)

namespace Draft.Sound

variable {bound : Nat}

theorem length {xs : List Draft} {ending : Option Stop} (h : Sound bound (.arr xs ending)) :
    xs.length ≤ bound := by
  cases h with
  | arr hl _ => exact hl

theorem items {xs : List Draft} {ending : Option Stop} (h : Sound bound (.arr xs ending)) :
    ∀ x ∈ xs, Sound bound x := by
  cases h with
  | arr _ hx => exact hx

theorem members {ms : List (Option String × Draft)} {ending : Option Stop}
    (h : Sound bound (.obj ms ending)) : ∀ m ∈ ms, Sound bound m.2 := by
  cases h with
  | obj hm => exact hm

theorem nested {room : Nat} {d : Draft} (h : Sound bound d) : Sound bound (Json.nested room d) := by
  unfold Json.nested
  split
  · exact .deep d
  · exact h

end Draft.Sound

/-! ### Scalars -/

/-- A sound draft, with less left to read than there was. -/
structure Taken.Sound (bound size : Nat) (t : Taken) : Prop where
  draft : t.1.Sound bound
  rest : ∀ rest ∈ t.2, rest.length < size

variable {bound : Nat}

theorem Taken.Sound.halt (size : Nat) (stop : Stop) : Taken.Sound bound size (halt stop) where
  draft := .stopped stop
  rest := nofun

theorem Taken.Sound.mono {size more : Nat} {t : Taken} (h : t.Sound bound size)
    (hle : size ≤ more) : t.Sound bound more where
  draft := h.draft
  rest rest hr := Nat.lt_of_lt_of_le (h.rest rest hr) hle

theorem length_skipSpace (cs : List Char) : (skipSpace cs).length ≤ cs.length :=
  List.length_dropWhile_le isSpace cs

/-- A string ends behind at least its closing quote. -/
theorem length_of_readText {acc : List TextUnit} {cs rest : List Char} {text : Option String}
    (h : readText acc cs = .closed text rest) : rest.length < cs.length := by
  fun_induction readText acc cs with
  | case2 acc more =>
    cases h
    exact Nat.lt_succ_self _
  | case3 acc a b c d more n hn ih =>
    have := ih h
    simp only [List.length_cons]
    omega
  | case6 acc c more _ _ e he ih =>
    have := ih h
    simp only [List.length_cons]
    omega
  | case10 acc c more _ _ _ _ _ hc ih =>
    have := ih h
    simp only [List.length_cons]
    omega
  | _ => cases h

theorem sound_stepwise? (n : Numeral) : (Draft.ofNumber? n.stepwise?).Sound bound := by
  cases h : n.stepwise? with
  | some x => exact .num (Numeral.readable_of_stepwise? h)
  | none => exact .unfit

theorem length_spanDigits (cs : List Char) : (spanDigits cs).2.length ≤ cs.length :=
  List.length_dropWhile_le isNumeral cs

/-- Digits that are there take up room. -/
theorem length_spanDigits_lt {cs : List Char} (h : (spanDigits cs).1 ≠ []) :
    (spanDigits cs).2.length < cs.length := by
  have hsum := congrArg List.length (List.takeWhile_append_dropWhile (p := isNumeral) (l := cs))
  rw [List.length_append] at hsum
  have hpos : 0 < (spanDigits cs).1.length := List.length_pos_iff.mpr h
  have : (cs.takeWhile isNumeral).length = (spanDigits cs).1.length := rfl
  have : (cs.dropWhile isNumeral).length = (spanDigits cs).2.length := rfl
  omega

/-- Less than `size` is left behind a numeral. -/
def Scanned.Within (size : Nat) (s : Scanned) : Prop := ∀ n rest, s = .ok (n, rest) → rest.length < size

theorem within_scanExponent (n : Numeral) (down : Bool) {cs : List Char} {size : Nat}
    (hs : cs.length < size) : (scanExponent n down cs).Within size := by
  intro m rest h
  unfold scanExponent at h
  dsimp only at h
  split at h
  · cases h
  · cases h
    exact Nat.lt_of_le_of_lt (length_spanDigits cs) hs

theorem within_scanTail (n : Numeral) {cs : List Char} {size : Nat} (hs : cs.length < size) :
    (scanTail n cs).Within size := by
  fun_cases scanTail n cs with
  | case7 =>
    intro m rest h
    cases h
    exact hs
  | _ =>
    simp only [List.length_cons] at hs
    exact within_scanExponent _ _ (by omega)

theorem within_scanNumber (negative : Bool) (cs : List Char) :
    (scanNumber negative cs).Within cs.length := by
  unfold scanNumber
  dsimp only
  split
  · nofun
  · nofun
  · next hne _ =>
    have hlt := length_spanDigits_lt hne
    split
    · next more hrest =>
      rw [hrest, List.length_cons] at hlt
      have hle := length_spanDigits more
      split
      · nofun
      · exact within_scanTail _ (by omega)
    · exact within_scanTail _ hlt

theorem sound_readNumber (negative : Bool) (cs : List Char) :
    (readNumber Numeral.stepwise? negative cs).Sound bound cs.length := by
  have hwithin := within_scanNumber negative cs
  unfold readNumber
  split
  · exact .halt _ _
  · next n rest hscan =>
    refine ⟨sound_stepwise? n, fun rest hr => ?_⟩
    cases hr
    exact hwithin n _ hscan

theorem sound_readWord {value : Draft} (hv : value.Sound bound) (word cs : List Char) :
    (readWord value word cs).Sound bound (cs.length + 1) := by
  induction word generalizing cs with
  | nil =>
    refine ⟨hv, fun rest hr => ?_⟩
    cases hr
    exact Nat.lt_succ_self _
  | cons n ns ih =>
    cases cs with
    | nil => exact .halt _ _
    | cons c cs =>
      rw [readWord]
      split
      · exact (ih cs).mono (Nat.le_succ _)
      · exact .halt _ _

theorem sound_readScalar (cs : List Char) :
    (readScalar Numeral.stepwise? cs).Sound bound cs.length := by
  fun_cases readScalar Numeral.stepwise? cs with
  | case1 => exact .halt _ _
  | case2 rest => exact sound_readWord .null _ rest
  | case3 rest => exact sound_readWord (.bool true) _ rest
  | case4 rest => exact sound_readWord (.bool false) _ rest
  | case5 rest => exact (sound_readNumber true rest).mono (Nat.le_succ _)
  | case6 rest text more htext =>
    refine ⟨.str _, fun rest hr => ?_⟩
    cases hr
    exact Nat.lt_succ_of_lt (length_of_readText htext)
  | case7 rest more htext =>
    refine ⟨.unfit, fun rest hr => ?_⟩
    cases hr
    exact Nat.lt_succ_of_lt (length_of_readText htext)
  | case8 => exact .halt _ _
  | case9 => exact sound_readNumber false _
  | case10 => exact .halt _ _

/-! ### Containers -/

/-- Sound items, no more than `count`, with less left to read than `size`. -/
structure SoundItems (bound count size : Nat) (read : List Draft × (Stop ⊕ List Char)) :
    Prop where
  items : ∀ x ∈ read.1, x.Sound bound
  count : read.1.length ≤ count
  rest : ∀ rest, read.2 = .inr rest → rest.length < size

structure SoundMembers (bound size : Nat)
    (read : List (Option String × Draft) × (Stop ⊕ List Char)) : Prop where
  members : ∀ m ∈ read.1, m.2.Sound bound
  rest : ∀ rest, read.2 = .inr rest → rest.length < size

theorem SoundItems.stop (count size : Nat) (s : Stop) :
    SoundItems bound count size ([], .inl s) where
  items := nofun
  count := Nat.zero_le _
  rest := nofun

theorem SoundItems.mono {count count' size size' : Nat} {read : List Draft × (Stop ⊕ List Char)}
    (h : SoundItems bound count size read) (hc : count ≤ count') (hs : size ≤ size') :
    SoundItems bound count' size' read where
  items := h.items
  count := Nat.le_trans h.count hc
  rest rest hr := Nat.lt_of_lt_of_le (h.rest rest hr) hs

/-- A value and the items that follow it. -/
theorem SoundItems.cons {size more : Nat} {d : Draft} {read : List Draft × (Stop ⊕ List Char)}
    (hd : d.Sound bound) (hs : more < size) (h : SoundItems bound more more read) :
    SoundItems bound size size (d :: read.1, read.2) where
  items := List.forall_mem_cons.mpr ⟨hd, h.items⟩
  count := Nat.le_trans (Nat.succ_le_succ h.count) hs
  rest rest hr := Nat.lt_trans (h.rest rest hr) hs

/-- A value at which the text stops. -/
theorem SoundItems.last {d : Draft} (hd : d.Sound bound) (size : Nat) (s : Stop) :
    SoundItems bound 1 size ([d], .inl s) where
  items := List.forall_mem_singleton.mpr hd
  count := Nat.le_refl 1
  rest := nofun

theorem SoundMembers.stop (size : Nat) (s : Stop) : SoundMembers bound size ([], .inl s) where
  members := nofun
  rest := nofun

theorem SoundMembers.mono {size size' : Nat}
    {read : List (Option String × Draft) × (Stop ⊕ List Char)} (h : SoundMembers bound size read)
    (hs : size ≤ size') : SoundMembers bound size' read where
  members := h.members
  rest rest hr := Nat.lt_of_lt_of_le (h.rest rest hr) hs

theorem SoundMembers.cons {size more : Nat} {d : Draft}
    {read : List (Option String × Draft) × (Stop ⊕ List Char)} (key : Option String)
    (hd : d.Sound bound) (hs : more < size) (h : SoundMembers bound more read) :
    SoundMembers bound size ((key, d) :: read.1, read.2) where
  members := List.forall_mem_cons.mpr ⟨hd, h.members⟩
  rest rest hr := Nat.lt_trans (h.rest rest hr) hs

theorem SoundMembers.last {d : Draft} (key : Option String) (hd : d.Sound bound) (size : Nat)
    (s : Stop) : SoundMembers bound size ([(key, d)], .inl s) where
  members := List.forall_mem_singleton.mpr hd
  rest := nofun

mutual
theorem sound_readValue : (fuel room : Nat) → (cs : List Char) → cs.length ≤ bound →
    (readValue fuel room cs).Sound bound cs.length
  | 0, _, _, _ => by
    rw [readValue]
    exact .halt _ _
  | fuel + 1, room, cs, hb => by
    have hle := length_skipSpace cs
    rw [readValue]
    split
    · next rest hcs =>
      rw [hcs, List.length_cons] at hle
      obtain ⟨hitems, hcount, hrest⟩ := sound_readItems fuel (room - 1) true rest (by omega)
      dsimp only
      split
      · exact ⟨.nested (.arr (by omega) hitems), nofun⟩
      · next more heq =>
        refine ⟨.nested (.arr (by omega) hitems), fun rest hr => ?_⟩
        cases hr
        have := hrest _ heq
        omega
    · next rest hcs =>
      rw [hcs, List.length_cons] at hle
      obtain ⟨hmembers, hrest⟩ := sound_readMembers fuel (room - 1) true rest (by omega)
      dsimp only
      split
      · exact ⟨.nested (.obj hmembers), nofun⟩
      · next more heq =>
        refine ⟨.nested (.obj hmembers), fun rest hr => ?_⟩
        cases hr
        have := hrest _ heq
        omega
    · exact (sound_readScalar _).mono hle

theorem sound_readItems : (fuel room : Nat) → (first : Bool) → (cs : List Char) →
    cs.length ≤ bound → SoundItems bound cs.length cs.length (readItems fuel room first cs)
  | 0, _, _, _, _ => by
    rw [readItems]
    exact .stop _ _ _
  | fuel + 1, room, first, cs, hb => by
    have hle := length_skipSpace cs
    rw [readItems]
    split
    · exact .stop _ _ _
    · next rest hcs =>
      rw [hcs, List.length_cons] at hle
      refine ⟨nofun, Nat.zero_le _, fun more hmore => ?_⟩
      cases hmore
      omega
    · next rest hcs =>
      rw [hcs, List.length_cons] at hle
      split
      · refine (sound_readItem fuel room (',' :: rest) ?_).mono ?_ ?_ <;>
          rw [List.length_cons] <;> omega
      · have hrest := length_skipSpace rest
        split
        · exact .stop _ _ _
        · exact (sound_readItem fuel room (skipSpace rest) (by omega)).mono (by omega) (by omega)
    · next hnil _ _ =>
      have hpos : 0 < (skipSpace cs).length := List.length_pos_iff.mpr hnil
      split
      · exact (sound_readItem fuel room (skipSpace cs) (by omega)).mono (by omega) hle
      · exact .stop _ _ _

theorem sound_readItem : (fuel room : Nat) → (cs : List Char) →
    cs.length ≤ bound → SoundItems bound (max 1 cs.length) cs.length (readItem fuel room cs)
  | 0, _, _, _ => by
    rw [readItem]
    exact .stop _ _ _
  | fuel + 1, room, cs, hb => by
    have hv := sound_readValue fuel room cs hb
    rw [readItem]
    split
    · exact (SoundItems.last (.stopped _) _ _).mono (Nat.le_max_left _ _) (Nat.le_refl _)
    · next heq =>
      rw [heq] at hv
      exact (SoundItems.last hv.draft _ _).mono (Nat.le_max_left _ _) (Nat.le_refl _)
    · next rest heq =>
      rw [heq] at hv
      have hrest := hv.rest rest rfl
      exact ((sound_readItems fuel room false rest (by omega)).cons hv.draft hrest).mono
        (Nat.le_max_right _ _) (Nat.le_refl _)

theorem sound_readMembers : (fuel room : Nat) → (first : Bool) → (cs : List Char) →
    cs.length ≤ bound → SoundMembers bound cs.length (readMembers fuel room first cs)
  | 0, _, _, _, _ => by
    rw [readMembers]
    exact .stop _ _
  | fuel + 1, room, first, cs, hb => by
    have hle := length_skipSpace cs
    rw [readMembers]
    split
    · exact .stop _ _
    · next rest hcs =>
      rw [hcs, List.length_cons] at hle
      refine ⟨nofun, fun more hmore => ?_⟩
      cases hmore
      omega
    · next rest hcs =>
      rw [hcs, List.length_cons] at hle
      have hrest := length_skipSpace rest
      split
      · exact .stop _ _
      · split
        · exact .stop _ _
        · next more hmore =>
          rw [hmore, List.length_cons] at hrest
          exact (sound_readMember fuel room false more (by omega)).mono (by omega)
        · exact .stop _ _
    · next rest hcs =>
      rw [hcs, List.length_cons] at hle
      split
      · exact (sound_readMember fuel room true rest (by omega)).mono (by omega)
      · exact .stop _ _
    · exact .stop _ _

theorem sound_readMember : (fuel room : Nat) → (first : Bool) → (cs : List Char) →
    cs.length ≤ bound → SoundMembers bound cs.length (readMember fuel room first cs)
  | 0, _, _, _, _ => by
    rw [readMember]
    exact .stop _ _
  | fuel + 1, room, first, cs, hb => by
    rw [readMember]
    split
    · exact .stop _ _
    · next key rest htext =>
      have htext := length_of_readText htext
      have hskip := length_skipSpace rest
      split
      · next value hvalue =>
        rw [hvalue, List.length_cons] at hskip
        have hv := sound_readValue fuel room value (by omega)
        split
        · next heq =>
          rw [heq] at hv
          exact .last key hv.draft _ _
        · next more heq =>
          rw [heq] at hv
          have hmore := hv.rest more rfl
          exact (sound_readMembers fuel room false more (by omega)).cons key hv.draft (by omega)
      · exact .last key (.stopped _) _ _
      · exact .last key (.stopped _) _ _
end

/-- The draft of a text is sound. -/
theorem sound_reading (text : String) : (Reading.ofText text).draft.Sound text.length := by
  have hlength : text.toList.length ≤ text.length := Nat.le_of_eq String.length_toList
  have h := sound_readValue (3 * text.toList.length + 3) nestingLimit text.toList hlength
  unfold Reading.ofText
  dsimp only
  split
  · next heq =>
    rw [heq] at h
    exact h.draft
  · next heq =>
    rw [heq] at h
    exact h.draft

end TypedApi.Json
