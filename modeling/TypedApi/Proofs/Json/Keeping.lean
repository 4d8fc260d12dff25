import TypedApi.Json.Decoder
import TypedApi.Proofs.Json.Reading
import TypedApi.Proofs.Json.Soundness

/-! What decoders give for sound drafts.

`Keeps` says of a decoder that what it gives for sound drafts has a property. There is one
rule for each decoder of the library, and one for records: what no member takes away from the
fresh record, the finished one has (`Layout.Keeps`). -/
namespace TypedApi.Json

/-- What the decoder gives for sound drafts has the property. -/
def Keeps {α : Type} (bound : Nat) (decode : Decoder α) (P : α → Prop) : Prop :=
  ∀ d a, d.Sound bound → decode d = .ok a → P a

/-- A computation that goes on with a value gave one. -/
theorem ok_of_bind {ε α β : Type} {c : Except ε α} {f : α → Except ε β} {b : β}
    (h : c >>= f = .ok b) : ∃ a, c = .ok a ∧ f a = .ok b := by
  cases c with
  | error e => cases h
  | ok a => exact ⟨a, rfl, h⟩

theorem ok_of_map {ε α β : Type} {c : Except ε α} {f : α → β} {b : β}
    (h : c.map f = .ok b) : ∃ a, c = .ok a ∧ f a = b := by
  cases c with
  | error e => cases h
  | ok a => exact ⟨a, rfl, Except.ok.inj h⟩

theorem ok_of_mapError {ε ε' α : Type} {c : Except ε α} {f : ε → ε'} {a : α}
    (h : c.mapError f = .ok a) : c = .ok a := by
  cases c with
  | error e => cases h
  | ok b =>
    cases h
    rfl

/-- What a list computation gives comes from the items of the list, one for each. -/
theorem mapM_ok {ε α β : Type} {f : α → Except ε β} {xs : List α} {ys : List β}
    (h : xs.mapM f = .ok ys) : ys.length = xs.length ∧ ∀ y ∈ ys, ∃ x ∈ xs, f x = .ok y := by
  induction xs generalizing ys with
  | nil =>
    cases h
    exact ⟨rfl, nofun⟩
  | cons x xs ih =>
    rw [List.mapM_cons] at h
    obtain ⟨y, hy, h⟩ := ok_of_bind h
    obtain ⟨more, hmore, h⟩ := ok_of_bind h
    cases h
    obtain ⟨hlength, hfrom⟩ := ih hmore
    refine ⟨congrArg Nat.succ hlength, List.forall_mem_cons.mpr ⟨⟨x, List.mem_cons_self, hy⟩, ?_⟩⟩
    intro z hz
    obtain ⟨w, hw, hwz⟩ := hfrom z hz
    exact ⟨w, List.mem_cons_of_mem _ hw, hwz⟩

mutual
/-- The value of a sound draft is readable. -/
theorem readable_of_value {bound : Nat} : (d : Draft) → {v : Json} → d.Sound bound →
    d.value = .ok v → v.Readable
  | .null, _, _, h => by
    cases h
    exact .null
  | .bool b, _, _, h => by
    cases h
    exact .bool b
  | .num n, _, hd, h => by
    cases h
    cases hd with
    | num hn => exact .num hn
  | .str s, _, _, h => by
    cases h
    exact .str s
  | .unfit, _, _, h => by cases h
  | .stopped _, _, _, h => by cases h
  | .deep _, _, _, h => by cases h
  | .arr xs ending, _, hd, h => by
    rw [Draft.value] at h
    obtain ⟨items, hitems, h⟩ := ok_of_bind h
    obtain ⟨-, -, h⟩ := ok_of_bind h
    cases h
    exact .arr (readable_of_values xs hd.items hitems)
  | .obj ms ending, _, hd, h => by
    rw [Draft.value] at h
    obtain ⟨members, hmembers, h⟩ := ok_of_bind h
    obtain ⟨-, -, h⟩ := ok_of_bind h
    cases h
    refine .obj (nodup_keys_table _) fun m hm => ?_
    exact readable_of_memberValues ms hd.members hmembers m (mem_of_mem_table hm)

theorem readable_of_values {bound : Nat} : (xs : List Draft) → {vs : List Json} →
    (∀ x ∈ xs, x.Sound bound) → Draft.values xs = .ok vs → ∀ v ∈ vs, v.Readable
  | [], _, _, h => by
    cases h
    nofun
  | x :: xs, _, hd, h => by
    rw [Draft.values] at h
    obtain ⟨v, hv, h⟩ := ok_of_bind h
    obtain ⟨vs, hvs, h⟩ := ok_of_bind h
    cases h
    exact List.forall_mem_cons.mpr ⟨readable_of_value x (hd x List.mem_cons_self) hv,
      readable_of_values xs (fun y hy => hd y (List.mem_cons_of_mem _ hy)) hvs⟩

theorem readable_of_memberValues {bound : Nat} : (ms : List (Option String × Draft)) →
    {vs : List (String × Json)} → (∀ m ∈ ms, m.2.Sound bound) → Draft.memberValues ms = .ok vs →
    ∀ m ∈ vs, m.2.Readable
  | [], _, _, h => by
    cases h
    nofun
  | (none, _) :: _, _, _, h => by cases h
  | (some k, x) :: ms, _, hd, h => by
    rw [Draft.memberValues] at h
    obtain ⟨v, hv, h⟩ := ok_of_bind h
    obtain ⟨vs, hvs, h⟩ := ok_of_bind h
    cases h
    exact List.forall_mem_cons.mpr ⟨readable_of_value x (hd (some k, x) List.mem_cons_self) hv,
      readable_of_memberValues ms (fun m hm => hd m (List.mem_cons_of_mem _ hm)) hvs⟩
end

/-- Only null is read as null. -/
theorem null_of_value {d : Draft} (h : d.value = .ok .null) : d = .null := by
  cases d with
  | null => rfl
  | arr xs ending =>
    rw [Draft.value] at h
    obtain ⟨items, -, h⟩ := ok_of_bind h
    obtain ⟨-, -, h⟩ := ok_of_bind h
    cases h
  | obj ms ending =>
    rw [Draft.value] at h
    obtain ⟨members, -, h⟩ := ok_of_bind h
    obtain ⟨-, -, h⟩ := ok_of_bind h
    cases h
  | _ => cases h

theorem ne_null_of_value {d : Draft} {v : Json} (hd : d ≠ .null) (h : d.value = .ok v) : v ≠ .null :=
  fun hnull => hd (null_of_value (hnull ▸ h))

/-- What may be absent was decoded from something else than null, if it is there. -/
theorem given_of_option {α : Type} {decode : Decoder α} {d : Draft} {o : Option α} {a : α}
    (h : Decoder.option decode d = .ok o) (ha : a ∈ o) : d ≠ .null ∧ decode d = .ok a := by
  unfold Decoder.option at h
  split at h
  · cases h
    cases ha
  · split at h
    · cases h
    · obtain ⟨b, hb, rfl⟩ := ok_of_map h
      cases ha
      exact ⟨nofun, hb⟩
  · next hnull _ =>
    obtain ⟨b, hb, rfl⟩ := ok_of_map h
    cases ha
    exact ⟨hnull, hb⟩

theorem items_of_sound {bound : Nat} {d : Draft} {xs : List Draft} {ending : Option Stop}
    (hd : d.Sound bound) (h : d.items = .ok (xs, ending)) :
    (∀ x ∈ xs, x.Sound bound) ∧ xs.length ≤ bound := by
  unfold Draft.items at h
  split at h
  · cases h
    exact ⟨hd.items, hd.length⟩
  · cases h
  · cases h

theorem members_of_sound {bound : Nat} {d : Draft} {ms : List (Option String × Draft)}
    {ending : Option Stop} (hd : d.Sound bound) (h : d.members = .ok (ms, ending)) :
    ∀ m ∈ ms, m.2.Sound bound := by
  unfold Draft.members at h
  split at h
  · cases h
    exact hd.members
  · cases h
  · cases h

/-- What a table's entries are decoded to comes from members, each from one. -/
theorem entries_ok {α : Type} {decode : Decoder α} {ms : List (Option String × Draft)}
    {es : List (String × α)} (h : Decoder.entries decode ms = .ok es) :
    ∀ e ∈ es, ∃ m ∈ ms, decode m.2 = .ok e.2 := by
  induction ms generalizing es with
  | nil =>
    cases h
    nofun
  | cons m ms ih =>
    obtain ⟨key, d⟩ := m
    cases key with
    | none => cases h
    | some k =>
      rw [Decoder.entries] at h
      obtain ⟨a, ha, h⟩ := ok_of_bind h
      obtain ⟨more, hmore, h⟩ := ok_of_bind h
      cases h
      refine List.forall_mem_cons.mpr ⟨⟨_, List.mem_cons_self, ha⟩, fun e he => ?_⟩
      obtain ⟨m, hm, hme⟩ := ih hmore e he
      exact ⟨m, List.mem_cons_of_mem _ hm, hme⟩

section
variable {α : Type} {decode : Decoder α}

/-- What a list is decoded to comes from its items, each from one. -/
theorem list_ok {d : Draft} {as : List α} (h : Decoder.list decode d = .ok as) :
    ∃ xs ending, d.items = .ok (xs, ending) ∧ as.length = xs.length ∧
      ∀ a ∈ as, ∃ x ∈ xs, decode x = .ok a := by
  unfold Decoder.list at h
  obtain ⟨⟨xs, ending⟩, hxs, h⟩ := ok_of_bind h
  obtain ⟨values, hvalues, h⟩ := ok_of_bind h
  obtain ⟨-, -, h⟩ := ok_of_bind h
  cases h
  obtain ⟨hlength, hfrom⟩ := mapM_ok hvalues
  exact ⟨xs, ending, hxs, hlength, hfrom⟩

/-- What a table is decoded to comes from its members, and no key comes twice. -/
theorem map_ok {d : Draft} {es : List (String × α)} (h : Decoder.map decode d = .ok es) :
    ∃ ms ending, d.members = .ok (ms, ending) ∧ (es.map (·.1)).Nodup ∧
      ∀ e ∈ es, ∃ m ∈ ms, decode m.2 = .ok e.2 := by
  unfold Decoder.map at h
  obtain ⟨⟨ms, ending⟩, hms, h⟩ := ok_of_bind h
  obtain ⟨values, hvalues, h⟩ := ok_of_bind h
  obtain ⟨-, -, h⟩ := ok_of_bind h
  cases h
  exact ⟨ms, ending, hms, nodup_keys_table values,
    fun e he => entries_ok hvalues e (mem_of_mem_table he)⟩

theorem draft_of_run {text : String} {a : α} (h : decode.run text = .ok a) :
    decode (Reading.ofText text).draft = .ok a := by
  unfold Decoder.run at h
  obtain ⟨b, hb, h⟩ := ok_of_bind h
  split at h
  · cases h
  · cases h
    exact hb

end

namespace Keeps

variable {α : Type} {bound : Nat} {decode : Decoder α} {P : α → Prop}

theorem imp {Q : α → Prop} (h : Keeps bound decode P) (hpq : ∀ a, P a → Q a) :
    Keeps bound decode Q :=
  fun d a hd ha => hpq a (h d a hd ha)

theorem trivial : Keeps bound decode fun _ => True := fun _ _ _ _ => True.intro

theorem value : Keeps bound .value Readable := fun d _ hd h => readable_of_value d hd h

theorem number : Keeps bound .number Number.Readable := by
  intro d n hd h
  cases hd with
  | num hn =>
    cases h
    exact hn
  | _ => cases h

theorem natUpTo (limit : Nat) : Keeps bound (.natUpTo limit) (· ≤ limit) := by
  intro d n _ h
  unfold Decoder.natUpTo at h
  split at h
  · split at h
    · next hn =>
      simp only [Bool.and_eq_true, decide_eq_true_eq] at hn
      cases h
      exact hn.2
    · cases h
  · cases h

theorem nat : Keeps bound .nat (· < 2 ^ 64) := (natUpTo _).imp fun _ hn => by omega

theorem option (h : Keeps bound decode P) : Keeps bound (.option decode) fun o => ∀ a ∈ o, P a :=
  fun d _ hd ho a ha => h d a hd (given_of_option ho ha).2

/-- A value that may be absent is not null. -/
theorem given : Keeps bound (.option .value) fun o => ∀ v ∈ o, v.Given := by
  intro d o hd ho v hv
  obtain ⟨hnull, hvalue⟩ := given_of_option ho hv
  exact ⟨value d v hd hvalue, ne_null_of_value hnull hvalue⟩

theorem list (h : Keeps bound decode P) :
    Keeps bound (.list decode) fun as => (∀ a ∈ as, P a) ∧ as.length ≤ bound := by
  intro d as hd has
  obtain ⟨xs, ending, hxs, hsame, hfrom⟩ := list_ok has
  obtain ⟨hitems, hlength⟩ := items_of_sound hd hxs
  refine ⟨fun a ha => ?_, hsame ▸ hlength⟩
  obtain ⟨x, hx, hxa⟩ := hfrom a ha
  exact h x a (hitems x hx) hxa

theorem map (h : Keeps bound decode P) :
    Keeps bound (.map decode) fun es => (es.map (·.1)).Nodup ∧ ∀ e ∈ es, P e.2 := by
  intro d es hd hes
  obtain ⟨ms, ending, hms, hkeys, hfrom⟩ := map_ok hes
  refine ⟨hkeys, fun e he => ?_⟩
  obtain ⟨m, hm, hme⟩ := hfrom e he
  exact h m.2 e.2 (members_of_sound hd hms m hm) hme

end Keeps

/-! ### Records -/

/-- A property of records that no member of an object takes away, `D` being what is known of the
members. -/
theorem Layout.of_run {α : Type} {layout : Layout α} {P : α → Prop} {D : Draft → Prop}
    (put : ∀ a key d b, P a → D d → layout.put a key d = .ok b → P b)
    (other : ∀ a key d b, P a → D d → layout.other a key d = .ok b → P b)
    {ms : List (Option String × Draft)} (hms : ∀ m ∈ ms, D m.2) {seen : List String} {a : α}
    {end_ : α × List String} (ha : P a) (hrun : layout.run seen a ms = .ok end_) : P end_.1 := by
  induction ms generalizing seen a with
  | nil =>
    cases hrun
    exact ha
  | cons m ms ih =>
    obtain ⟨key, d⟩ := m
    cases key with
    | none => cases hrun
    | some k =>
      obtain ⟨hd, hrest⟩ := List.forall_mem_cons.mp hms
      rw [Layout.run] at hrun
      split at hrun
      · split at hrun
        · cases hrun
        · obtain ⟨b, hb, hrun⟩ := ok_of_bind hrun
          exact ih hrest (put a k d b ha hd hb) hrun
      · obtain ⟨b, hb, hrun⟩ := ok_of_bind hrun
        exact ih hrest (other a k d b ha hd hb) hrun

/-- The fresh record has the property and no member of a sound object takes it away. -/
structure Layout.Keeps {α : Type} (bound : Nat) (layout : Layout α) (P : α → Prop) : Prop where
  init : P layout.init
  put : ∀ a key d b, P a → d.Sound bound → layout.put a key d = .ok b → P b
  other : ∀ a key d b, P a → d.Sound bound → layout.other a key d = .ok b → P b

namespace Layout.Keeps

variable {α : Type} {bound : Nat} {layout : Layout α} {P : α → Prop}

theorem runList (h : layout.Keeps bound P) {names : List String} {ds : List Draft}
    (hds : ∀ d ∈ ds, d.Sound bound) {ending : Option Stop} {a b : α}
    (ha : P a) (hrun : layout.runList a ending names ds = .ok b) : P b := by
  induction names generalizing ds a with
  | nil =>
    cases ds with
    | nil =>
      obtain ⟨-, -, hrun⟩ := ok_of_bind hrun
      cases hrun
      exact ha
    | cons d ds => cases hrun
  | cons name names ih =>
    cases ds with
    | nil =>
      obtain ⟨-, -, hrun⟩ := ok_of_bind hrun
      split at hrun
      · cases hrun
      · cases hrun
        exact ha
    | cons d ds =>
      obtain ⟨hd, hrest⟩ := List.forall_mem_cons.mp hds
      obtain ⟨b, hb, hrun⟩ := ok_of_bind hrun
      exact ih hrest (h.put a name d b ha hd hb) hrun

theorem finish (h : layout.Keeps bound P) {ms : List (Option String × Draft)}
    (hms : ∀ m ∈ ms, m.2.Sound bound) {ending : Option Stop} {b : α}
    (hb : layout.finish (ms, ending) = .ok b) : P b := by
  unfold Layout.finish at hb
  obtain ⟨⟨a, seen⟩, hrun, hb⟩ := ok_of_bind hb
  obtain ⟨-, -, hb⟩ := ok_of_bind hb
  split at hb
  · cases hb
    exact Layout.of_run h.put h.other hms h.init hrun
  · cases hb

theorem decode (h : layout.Keeps bound P) : Json.Keeps bound layout.decode P := by
  intro d a hd ha
  unfold Layout.decode at ha
  split at ha
  · exact h.finish hd.members ha
  · exact h.runList hd.items h.init ha
  · cases ha
  · cases ha

theorem decodeOpen (h : layout.Keeps bound P) : Json.Keeps bound layout.decodeOpen P := by
  intro d a hd ha
  unfold Layout.decodeOpen at ha
  obtain ⟨⟨ms, ending⟩, hms, ha⟩ := ok_of_bind ha
  exact h.finish (members_of_sound hd hms) ha

end Layout.Keeps

/-- A record that ignores the members it does not know. -/
theorem Layout.Keeps.ignoring {α : Type} {bound : Nat} {layout : Layout α} {P : α → Prop}
    (init : P layout.init)
    (put : ∀ a key d b, P a → d.Sound bound → layout.put a key d = .ok b → P b)
    (hother : layout.other = (fun a _ d => do d.skip; return a) := by rfl) :
    layout.Keeps bound P where
  init := init
  put := put
  other a key d b ha _ hb := by
    rw [hother] at hb
    obtain ⟨-, -, hb⟩ := ok_of_bind hb
    cases hb
    exact ha

/-- What a text decodes to, its sound draft being as long as the text. -/
theorem Keeps.run {α : Type} {decode : Decoder α} {P : α → Prop} {text : String} {a : α}
    (h : Keeps text.length decode P) (ha : decode.run text = .ok a) : P a :=
  h _ _ (sound_reading text) (draft_of_run ha)

end TypedApi.Json
