import TypedApi.Json.Decoder
import TypedApi.Json.Fields
import TypedApi.Proofs.Json.Reading

/-! Decoding what was encoded.

`Recovers decode encode a` says that `a` comes back when it is encoded and decoded. There is
one rule for each decoder of values, lists and tables; records have rules of their own. -/
namespace TypedApi.Json

def Recovers {α : Type} (decode : Decoder α) (encode : α → Json) (a : α) : Prop :=
  decode (.ofValue (encode a)) = .ok a

namespace Recovers

variable {α : Type} {decode : Decoder α} {encode : α → Json}

theorem text (s : String) : Recovers .text .str s := rfl

theorem bool (b : Bool) : Recovers .bool .bool b := rfl

theorem number (n : Number) : Recovers .number .num n := rfl

theorem value {v : Json} (hv : v.Readable) : Recovers .value id v := Draft.value_ofValue v hv

theorem nat {n : Nat} (h : n < 2 ^ 64) : Recovers .nat .ofNat n := by
  have hfit : (0 ≤ (n : Int) && (n : Int).toNat ≤ 0xFFFFFFFFFFFFFFFF) = true := by
    simp only [Bool.and_eq_true, decide_eq_true_eq]
    omega
  show (if (0 ≤ (n : Int) && (n : Int).toNat ≤ 0xFFFFFFFFFFFFFFFF) = true then _ else _) = _
  rw [if_pos hfit]
  rfl

theorem choice {named? : String → Option α} {name : α → String} {a : α} (h : named? (name a) = some a)
    (buffered : Bool) : Recovers (.choice buffered named?) (fun a => .str (name a)) a := by
  show Decoder.choice.found named? (name a) = _
  rw [Decoder.choice.found, h]

/-- A value that is there is told from one that is not by not being null. -/
theorem option {a : α} (h : Recovers decode encode a) (hn : encode a ≠ .null) :
    Decoder.option decode (.ofValue (encode a)) = .ok (some a) := by
  have hmap : (decode (.ofValue (encode a))).map some = .ok (some a) := by rw [h]; rfl
  cases he : encode a with
  | null => exact absurd he hn
  | _ => rw [← hmap, he]; rfl

theorem list {xs : List α} (h : ∀ x ∈ xs, Recovers decode encode x) :
    Recovers (.list decode) (fun xs => .arr (xs.map encode)) xs := by
  have hmap : (xs.map fun x => Draft.ofValue (encode x)).mapM decode = .ok xs := by
    induction xs with
    | nil => rfl
    | cons x xs ih =>
      rw [List.map_cons, List.mapM_cons, h x List.mem_cons_self,
        ih fun y hy => h y (List.mem_cons_of_mem _ hy)]
      rfl
  show (do
    let values ← (Draft.ofItems (xs.map encode)).mapM decode
    Draft.ended none
    return values) = Except.ok xs
  rw [Draft.ofItems_eq, List.map_map]
  show ((xs.map fun x => Draft.ofValue (encode x)).mapM decode >>= _) = _
  rw [hmap]
  rfl

theorem texts (ss : List String) : Recovers (.list .text) Fields.texts ss :=
  list fun s _ => text s

theorem values {vs : List Json} (h : ∀ v ∈ vs, v.Readable) : Recovers (.list .value) .arr vs := by
  have hvalue : ∀ v ∈ vs, Recovers .value id v := fun v hv => value (h v hv)
  have hlist := list hvalue
  rwa [Recovers, List.map_id] at hlist

/-- A table recovers when its values do and no key comes twice. -/
theorem map {entries : List (String × α)} (hd : (entries.map (·.1)).Nodup)
    (h : ∀ e ∈ entries, Recovers decode encode e.2) :
    Recovers (.map decode) (fun entries => .obj (entries.map fun e => (e.1, encode e.2))) entries := by
  have hentries : Decoder.entries decode
      (entries.map fun e => (some e.1, Draft.ofValue (encode e.2))) = .ok entries := by
    clear hd
    induction entries with
    | nil => rfl
    | cons e entries ih =>
      rw [List.map_cons, Decoder.entries, h e List.mem_cons_self,
        ih fun d hd => h d (List.mem_cons_of_mem _ hd)]
      rfl
  show (do
    let values ← Decoder.entries decode (Draft.ofMembers (entries.map fun e => (e.1, encode e.2)))
    Draft.ended none
    return table values) = Except.ok entries
  rw [Draft.ofMembers_eq, List.map_map]
  show (Decoder.entries decode
    (entries.map fun e => (some e.1, Draft.ofValue (encode e.2))) >>= _) = _
  rw [hentries]
  show Except.ok (table entries) = _
  rw [table_of_nodup hd]

end Recovers

/-! ### Whole texts -/

variable {α : Type} {v : Json}

/-- The indented text of a value is decoded as the draft of that value, containers below the
limit marked. -/
theorem run_within (decode : Decoder α) (hv : v.Readable) :
    decode.run v.pretty = decode (.within nestingLimit v) := by
  rw [Decoder.run, reading_within hv]
  show (decode (.within nestingLimit v) >>= fun a => .ok a) = _
  cases decode (.within nestingLimit v) <;> rfl

theorem run_pretty (decode : Decoder α) (hv : v.Readable) (hd : v.depth ≤ nestingLimit)
    (hn : ∀ n ∈ v.numbers, n.ReadsBack) : decode.run v.pretty = decode (.ofValue v) := by
  rw [run_within decode hv, Draft.within_eq_ofValue v hd hn]

end TypedApi.Json
