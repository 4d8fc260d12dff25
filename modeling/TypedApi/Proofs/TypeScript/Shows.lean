import TypedApi.Proofs.TypeScript.Marked

/-! The names that a text mentions.

Some marks of a text are foreign: they are words of the language or of the runtime. `Shows` says
which names the other marks are, whatever stands behind the text, and so it is followed through the
ways in which texts are put together. A name does not depend on how often it is written, so nothing
is lost where equal parts are written once. -/
namespace TypedApi.TypeScript

/-! ### Mute texts -/

variable {b : Before} {dot : Bool} {x y : String} {rest : List Char}

theorem marked_silent {xs : List Char} (h : ∀ c ∈ xs, Silent c) (b : Before) :
    marked b (xs ++ rest) = marked (b.past xs) rest := by
  induction xs generalizing b with
  | nil => rfl
  | cons c cs ih =>
    obtain ⟨hc, hcs⟩ := List.forall_mem_cons.mp h
    rw [List.cons_append, marked_mark hc.1, ih hcs, Before.past_append, List.singleton_append]

/-- A mute text has no marks, if its last word ends with it. -/
theorem marked_mute (xs : List Char) (b : Before) (hmute : isMute b.quoting xs = true)
    (hends : ∀ c ∈ xs.getLast?, isIdentifierPart c = true → Ends rest) :
    marked b (xs ++ rest) = marked (b.past xs) rest := by
  induction xs using wordwise generalizing b with
  | nil => rfl
  | mark c cs hmark ih =>
    rw [isMute, Bool.and_eq_true] at hmute
    have hmore := ih (b.past [c]) hmute.2 fun d hd => hends d (mem_getLast?_append [c] hd)
    rw [List.cons_append, marked_mark hmark, hmore, Before.past_append]
    rfl
  | word w more hw hstop ih =>
    have hinside : b.quoting.isInside = true := by
      cases w with
      | nil => cases hw
      | cons c cs =>
        rw [isIdentifier, Bool.and_eq_true] at hw
        rw [List.cons_append, isMute, Bool.and_eq_true, hw.1] at hmute
        simpa using hmute.1
    rw [isMute_append, Bool.and_eq_true] at hmute
    have hmore := ih (b.past w) hmute.2 fun d hd => hends d (mem_getLast?_append w hd)
    rw [List.append_assoc, marked_word hw (ends_append hw hstop hends),
      isReference_of_isInside hinside, if_neg Bool.false_ne_true, List.nil_append, hmore,
      Before.past_append]

theorem marked_of_open (hq : b.quoting = {}) (hlast : b.last ≠ some '.') (cs : List Char) :
    marked b cs = marked {} cs :=
  markedFrom_congr hq ⟨fun h => absurd h hlast, fun h => by cases h⟩ _

/-- Where no word goes on, a dot does not matter. -/
theorem marked_of_ends (hq : b.quoting = {}) (hr : Ends rest) : marked b rest = marked {} rest := by
  cases rest with
  | nil => rfl
  | cons c cs =>
    have hstart := isIdentifierStart_of_part (hr c rfl)
    have hquoting : (b.past [c]).quoting = (Before.past {} [c]).quoting :=
      congrArg (Quoting.after · [c]) hq
    rw [marked_mark hstart, marked_mark hstart]
    exact markedFrom_congr hquoting Iff.rfl _

/-- Marks stand before a type, which may begin behind them. -/
def Leading (x : String) : Prop := Mute x ∧ opens x.toList = true

instance (x : String) : Decidable (Leading x) := inferInstanceAs (Decidable (_ ∧ _))

theorem leading_quoted (s : String) : Leading (quoted s) := ⟨mute_quoted s, (opening_quoted s).2⟩

/-- Marks stand behind a type. -/
def Trailing (x : String) : Prop := Mute x ∧ cuts x.toList = true

instance (x : String) : Decidable (Trailing x) := inferInstanceAs (Decidable (_ ∧ _))

theorem marked_leading (h : Leading x) (hq : b.quoting = {}) (rest : List Char) :
    marked b (x.toList ++ rest) = marked {} rest := by
  obtain ⟨⟨hmute, hquoting⟩, hopens⟩ := h
  rw [opens, Option.any_eq_true] at hopens
  obtain ⟨c, hc, hpart⟩ := hopens
  rw [Bool.and_eq_true, Bool.not_eq_true', bne_iff_ne] at hpart
  rw [marked_mute _ _ (by rw [hq]; exact hmute) fun d hd hpart' => ?_,
    marked_of_open (by rw [Before.past, hq]; exact hquoting) ?_]
  · rw [Before.past, hc]
    exact fun heq => hpart.2 (Option.some.inj heq)
  · rw [hc] at hd
    cases hd
    rw [hpart.1] at hpart'
    cases hpart'

/-! ### What a text shows -/

/-- The marks that are not foreign are the given names, none of which is applied to others. -/
structure Tells (foreign : String × Bool → Prop) (ms : List (String × Bool))
    (ns : String → Prop) : Prop where
  sound : ∀ m ∈ ms, foreign m ∨ m.2 = false ∧ ns m.1
  complete : ∀ n, ns n → (n, false) ∈ ms ∧ ¬ foreign (n, false)

/-- The marks of `cs` behind `b` tell the given names, up to those of the rest. -/
def TellsUpTo (foreign : String × Bool → Prop) (b : Before) (cs rest : List Char)
    (ns : String → Prop) : Prop :=
  ∃ ms, marked b cs = ms ++ marked {} rest ∧ Tells foreign ms ns

/-- A text mentions the given names, whatever neutral text follows, also behind a dot if `dot` is
set. -/
def Shows (foreign : String × Bool → Prop) (dot : Bool) (x : String) (ns : String → Prop) : Prop :=
  ∀ rest, Neutral rest → TellsUpTo foreign (.start dot) (x.toList ++ rest) rest ns

/-- The names that a text mentions. -/
def mentions (foreign : String × Bool → Prop) (x : String) (n : String) : Prop :=
  (n, false) ∈ marked {} x.toList ∧ ¬ foreign (n, false)

variable {foreign : String × Bool → Prop} {ms ms' : List (String × Bool)} {ns ns' : String → Prop}

theorem Tells.iff (h : Tells foreign ms ns) (n : String) :
    ns n ↔ (n, false) ∈ ms ∧ ¬ foreign (n, false) :=
  ⟨h.complete n, fun ⟨hm, hn⟩ => (h.sound _ hm).elim (absurd · hn) (·.2)⟩

theorem Tells.nil : Tells foreign [] fun _ => False := ⟨nofun, nofun⟩

theorem Tells.append (h : Tells foreign ms ns) (h' : Tells foreign ms' ns') :
    Tells foreign (ms ++ ms') fun n => ns n ∨ ns' n where
  sound m hm := by
    rcases List.mem_append.mp hm with hm | hm
    · exact (h.sound m hm).imp_right fun hn => ⟨hn.1, .inl hn.2⟩
    · exact (h'.sound m hm).imp_right fun hn => ⟨hn.1, .inr hn.2⟩
  complete n hn := by
    rcases hn with hn | hn
    · exact (h.complete n hn).imp_left (List.mem_append_left _)
    · exact (h'.complete n hn).imp_left (List.mem_append_right _)

/-- A foreign word in front makes no difference. -/
theorem TellsUpTo.behind_word {w : String} {tail : List Char} (hw : isIdentifier w.toList = true)
    (hq : b.quoting = {}) (hends : Ends tail)
    (hforeign : isReference b (pieces tail) = true → foreign (w, isApplied (pieces tail)))
    (h : TellsUpTo foreign {} tail rest ns) :
    TellsUpTo foreign b (w.toList ++ tail) rest ns := by
  obtain ⟨ms, hms, hsound, hcomplete⟩ := h
  have hquoting : (b.past w.toList).quoting = {} := by
    rw [Before.past, hq]
    exact Quoting.after_word hw
  rw [TellsUpTo, marked_word hw hends, String.ofList_toList, marked_of_ends hquoting hends, hms,
    ← List.append_assoc]
  refine ⟨_, rfl, fun m hm => ?_, fun n hn => ?_⟩
  · rcases List.mem_append.mp hm with hm | hm
    · split at hm
      · next href => exact .inl (List.mem_singleton.mp hm ▸ hforeign href)
      · cases hm
    · exact hsound m hm
  · exact (hcomplete n hn).imp_left (List.mem_append_right _)

theorem Shows.congr (h : Shows foreign dot x ns) (hns : ∀ n, ns n ↔ ns' n) :
    Shows foreign dot x ns' :=
  (funext fun n => propext (hns n) : ns = ns') ▸ h

/-- What a text shows can be read from its marks. -/
theorem Shows.tells (h : Shows foreign false x ns) : Tells foreign (marked {} x.toList) ns := by
  obtain ⟨ms, hms, htells⟩ := h [] neutral_nil
  have hmarked : marked {} x.toList = ms := by
    rw [List.append_nil] at hms
    exact hms.trans (List.append_nil ms)
  exact hmarked ▸ htells

theorem Shows.mentions_iff (h : Shows foreign false x ns) (n : String) :
    mentions foreign x n ↔ ns n :=
  (h.tells.iff n).symm

theorem Shows.mentions (h : Shows foreign dot x ns) (hplain : Shows foreign false x ns) :
    Shows foreign dot x (mentions foreign x) :=
  h.congr fun n => (hplain.mentions_iff n).symm

/-! ### Parts -/

theorem shows_mute (h : Mute x) : Shows foreign dot x fun _ => False := by
  intro rest hr
  refine ⟨[], ?_, .nil⟩
  rw [marked_mute _ _ h.1 fun _ _ _ => hr.ends, marked_of_ends h.2 hr.ends]
  rfl

/-- A foreign word shows nothing. -/
theorem shows_foreign {w : String} (hw : isIdentifier w.toList = true) (h : foreign (w, false)) :
    Shows foreign dot w fun _ => False := by
  intro rest hr
  exact .behind_word hw rfl hr.ends (fun _ => hr.isApplied.symm ▸ h) ⟨[], rfl, .nil⟩

/-- Behind a dot a word shows nothing. -/
theorem shows_dotted {w : String} (hw : isIdentifier w.toList = true) :
    Shows foreign true w fun _ => False := by
  intro rest hr
  refine ⟨[], ?_, .nil⟩
  rw [marked_word hw hr.ends, marked_of_ends (Quoting.after_word hw) hr.ends]
  rfl

/-- A name shows itself. -/
theorem shows_name {w : String} (hw : isIdentifier w.toList = true) (h : ¬ foreign (w, false)) :
    Shows foreign false w (· = w) := by
  intro rest hr
  refine ⟨[(w, false)], ?_, List.forall_mem_singleton.mpr (.inr ⟨rfl, rfl⟩), ?_⟩
  · have hquoting : ((Before.start false).past w.toList).quoting = {} := Quoting.after_word hw
    have hreference : isReference (.start false) (pieces rest) = true :=
      hr.isReference rfl fun h => by cases h
    rw [marked_word hw hr.ends, hr.isApplied, String.ofList_toList, hreference,
      marked_of_ends hquoting hr.ends]
    rfl
  · rintro n rfl
    exact ⟨List.mem_singleton_self _, h⟩

theorem Shows.behind {pre : String} (hpre : Leading pre) (h : Shows foreign false x ns) :
    Shows foreign dot (pre ++ x) ns := by
  intro rest hr
  obtain ⟨ms, hms, htells⟩ := h rest hr
  refine ⟨ms, ?_, htells⟩
  rw [String.toList_append, List.append_assoc, marked_leading hpre rfl]
  exact hms

theorem Shows.before {post : String} (hpost : Trailing post) (h : Shows foreign dot x ns) :
    Shows foreign dot (x ++ post) ns := by
  intro rest hr
  obtain ⟨ms, hms, htells⟩ := h _ (neutral_append hpost.2 rest)
  refine ⟨ms, ?_, htells⟩
  rw [String.toList_append, List.append_assoc, hms,
    marked_mute _ _ hpost.1.1 fun _ _ _ => hr.ends, marked_of_ends hpost.1.2 hr.ends]

theorem Shows.between {sep : String} (hsep : Leading sep) (hcuts : cuts sep.toList = true)
    (h : Shows foreign dot x ns) (h' : Shows foreign false y ns') :
    Shows foreign dot (x ++ sep ++ y) fun n => ns n ∨ ns' n := by
  intro rest hr
  obtain ⟨ms, hms, htells⟩ := h _ (neutral_append hcuts (y.toList ++ rest))
  obtain ⟨ms', hms', htells'⟩ := h' rest hr
  refine ⟨ms ++ ms', ?_, htells.append htells'⟩
  simp only [String.toList_append, List.append_assoc]
  rw [hms, marked_leading hsep rfl]
  exact congrArg _ hms'

/-- Three dots stand before the rest of a tuple. -/
theorem Shows.behindDots (h : Shows foreign true x ns) : Shows foreign false ("..." ++ x) ns := by
  intro rest hr
  obtain ⟨ms, hms, htells⟩ := h rest hr
  refine ⟨ms, ?_, htells⟩
  have hdots : ∀ cs : List Char, marked {} ("...".toList ++ cs) = marked (.start true) cs := by
    intro cs
    show marked {} ('.' :: '.' :: '.' :: cs) = marked _ cs
    rw [marked_mark (by decide), marked_mark (by decide), marked_mark (by decide)]
    rfl
  rw [String.toList_append, List.append_assoc]
  exact (hdots _).trans hms

/-- A member of a foreign object. -/
theorem Shows.member {object : String} (hobject : isIdentifier object.toList = true)
    (hforeign : foreign (object, false)) (h : Shows foreign true x ns) :
    Shows foreign dot (object ++ "." ++ x) ns := by
  intro rest hr
  have htail : ("." ++ x).toList ++ rest = '.' :: (x.toList ++ rest) := by
    rw [String.toList_append]
    rfl
  rw [String.append_assoc, String.toList_append, List.append_assoc, htail]
  refine .behind_word hobject rfl (by rintro c ⟨⟩; decide) (fun _ => ?_) ?_
  · rw [pieces_mark (by decide)]
    exact hforeign
  · rw [TellsUpTo, marked_mark (by decide)]
    exact h rest hr

/-- A foreign word that is applied to others, or any word behind a dot. -/
theorem Shows.applied {w : String} (hw : isIdentifier w.toList = true)
    (hforeign : dot = false → foreign (w, true)) (h : Shows foreign false x ns) :
    Shows foreign dot (w ++ "<" ++ x ++ ">") ns := by
  intro rest hr
  have htail : ("<" ++ (x ++ ">")).toList ++ rest = '<' :: ((x ++ ">").toList ++ rest) := by
    rw [String.toList_append]
    rfl
  have hinner : Shows foreign false ("<" ++ (x ++ ">")) ns :=
    (h.before (by decide)).behind (by decide)
  rw [String.append_assoc, String.append_assoc, String.toList_append, List.append_assoc, htail]
  refine .behind_word hw rfl (by rintro c ⟨⟩; decide) (fun href => ?_) (htail ▸ hinner rest hr)
  have hdot : dot = false := by
    cases dot with
    | true => cases href
    | false => rfl
  rw [pieces_mark (by decide)]
  exact hforeign hdot

/-- A foreign word before others. -/
theorem Shows.behindWord {w : String} (hw : isIdentifier w.toList = true)
    (hforeign : ∀ applied, foreign (w, applied)) (h : Shows foreign false x ns) :
    Shows foreign dot (w ++ " " ++ x) ns := by
  intro rest hr
  have htail : (" " ++ x).toList ++ rest = ' ' :: (x.toList ++ rest) := by
    rw [String.toList_append]
    rfl
  rw [String.append_assoc, String.toList_append, List.append_assoc, htail]
  have hbehind : Shows foreign false (" " ++ x) ns := h.behind (by decide)
  exact .behind_word hw rfl (by rintro c ⟨⟩; decide) (fun _ => hforeign _) (htail ▸ hbehind rest hr)

/-- A key shows nothing, whatever it is named. -/
theorem Shows.keyed (name : String) (required : Bool) (h : Shows foreign false x ns) :
    Shows foreign false (key name ++ (keyMark required ++ x)) ns := by
  have hmark : Leading (keyMark required) := by cases required <;> decide
  have hbehind : Shows foreign false (keyMark required ++ x) ns := h.behind hmark
  unfold key
  split
  · next hname =>
    intro rest hr
    obtain ⟨hends, hcolon⟩ := isColon_keyMark required (x.toList ++ rest)
    obtain ⟨ms, hms, htells⟩ := hbehind rest hr
    have hreference : isReference (.start false)
        (pieces ((keyMark required).toList ++ (x.toList ++ rest))) = false := by
      rw [isReference, hcolon, Bool.not_true, Bool.and_false]
    have hquoting : ((Before.start false).past name.toList).quoting = {} := Quoting.after_word hname
    refine ⟨ms, ?_, htells⟩
    simp only [String.toList_append, List.append_assoc] at hms ⊢
    rw [marked_word hname hends, hreference, marked_of_ends hquoting hends]
    exact hms
  · exact hbehind.behind (leading_quoted name)

/-! ### Literals -/

/-- A number that is written with an exponent. -/
def isScaled : Json → Bool
  | .num n => n.render.contains 'e'
  | _ => false

/-- A number shows nothing, if the `e` of its exponent is foreign. -/
theorem shows_number (n : Json.Number) (he : isScaled (.num n) = true → foreign ("e", false)) :
    Shows foreign dot (literal (.num n)) fun _ => False := by
  rcases render_cases n with h | ⟨mantissa, sign, digits, hrender, hsign, hmantissa, hdigits⟩
  · exact shows_mute (mute_of_silent (toList_literal n ▸ h))
  · intro rest hr
    have hscaled : isScaled (.num n) = true :=
      List.contains_iff_mem.mpr (hrender ▸ List.mem_append_right _ List.mem_cons_self)
    have hall : ∀ c ∈ ['-', '+'], isIdentifierPart c = false ∧ (Piece.mark c).isBlank = false ∧
        Silent c ∧ c ≠ '<' := by
      simp only [Silent]
      exact Json.forall_mem_of_all (by decide)
    obtain ⟨hpart, hblank, hsilent, hne⟩ := hall sign hsign
    have happlied : isApplied (pieces (sign :: (digits ++ rest))) = false := by
      rw [pieces_mark hsilent.1, isApplied, List.dropWhile_cons_of_neg (by simp [hblank])]
      simpa using hne
    have hquoting : ((Before.start dot).past mantissa).quoting = {} := by
      have hmute : Mute (String.ofList mantissa) := mute_of_silent (by simpa using hmantissa)
      have hafter := hmute.2
      rwa [String.toList_ofList] at hafter
    have hdigits : Mute (String.ofList (sign :: digits)) :=
      mute_of_silent (by simpa using List.forall_mem_cons.mpr ⟨hsilent, hdigits⟩)
    have hbehind : Shows foreign false (String.ofList (sign :: digits)) fun _ => False :=
      shows_mute hdigits
    have htail := hbehind rest hr
    rw [String.toList_ofList] at htail
    have hsplit : (mantissa ++ 'e' :: sign :: digits) ++ rest =
        mantissa ++ ("e".toList ++ (sign :: digits ++ rest)) := by simp
    rw [toList_literal, hrender, hsplit, TellsUpTo, marked_silent hmantissa]
    exact TellsUpTo.behind_word (by decide) hquoting (by rintro c ⟨⟩; exact hpart)
      (fun _ => happlied.symm ▸ he hscaled) htail

theorem shows_literal (v : Json) (he : isScaled v = true → foreign ("e", false))
    (hwords : ∀ w ∈ ["null", "true", "false", "unknown"], foreign (w, false)) :
    Shows foreign dot (literal v) fun _ => False := by
  cases v with
  | null => exact shows_foreign (w := "null") (by decide) (hwords _ (by decide))
  | bool b =>
    cases b with
    | true => exact shows_foreign (w := "true") (by decide) (hwords _ (by decide))
    | false => exact shows_foreign (w := "false") (by decide) (hwords _ (by decide))
  | num n => exact shows_number n he
  | str s => exact shows_mute (mute_quoted s)
  | arr items => exact shows_foreign (w := "unknown") (by decide) (hwords _ (by decide))
  | obj members => exact shows_foreign (w := "unknown") (by decide) (hwords _ (by decide))

/-! ### Lists -/

/-- The names that a text mentions can be read wherever it stands. -/
def Transparent (foreign : String × Bool → Prop) (x : String) : Prop :=
  Shows foreign false x (mentions foreign x)

theorem Shows.transparent (h : Shows foreign false x ns) : Transparent foreign x :=
  h.mentions h

/-- The names that one of the texts mentions. -/
def mentionsAny (foreign : String × Bool → Prop) (xs : List String) (n : String) : Prop :=
  ∃ x ∈ xs, mentions foreign x n

/-- The texts mention the given names, and they can be read wherever they stand. -/
structure ShowAll (foreign : String × Bool → Prop) (xs : List String) (ns : String → Prop) :
    Prop where
  transparent : ∀ x ∈ xs, Transparent foreign x
  mentioned : ∀ n, mentionsAny foreign xs n ↔ ns n

variable {xs ys : List String} {sep : String}

theorem Shows.showAll (h : Shows foreign false x ns) : ShowAll foreign [x] ns where
  transparent := List.forall_mem_singleton.mpr h.transparent
  mentioned n := by simp [mentionsAny, h.mentions_iff]

theorem shows_intercalate_cons (hsep : Leading sep) (hcuts : cuts sep.toList = true)
    (hx : Shows foreign dot x (mentions foreign x)) (h : ∀ y ∈ xs, Transparent foreign y) :
    Shows foreign dot (String.intercalate sep (x :: xs)) (mentionsAny foreign (x :: xs)) := by
  induction xs generalizing dot x with
  | nil =>
    rw [String.intercalate_singleton]
    exact hx.congr fun n => by simp [mentionsAny]
  | cons y ys ih =>
    obtain ⟨hy, hys⟩ := List.forall_mem_cons.mp h
    rw [String.intercalate_cons_cons]
    exact (hx.between hsep hcuts (ih hy hys)).congr fun n => by simp [mentionsAny]

namespace ShowAll

theorem congr (h : ShowAll foreign xs ns) (hns : ∀ n, ns n ↔ ns' n) : ShowAll foreign xs ns' where
  transparent := h.transparent
  mentioned n := (h.mentioned n).trans (hns n)

theorem nil : ShowAll foreign [] fun _ => False where
  transparent := List.forall_mem_nil _
  mentioned n := by simp [mentionsAny]

theorem append (h : ShowAll foreign xs ns) (h' : ShowAll foreign ys ns') :
    ShowAll foreign (xs ++ ys) fun n => ns n ∨ ns' n where
  transparent := List.forall_mem_append.mpr ⟨h.transparent, h'.transparent⟩
  mentioned n := by
    rw [← h.mentioned, ← h'.mentioned]
    simp only [mentionsAny, List.mem_append, or_and_right, exists_or]

theorem map {α : Type} {f : α → String} {as : List α} {ns : α → String → Prop}
    (h : ∀ a ∈ as, Shows foreign false (f a) (ns a)) :
    ShowAll foreign (as.map f) fun n => ∃ a ∈ as, ns a n where
  transparent x hx := by
    obtain ⟨a, ha, rfl⟩ := List.mem_map.mp hx
    exact (h a ha).transparent
  mentioned n := by
    simp only [mentionsAny, List.mem_map, exists_exists_and_eq_and]
    exact exists_congr fun a => and_congr_right fun ha => (h a ha).mentions_iff n

theorem intercalate (hsep : Leading sep) (hcuts : cuts sep.toList = true)
    (h : ShowAll foreign xs ns) : Shows foreign false (String.intercalate sep xs) ns := by
  refine Shows.congr ?_ h.mentioned
  cases xs with
  | nil =>
    have hmute : Mute "" := by decide
    rw [String.intercalate_nil]
    exact (shows_mute hmute).congr fun n => by simp [mentionsAny]
  | cons x xs =>
    obtain ⟨hx, hxs⟩ := List.forall_mem_cons.mp h.transparent
    exact shows_intercalate_cons hsep hcuts hx hxs

/-- Only the first of the parts stands behind the dot. -/
theorem joined (hsep : Leading sep) (hcuts : cuts sep.toList = true)
    (hx : Shows foreign dot x (mentions foreign x)) (h : ShowAll foreign (x :: xs) ns) :
    Shows foreign dot (TypeScript.joined sep (x :: xs)) ns := by
  have hmem : ∀ y, y ∈ (x :: xs).eraseDups ↔ y ∈ x :: xs := fun y => List.mem_eraseDups
  have hrest : ∀ y ∈ (xs.filter fun z => !z == x).eraseDups, Transparent foreign y := fun y hy =>
    h.transparent y (List.mem_cons_of_mem x (List.mem_of_mem_filter (List.mem_eraseDups.mp hy)))
  rw [TypeScript.joined]
  rw [List.eraseDups_cons] at hmem ⊢
  refine (shows_intercalate_cons hsep hcuts hx hrest).congr fun n => ?_
  rw [← h.mentioned]
  simp only [mentionsAny, hmem]

/-! ### Forms of types -/

theorem braces (h : ShowAll foreign xs ns) : Shows foreign dot (TypeScript.braces xs) ns :=
  ((h.intercalate (by decide) (by decide)).behind (by decide)).before (by decide)

/-- The type of further members mentions what its own text does, and nothing but what it is put
together from. -/
theorem furtherType (hx : Shows foreign false x ns) (h : ShowAll foreign xs ns') :
    ∃ ms, Shows foreign false (TypeScript.furtherType x xs) ms ∧
      ∀ n, (ns n → ms n) ∧ (ms n → ns n ∨ ns' n) := by
  unfold TypeScript.furtherType
  split
  · exact ⟨ns, hx, fun n => ⟨id, .inl⟩⟩
  · exact ⟨_, (hx.showAll.append h).joined (by decide) (by decide) hx.transparent,
      fun n => ⟨.inl, id⟩⟩

end ShowAll

/-- An index signature. -/
theorem Shows.indexed (hstring : foreign ("string", false)) (h : Shows foreign false x ns) :
    Shows foreign dot ("[key: string]: " ++ x) ns := by
  have hvalue : Shows foreign false ("string" ++ "]: " ++ x) ns :=
    ((shows_foreign (by decide) hstring).between (by decide) (by decide) h).congr fun n => by simp
  have hkeyed : Shows foreign dot ("[" ++ (key "key" ++ (keyMark true ++ ("string" ++ "]: " ++ x)))) ns :=
    (hvalue.keyed "key" true).behind (by decide)
  have hkey : key "key" = "key" := by decide
  have hsplit : "[key: string]: " = "[" ++ ("key" ++ (keyMark true ++ ("string" ++ "]: "))) := by
    decide
  rw [hsplit]
  simpa only [hkey, String.append_assoc] using hkeyed

/-- An object type over members that show what their types do. -/
theorem shows_objectType {ms : List (String × String)} {v : Option String}
    (hstring : foreign ("string", false))
    (hms : ShowAll foreign (ms.map fun m => m.1 ++ ": " ++ m.2) ns)
    (htypes : ShowAll foreign (ms.map (·.2)) ns) (hv : ShowAll foreign v.toList ns') :
    Shows foreign dot (Scope.objectType ms v) fun n => ns n ∨ ns' n := by
  cases v with
  | none =>
    rw [Scope.objectType]
    exact (hms.append hv).braces
  | some x =>
    have hx : Shows foreign false x ns' :=
      Shows.congr (hv.transparent x (List.mem_singleton_self x)) fun n => by
        rw [← hv.mentioned, Option.toList_some]
        simp [mentionsAny]
    obtain ⟨further, hfurther, hnames⟩ := ShowAll.furtherType hx htypes
    rw [Scope.objectType]
    refine ((hms.append (hfurther.indexed hstring).showAll).braces).congr fun n => ?_
    obtain ⟨hback, hforth⟩ := hnames n
    tauto

theorem Shows.recordOf (hrecord : foreign ("Record", true)) (hstring : foreign ("string", false))
    (h : Shows foreign false x ns) : Shows foreign dot ("Record<string, " ++ x ++ ">") ns := by
  have hvalue : Shows foreign false ("string" ++ ", " ++ x) ns :=
    ((shows_foreign (by decide) hstring).between (by decide) (by decide) h).congr fun n => by simp
  have happlied : Shows foreign dot ("Record" ++ "<" ++ ("string" ++ ", " ++ x) ++ ">") ns :=
    hvalue.applied (by decide) fun _ => hrecord
  have hsplit : "Record<string, " = "Record" ++ "<" ++ ("string" ++ ", ") := by decide
  rw [hsplit]
  simpa only [String.append_assoc] using happlied

end TypedApi.TypeScript
