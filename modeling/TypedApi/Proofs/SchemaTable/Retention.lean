import TypedApi.Proofs.SchemaTable.Termination

/-! What the table holds stays.

An entry is written twice, to take its place and when its schema is made, and anything may be
converted between the two. But it is only written by the conversion that found no entry: what
stands in the table when a conversion begins is never written by it (`retains_convert`). -/
namespace TypedApi.SchemaTable

open OpenApi

/-- Whatever `t` holds stands in `t'`. -/
structure Retains (t t' : SchemaTable) : Prop where
  /-- Each entry is unchanged and at the same position. -/
  entries : t.named <+: t'.named
  /-- Each name keeps its key. -/
  keys : ∀ name key, t.keys.lookup name = some key → t'.keys.lookup name = some key
  /-- Each reference to an entry means the same schema. -/
  schemas : ∀ key s, t.named.lookup key = some s → t'.named.lookup key = some s

theorem Retains.of_entries {t t' : SchemaTable} (hentries : t.named <+: t'.named)
    (hkeys : t.keys <+: t'.keys) : Retains t t' where
  entries := hentries
  keys _ _ h := hkeys.lookup_eq_some h
  schemas _ _ h := hentries.lookup_eq_some h

/-- Where a new entry is opened and then written, the entries before it stay. -/
theorem prefix_of_fill {t t₂ : SchemaTable} {key : String} (hhas : t.has key = false)
    (h : (t.store key {}).named <+: t₂.named) (s : Schema) :
    t.named <+: (t₂.store key s).named := by
  have hfresh : key ∉ t.named.map (·.1) := by
    rw [← Json.lookup_eq_none_iff]
    exact Option.isNone_iff_eq_none.mp (Option.isSome_eq_false_iff.mp hhas)
  have hopen : (t.store key {}).named = t.named ++ [(key, ({} : Schema))] :=
    Json.assign_of_notMem hfresh {}
  obtain ⟨more, hmore⟩ := h
  show t.named <+: Json.assign key s t₂.named
  rw [← hmore, hopen, List.append_assoc, Json.assign_append_of_notMem hfresh]
  exact List.prefix_append ..

variable {registry : Registry}

mutual

theorem Body.retained {type : SourceType} {t t' : SchemaTable} {s : Schema}
    (h : Body registry type t s t') : t.named <+: t'.named :=
  match h with
  | .parts _ hparts => hparts.retained
  | .ref _ hentry => hentry.retained
termination_by structural h

theorem Entry.retained {name : String} {found : Option (SourceType × Bool)}
    {t t' : SchemaTable} {s : Schema} (h : Entry registry name found t s t') :
    t.named <+: t'.named :=
  match h with
  | .known hkey _ => (named_of_keyFor hkey).symm ▸ List.prefix_rfl
  | .missing hkey _ => (named_of_keyFor hkey).symm ▸ List.prefix_rfl
  | .fill _ hkey hhas hbody => by
    have hfill := prefix_of_fill hhas hbody.retained
    rw [named_of_keyFor hkey] at hfill
    exact hfill _
termination_by structural h

theorem Site.retained {type : SourceType} {t t' : SchemaTable} {s : Schema}
    (h : Site registry type t s t') : t.named <+: t'.named :=
  match h with
  | .ref _ hentry => hentry.retained
  | .named _ _ hentry => hentry.retained
  | .inline _ _ hbody => hbody.retained
termination_by structural h

theorem Sites.retained {types : List SourceType} {t t' : SchemaTable} {ss : List Schema}
    (h : Sites registry types t ss t') : t.named <+: t'.named :=
  match h with
  | .nil => List.prefix_rfl
  | .cons hsite hrest => hsite.retained.trans hrest.retained
termination_by structural h

end

/-- Whatever is registered, a conversion retains what the table holds, also where some of its
entries are still to be made. -/
theorem retains_convert (registry : Registry) (type : SourceType) (t : SchemaTable) :
    Retains t (convert registry type t).2 := by
  have hsite := site_convert registry type t
  exact .of_entries hsite.retained (Extends.of_writes hsite.writes).keys

end TypedApi.SchemaTable
