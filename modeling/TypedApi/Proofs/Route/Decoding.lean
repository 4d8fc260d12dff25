import TypedApi.Proofs.Route.Clean
import TypedApi.Proofs.SourceType.Decoding
import TypedApi.Route.Decoding

/-! Manifests read from a text are clean.

The sizes that a schema writes down count elements of the text, so the text must have fewer
than `2 ^ 64` characters. -/
namespace TypedApi

open Json (Keeps Layout ok_of_bind ok_of_map)

variable {bound : Nat}

namespace Route

theorem Parameter.clean_decode (hbound : bound < 2 ^ 64) :
    Keeps bound Parameter.layout.decode fun p => p.type.Clean := by
  refine Layout.Keeps.decode (.ignoring SourceType.clean_default ?_)
  intro p key d b hp hd h
  simp only [Parameter.layout] at h
  split at h
  case h_3 =>
    obtain ⟨t, ht, h⟩ := ok_of_bind h
    cases h
    exact SourceType.clean_decode hbound d t hd ht
  all_goals
    obtain ⟨v, -, h⟩ := ok_of_bind h
    cases h
    exact hp

theorem Failure.clean_decode (hbound : bound < 2 ^ 64) :
    Keeps bound Failure.layout.decode fun f => ∀ t ∈ f.type, t.Clean := by
  refine Layout.Keeps.decode (.ignoring ?_ ?_)
  · intro t ht
    cases ht
  intro f key d b hf hd h
  simp only [Failure.layout] at h
  split at h
  case h_3 =>
    obtain ⟨t, ht, h⟩ := ok_of_bind h
    cases h
    exact (SourceType.clean_decode hbound).option d t hd ht
  all_goals
    obtain ⟨v, -, h⟩ := ok_of_bind h
    cases h
    exact hf

theorem Event.clean_decode (hbound : bound < 2 ^ 64) :
    Keeps bound Event.layout.decode fun e => e.data.Clean := by
  refine Layout.Keeps.decode (.ignoring SourceType.clean_default ?_)
  intro e key d b he hd h
  simp only [Event.layout] at h
  split at h
  · obtain ⟨v, -, h⟩ := ok_of_bind h
    cases h
    exact he
  · obtain ⟨t, ht, h⟩ := ok_of_bind h
    cases h
    exact SourceType.clean_decode hbound d t hd ht

/-- The types of a route are clean and its requirements name each scheme once. -/
structure Clean (route : Route) : Prop where
  types : GoodRoute SourceType.Clean route
  security : ∀ r ∈ route.security, (r.map (·.1)).Nodup

theorem clean_decode (hbound : bound < 2 ^ 64) : Keeps bound Route.decode Clean := by
  refine Layout.Keeps.decode (.ignoring ⟨⟨?_, ?_, ?_, ?_⟩, ?_⟩ ?_)
  · intro p hp
    cases hp
  · intro t ht
    cases ht
  · intro e he
    cases he
  · intro e he
    cases he
  · intro r hr
    cases hr
  intro r key d b hr hd h
  simp only [layout] at h
  split at h
  case h_5 =>
    obtain ⟨ps, hps, h⟩ := ok_of_bind h
    cases h
    have hps := ((Parameter.clean_decode hbound).list d ps hd hps).1
    exact ⟨{ hr.types with parameters := hps }, hr.security⟩
  case h_6 =>
    obtain ⟨t, ht, h⟩ := ok_of_bind h
    cases h
    have ht := (SourceType.clean_decode hbound).option d t hd ht
    exact ⟨{ hr.types with returns := ht }, hr.security⟩
  case h_11 =>
    obtain ⟨rs, hrs, h⟩ := ok_of_bind h
    cases h
    have hrs := (Keeps.trivial.map.list d rs hd hrs).1
    exact ⟨{ hr.types with }, fun r hm => (hrs r hm).1⟩
  case h_12 =>
    obtain ⟨es, hes, h⟩ := ok_of_bind h
    cases h
    have hes := ((Failure.clean_decode hbound).list d es hd hes).1
    exact ⟨{ hr.types with errors := hes }, hr.security⟩
  case h_14 =>
    obtain ⟨es, hes, h⟩ := ok_of_bind h
    cases h
    have hes := ((Event.clean_decode hbound).list d es hd hes).1
    exact ⟨{ hr.types with events := hes }, hr.security⟩
  all_goals
    obtain ⟨v, -, h⟩ := ok_of_bind h
    cases h
    exact ⟨{ hr.types with }, hr.security⟩

end Route

theorem Registry.clean_decode (hbound : bound < 2 ^ 64) :
    Keeps bound Registry.decode fun r => ∀ e ∈ r.entries, e.2.Clean := by
  intro d r hd h
  obtain ⟨entries, hentries, rfl⟩ := ok_of_map h
  have heach := ((SourceType.clean_decode hbound).map d entries hd hentries).2
  exact fun e he => heach e (Json.mem_of_mem_table he)

theorem Manifest.clean_decode (hbound : bound < 2 ^ 64) :
    Keeps bound Manifest.layout.decode Manifest.Clean := by
  refine Layout.Keeps.decode (.ignoring ⟨?_, ?_, ?_⟩ ?_)
  · intro e he
    cases he
  · intro route hr
    cases hr
  · intro route hr
    cases hr
  intro m key d b hm hd h
  simp only [Manifest.layout] at h
  split at h
  · obtain ⟨types, htypes, h⟩ := ok_of_bind h
    cases h
    exact ⟨Registry.clean_decode hbound d types hd htypes, hm.routes, hm.security⟩
  · obtain ⟨routes, hroutes, h⟩ := ok_of_bind h
    cases h
    have hroutes := ((Route.clean_decode hbound).list d routes hd hroutes).1
    exact ⟨hm.types, fun route hr => (hroutes route hr).types,
      fun route hr => (hroutes route hr).security⟩

/-- A manifest read from a text is clean. -/
theorem Manifest.clean_ofText {text : String} (hsize : text.length < 2 ^ 64) {m : Manifest}
    (h : Manifest.ofText text = .ok m) : m.Clean :=
  (Manifest.clean_decode hsize).run h

end TypedApi
