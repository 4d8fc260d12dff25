import TypedApi.Proofs.OpenApi.Clean
import TypedApi.Proofs.Route.Decoding

/-! Documents of manifests come back from their text.

A document that nests deeper than the reader goes cannot be read at all, a keyword that says null
is taken for one that is absent, and a number that the reader does not find again in its text is
written as another one. All other documents of manifests are stable. -/
namespace TypedApi

open Json (Readable nestingLimit)

/-- The document is read from its text, and what is read is written as the same text. -/
def OpenApi.Document.Stable (d : OpenApi.Document) : Prop :=
  ∃ e, OpenApi.Document.ofText d.toText = .ok e ∧ e.toText = d.toText

namespace Route

open OpenApi

/-- The document of a manifest is stable when it nests no deeper than the reader goes, its numbers
read back and no schema in it has the constant null. -/
theorem stable_document {text : String} (hsize : text.length < 2 ^ 64) {m : Manifest}
    (hm : Manifest.ofText text = .ok m) (options : DocumentOptions)
    (hdepth : (m.document options).encode.depth ≤ nestingLimit)
    (hnumbers : ∀ n ∈ (m.document options).encode.numbers, n.ReadsBack)
    (hsolid : AllSolid (m.document options).schemas) : (m.document options).Stable := by
  have hclean := clean_document (Manifest.clean_ofText hsize hm) options
  exact ⟨_, hclean.ofText_toText hsolid hdepth hnumbers, rfl⟩

/-! ### Unstable documents -/

/-- A manifest with one route, which returns a type. -/
def returning (type : SourceType) : Manifest where
  routes := [{
    controller := "c"
    handler := "h"
    method := .get
    path := "/"
    returns := some type }]

/-- The value of a manifest with one route, which returns a literal. -/
def returningLiteral (v : Json) : Json :=
  .obj [("routes", .arr [.obj [
    ("controller", .str "c"),
    ("handler", .str "h"),
    ("method", .str "GET"),
    ("path", .str "/"),
    ("returns", .obj [("kind", .str "literal"), ("value", v)])]])]

/-- The value of the document of such a manifest. -/
def documentLiteral (v : Json) : Json :=
  .obj [
    ("openapi", .str "3.1.0"),
    ("info", .obj [("title", .str "API"), ("version", .str "1.0.0")]),
    ("paths", .obj [("/", .obj [("get", .obj [
      ("tags", .arr [.str "c"]),
      ("operationId", .str "c_h"),
      ("responses", .obj [("200", .obj [
        ("description", .str "OK"),
        ("content", .obj [("application/json", .obj [("schema", .obj [("const", v)])])])])]),
      ("x-typebridge-controller", .str "c"),
      ("x-typebridge-method", .str "h")])])]),
    ("tags", .arr [.obj [("name", .str "c")]])]

/-- In the text of this number the reader finds `tinier`, and in that of `tinier` this one. -/
def tiny : Json.Number := .real ⟨false, 1, -30⟩

def tinier : Json.Number := .real ⟨false, 9999999999999999, -46⟩

def half : Json.Number := .real ⟨false, 5, -1⟩

def nestedLists : Nat → Json
  | 0 => .null
  | n + 1 => .arr [nestedLists n]

theorem readable_nestedLists (n : Nat) : (nestedLists n).Readable := by
  induction n with
  | zero => exact .null
  | succ n ih => exact .arr (List.forall_mem_singleton.mpr ih)

theorem readable_returningLiteral {v : Json} (hv : v.Readable) :
    (returningLiteral v).Readable := by
  have hreturns : (Json.obj [("kind", .str "literal"), ("value", v)]).Readable :=
    .obj (by decide : ["kind", "value"].Nodup)
      (List.forall_mem_cons.mpr ⟨.str _, List.forall_mem_singleton.mpr hv⟩)
  refine .obj (by decide : ["routes"].Nodup) (List.forall_mem_singleton.mpr (.arr
    (List.forall_mem_singleton.mpr (.obj ?_ ?_))))
  · exact (by decide : ["controller", "handler", "method", "path", "returns"].Nodup)
  · simp only [List.forall_mem_cons]
    exact ⟨.str _, .str _, .str _, .str _, hreturns, List.forall_mem_nil _⟩

theorem within_returningLiteral {n m : Json.Number} (h : n.reread? = some m) :
    Json.Draft.within nestingLimit (returningLiteral (.num n)) =
      .ofValue (returningLiteral (.num m)) := by
  simp only [returningLiteral, Json.Draft.within, Json.Draft.withinItems, Json.Draft.withinMembers, h]
  rfl

theorem within_documentLiteral {n m : Json.Number} (h : n.reread? = some m) :
    Json.Draft.within nestingLimit (documentLiteral (.num n)) =
      .ofValue (documentLiteral (.num m)) := by
  simp only [documentLiteral, Json.Draft.within, Json.Draft.withinItems, Json.Draft.withinMembers, h]
  rfl

/-- Texts of different lengths are different. -/
theorem toText_ne {d e : Document}
    (h : (d.encode.writePretty 0 []).length ≠ (e.encode.writePretty 0 []).length) :
    d.toText ≠ e.toText := by
  intro htext
  have hlength := congrArg String.length htext
  simp only [Document.toText, Json.pretty, String.length_ofList] at hlength
  exact h hlength

theorem clean_returning {type : SourceType} (h : type.Clean) : (returning type).Clean where
  types := by
    intro e he
    cases he
  routes := by
    refine List.forall_mem_singleton.mpr ⟨?_, ?_, ?_, ?_⟩
    · intro p hp
      cases hp
    · intro t ht
      cases ht
      exact h
    · intro e he
      cases he
    · intro e he
      cases he
  security := by
    refine List.forall_mem_singleton.mpr fun r hr => ?_
    cases hr

theorem clean_literal {v : Json} (hv : v.Readable) : (SourceType.ofForm (.literal v)).Clean := by
  refine .intro ⟨fun c hc => ?_, hv⟩ fun u hu => ?_
  · cases hc
  · cases hu

/-- A literal one half. -/
theorem stable_document_half :
    (returningLiteral (.num half)).pretty.length < 2 ^ 64 ∧
      Manifest.ofText (returningLiteral (.num half)).pretty =
        .ok (returning (.ofForm (.literal (.num half)))) ∧
      ((returning (.ofForm (.literal (.num half)))).document {}).encode.depth ≤ nestingLimit ∧
      (∀ n ∈ ((returning (.ofForm (.literal (.num half)))).document {}).encode.numbers,
        n.ReadsBack) ∧
      AllSolid ((returning (.ofForm (.literal (.num half)))).document {}).schemas ∧
      ((returning (.ofForm (.literal (.num half)))).document {}).Stable := by
  have hhalf : (Json.num half).Readable := .num ⟨⟨by decide, by decide⟩, by decide +kernel⟩
  have hsize : (returningLiteral (.num half)).pretty.length < 2 ^ 64 := by
    rw [Json.pretty, String.length_ofList]
    decide +kernel
  have hm : Manifest.ofText (returningLiteral (.num half)).pretty =
      .ok (returning (.ofForm (.literal (.num half)))) := by
    rw [Manifest.ofText, Json.run_pretty _ (readable_returningLiteral hhalf) (by decide)
      (by decide +kernel)]
    rfl
  have hdepth : ((returning (.ofForm (.literal (.num half)))).document {}).encode.depth ≤
      nestingLimit := by decide
  have hnumbers : ∀ n ∈ ((returning (.ofForm (.literal (.num half)))).document {}).encode.numbers,
      n.ReadsBack := by decide +kernel
  have hsolid : AllSolid ((returning (.ofForm (.literal (.num half)))).document {}).schemas := by
    refine List.forall_mem_singleton.mpr (.intro ?_ ?_)
    · intro h
      cases h
    · intro c hc
      cases hc
  exact ⟨hsize, hm, hdepth, hnumbers, hsolid, stable_document hsize hm {} hdepth hnumbers hsolid⟩

set_option maxRecDepth 4000 in
/-- A literal that nests nearly as deep as a manifest may. -/
theorem unstable_nestedLists :
    ∃ m, Manifest.ofText (returningLiteral (nestedLists 119)).pretty = .ok m ∧
      ¬ (m.document {}).Stable := by
  have hv := readable_nestedLists 119
  refine ⟨returning (.ofForm (.literal (nestedLists 119))), ?_, ?_⟩
  · rw [Manifest.ofText, Json.run_pretty _ (readable_returningLiteral hv) (by decide) (by decide)]
    rfl
  · rintro ⟨e, he, -⟩
    have hr := (clean_document (clean_returning (clean_literal hv)) {}).readable
    rw [Document.ofText, Document.toText, Json.run_within _ hr] at he
    have hfail : Document.layout.decodeOpen (.within nestingLimit
        ((returning (.ofForm (.literal (nestedLists 119)))).document {}).encode) =
          .error .malformed := rfl
    rw [hfail] at he
    cases he

theorem unstable_null :
    ∃ m, Manifest.ofText (returningLiteral .null).pretty = .ok m ∧ ¬ (m.document {}).Stable := by
  refine ⟨returning (.ofForm (.literal .null)), ?_, ?_⟩
  · rw [Manifest.ofText, Json.run_pretty _ (readable_returningLiteral .null) (by decide) (by decide)]
    rfl
  · rintro ⟨e, he, htext⟩
    have hr := (clean_document (clean_returning (clean_literal .null)) {}).readable
    rw [Document.ofText, Document.toText, Json.run_pretty _ hr (by decide) (by decide)] at he
    have hback : Document.layout.decodeOpen
        (.ofValue ((returning (.ofForm (.literal .null))).document {}).encode) =
          .ok ((returning default).document {}) := rfl
    rw [hback] at he
    cases he
    exact toText_ne (by decide +kernel) htext

/-- The manifest already holds another number than its text, and the document changes it back. -/
theorem unstable_tiny :
    ∃ m, Manifest.ofText (returningLiteral (.num tiny)).pretty = .ok m ∧
      ¬ (m.document {}).Stable := by
  have htiny : (Json.num tiny).Readable := .num ⟨⟨by decide, by decide⟩, by decide +kernel⟩
  have htinier : (Json.num tinier).Readable := .num ⟨⟨by decide, by decide⟩, by decide +kernel⟩
  refine ⟨returning (.ofForm (.literal (.num tinier))), ?_, ?_⟩
  · rw [Manifest.ofText, Json.run_within _ (readable_returningLiteral htiny),
      within_returningLiteral (m := tinier) (by decide +kernel)]
    rfl
  · rintro ⟨e, he, htext⟩
    have hr := (clean_document (clean_returning (clean_literal htinier)) {}).readable
    have hvalue : ((returning (.ofForm (.literal (.num tinier)))).document {}).encode =
        documentLiteral (.num tinier) := rfl
    rw [Document.ofText, Document.toText, Json.run_within _ hr, hvalue,
      within_documentLiteral (m := tiny) (by decide +kernel)] at he
    have hback : Document.layout.decodeOpen (.ofValue (documentLiteral (.num tiny))) =
        .ok ((returning (.ofForm (.literal (.num tiny)))).document {}) := rfl
    rw [hback] at he
    cases he
    exact toText_ne (by decide +kernel) htext

/-- A literal that nests too deep, the literal null, and a number that does not read back. -/
theorem unstable_document :
    (∃ m, Manifest.ofText (returningLiteral (nestedLists 119)).pretty = .ok m ∧
        ¬ (m.document {}).Stable) ∧
      (∃ m, Manifest.ofText (returningLiteral .null).pretty = .ok m ∧
        ¬ (m.document {}).Stable) ∧
      ∃ m, Manifest.ofText (returningLiteral (.num tiny)).pretty = .ok m ∧
        ¬ (m.document {}).Stable :=
  ⟨unstable_nestedLists, unstable_null, unstable_tiny⟩

end Route
end TypedApi
