import TypedApi.Proofs.Api.Answers
import TypedApi.Proofs.TypeScript.Collision
import TypedApi.Proofs.TypeScript.Comment

/-! The names that a client declares.

A declaration comes behind a comment and begins with its name, which is the new name of a component.
Components have keys of letters, digits, dots, hyphens and underscores, and they are not brought into
the alphabet of identifiers: the name of a declaration is an identifier exactly if its key begins
with no digit and has neither dots nor hyphens (`declared_ofDocument`). -/
namespace TypedApi.TypeScript

open Api (componentNames)
open OpenApi (isComponentKey isComponentKey_iff isKeyChar)

/-! ### Reading a declaration -/

/-- The name that a declaration declares, up to the blank behind it. -/
def declaredName? (text : String) : Option String :=
  let cs := pastComment text.toList
  let named := (Text.afterPrefix? "export interface ".toList cs).or
    (Text.afterPrefix? "export type ".toList cs)
  named.map fun rest => String.ofList (rest.takeWhile (· ≠ ' '))

theorem typeDeclaration_eq (s : Scope) (name : String) (t : TypeExpr) :
    ∃ keyword ∈ ["export interface ", "export type "], ∃ rest,
      s.typeDeclaration name t = keyword ++ (name ++ (" " ++ rest)) := by
  have hopen : " \x7b\n" = " " ++ "\x7b\n" := by decide
  have hnever : " = Record<string, never>;\n" = " " ++ "= Record<string, never>;\n" := by decide
  have hequal : " = " = " " ++ "= " := by decide
  have hinterface : ∀ members, Scope.interface name members =
      "export interface " ++ (name ++ (" " ++ ("\x7b\n" ++ String.join members ++ "\x7d\n"))) := by
    intro members
    unfold Scope.interface
    rw [hopen]
    simp only [String.append_assoc, -String.reduceAppend]
  unfold Scope.typeDeclaration
  split
  · refine ⟨"export type ", by decide, "= Record<string, never>;\n", ?_⟩
    rw [hnever, String.append_assoc]
  · exact ⟨_, List.mem_cons_self, _, hinterface _⟩
  · exact ⟨_, List.mem_cons_self, _, hinterface _⟩
  · refine ⟨"export type ", by decide, "= " ++ s.type t ++ ";\n", ?_⟩
    rw [hequal]
    simp only [String.append_assoc, -String.reduceAppend]

theorem declaredName?_declaration (s : Scope) {name : String} (hname : ' ' ∉ name.toList)
    (c : Api.Component) : declaredName? (s.declaration name c) = some name := by
  obtain ⟨keyword, hkeyword, rest, heq⟩ := typeDeclaration_eq s name c.type
  have htake : (name.toList ++ ' ' :: rest.toList).takeWhile (· ≠ ' ') = name.toList := by
    have hword : ∀ c ∈ name.toList, decide (c ≠ ' ') = true := fun c hc =>
      decide_eq_true fun hblank => hname (hblank ▸ hc)
    rw [List.takeWhile_append_of_pos hword, List.takeWhile_cons_of_neg (by decide), List.append_nil]
  have hfirst : ∃ cs, keyword.toList = 'e' :: cs := by
    have hall : ∀ k ∈ ["export interface ", "export type "], k.toList.head? = some 'e' := by decide
    exact List.head?_eq_some_iff.mp (hall keyword hkeyword)
  obtain ⟨cs, hcs⟩ := hfirst
  have hpast : pastComment (s.declaration name c).toList =
      keyword.toList ++ (name.toList ++ ' ' :: rest.toList) := by
    have hdeclaration : (keyword ++ (name ++ (" " ++ rest))).toList =
        keyword.toList ++ (name.toList ++ ' ' :: rest.toList) := by
      simp only [String.toList_append]
      rfl
    rw [Scope.declaration, String.toList_append, heq, hdeclaration, hcs]
    exact pastComment_summary _ _ (by decide) (by decide) _
  have hnone : Text.afterPrefix? "export interface ".toList
      ("export type ".toList ++ (name.toList ++ ' ' :: rest.toList)) = none := by
    refine Option.eq_none_iff_forall_ne_some.mpr fun other hother => ?_
    have hchar := congrArg (fun cs : List Char => cs[7]?) (Text.append_of_afterPrefix? hother)
    rw [List.getElem?_append_left (by decide), List.getElem?_append_left (by decide)] at hchar
    exact absurd hchar (by decide)
  unfold declaredName?
  dsimp only
  rw [hpast]
  rcases List.mem_cons.mp hkeyword with rfl | hkeyword
  · rw [Text.afterPrefix?_append, Option.some_or, Option.map_some, htake, String.ofList_toList]
  · obtain rfl := List.mem_singleton.mp hkeyword
    rw [hnone, Text.afterPrefix?_append, Option.none_or, Option.map_some, htake, String.ofList_toList]

/-! ### Keys that are identifiers -/

/-- The key begins with no digit and has neither dots nor hyphens. -/
def Nameable (key : String) : Prop :=
  key.toList.head?.any Text.isDigit = false ∧ '.' ∉ key.toList ∧ '-' ∉ key.toList

theorem isIdentifier_iff_nameable {key : String} (h : isComponentKey key = true) :
    isIdentifier key.toList = true ↔ Nameable key := by
  obtain ⟨hne, hchars⟩ := isComponentKey_iff.mp h
  unfold Nameable
  generalize key.toList = cs at hne hchars
  obtain ⟨c, cs, rfl⟩ := List.exists_cons_of_ne_nil hne
  constructor
  · intro hname
    have hpart : ∀ d ∈ c :: cs, isIdentifierPart d = true := fun _ => isIdentifierPart_of_mem hname
    rw [isIdentifier, Bool.and_eq_true] at hname
    refine ⟨Bool.eq_false_iff.mpr fun hdigit => ?_, fun hdot => absurd (hpart '.' hdot) (by decide),
      fun hhyphen => absurd (hpart '-' hhyphen) (by decide)⟩
    rw [isIdentifierStart_of_isNumeral hdigit] at hname
    cases hname.1
  · rintro ⟨hdigit, hdot, hhyphen⟩
    have hdigit : Text.isDigit c = false := hdigit
    have hpart : ∀ d ∈ c :: cs, Text.isAlphanumeric d = true ∨ d = '_' := by
      intro d hd
      have hkey := hchars d hd
      have hother : d ≠ '.' ∧ d ≠ '-' := ⟨fun h => hdot (h ▸ hd), fun h => hhyphen (h ▸ hd)⟩
      simpa [isKeyChar, hother] using hkey
    rw [isIdentifier, Bool.and_eq_true, List.all_eq_true]
    refine ⟨?_, fun d hd => ?_⟩
    · have hstart := hpart c List.mem_cons_self
      simp only [Text.isAlphanumeric, hdigit, Bool.or_false] at hstart
      simp [isIdentifierStart, hstart]
    · simp [isIdentifierPart, hpart d (List.mem_cons_of_mem c hd)]

/-! ### Documents -/

section
variable {known taken : List String} {renames : List (String × String)} {key : String}

/-- A component that hides a global type is named by an identifier before and after. -/
theorem Fresh.isIdentifier_newName_iff (h : Fresh known taken renames) :
    isIdentifier (newName renames key).toList = true ↔ isIdentifier key.toList = true := by
  have hall : ∀ name ∈ globalTypes, isIdentifier name.toList = true := by decide
  refine ⟨fun hnew => ?_, h.isIdentifier_newName⟩
  rcases h.newName_cases key with hsame | ⟨hglobal, -⟩
  · rwa [hsame] at hnew
  · exact hall key hglobal

theorem Fresh.blank_notMem_newName (h : Fresh known taken renames) (hkey : isComponentKey key = true) :
    ' ' ∉ (newName renames key).toList := by
  have hold : ' ' ∉ key.toList := fun hblank =>
    absurd ((isComponentKey_iff.mp hkey).2 ' ' hblank) (by decide)
  rcases h.newName_cases key with hsame | ⟨-, n, hnew⟩
  · rwa [hsame]
  · rw [hnew, toList_underscored, List.mem_append, not_or]
    exact ⟨hold, fun hblank => absurd (List.eq_of_mem_replicate hblank) (by decide)⟩

end

/-- The components of a document that is read are under legal keys, if the validator has nothing to
say on it or it was assembled. -/
theorem isComponentKey_of_read {root : Json} (h : OpenApi.Violation.ofDocument root = [] ∨
    ∃ (m : Manifest) (options : DocumentOptions), root = (m.document options).encode) :
    ∃ api, Api.ofDocument? root = some api ∧
      ∀ key ∈ componentNames api, isComponentKey key = true := by
  rcases h with h | ⟨m, options, rfl⟩
  · have hquiet := OpenApi.Violation.quiet_of_ofDocument h
    rw [← Api.names_componentsOf] at hquiet
    obtain ⟨members, rfl⟩ := hquiet.rooted
    exact ⟨_, rfl, hquiet.keys⟩
  · obtain ⟨api, hapi, hnames, -⟩ := Api.read_document m options
    have h := Api.assembled_valid m options
    refine ⟨api, hapi, fun key hkey => ?_⟩
    rw [hnames, Api.documentComponents, h.components] at hkey
    split at hkey
    · cases hkey
    · exact h.table.keyed.legal key (h.table.keyed.covered key hkey)

/-- A declaration of the component with a key. -/
structure Declares (renames : List (String × String)) (text key : String) : Prop where
  name : declaredName? text = some (newName renames key)
  /-- Its name is an identifier only if the key could be a name. -/
  identifier : isIdentifier (newName renames key).toList = true ↔ Nameable key

theorem declares_declaration {known taken : List String} {renames : List (String × String)}
    {key : String} (hf : Fresh known taken renames) (hkey : isComponentKey key = true) (s : Scope)
    (c : Api.Component) : Declares renames (s.declaration (newName renames key) c) key where
  name := declaredName?_declaration s (hf.blank_notMem_newName hkey) c
  identifier := hf.isIdentifier_newName_iff.trans (isIdentifier_iff_nameable hkey)

/-- Every declaration of a client is that of a component, and every component has a declaration. Its
name is an identifier exactly if the key of the component begins with no digit and has neither dots
nor hyphens. -/
theorem declared_ofDocument (root : Json) (h : OpenApi.Violation.ofDocument root = [] ∨
    ∃ (m : Manifest) (options : DocumentOptions), root = (m.document options).encode) :
    ∃ api, Api.ofDocument? root = some api ∧
      let client := Client.ofApi api
      (∀ text ∈ client.declarations, ∃ key ∈ componentNames api, Declares client.renames text key) ∧
        ∀ key ∈ componentNames api, ∃ text ∈ client.declarations, Declares client.renames text key := by
  obtain ⟨api, hapi, hkeys⟩ := isComponentKey_of_read h
  obtain ⟨taken, hf⟩ := Client.fresh_renames api
  refine ⟨api, hapi, fun text htext => ?_, fun key hkey => ?_⟩
  · obtain ⟨c, hc, rfl⟩ := List.mem_map.mp htext
    obtain ⟨old, hold, rfl⟩ := List.mem_map.mp (Json.mem_of_mem_table hc)
    have hkey : old.1 ∈ componentNames api := List.mem_map_of_mem hold
    exact ⟨old.1, hkey, declares_declaration hf (hkeys old.1 hkey) _ _⟩
  · have hnew : newName (Client.ofApi api).renames key ∈ componentNames (Client.ofApi api).api :=
      Client.mem_componentNames.mpr ⟨key, hkey, rfl⟩
    obtain ⟨c, hc, hname⟩ := List.mem_map.mp hnew
    refine ⟨_, List.mem_map_of_mem hc, ?_⟩
    rw [hname]
    exact declares_declaration hf (hkeys key hkey) _ _

theorem declared_ofDocument_item :
    OpenApi.Violation.ofDocument Api.itemDocument = [] ∧
      ∃ api, Api.ofDocument? Api.itemDocument = some api ∧
        (Client.ofApi api).declarations.map declaredName? = [some "Item"] ∧
        ∀ text ∈ (Client.ofApi api).declarations, ∃ key ∈ componentNames api,
          Declares (Client.ofApi api).renames text key := by
  have hquiet : OpenApi.Violation.ofDocument Api.itemDocument = [] := by decide +kernel
  obtain ⟨api, hapi, hdeclared, -⟩ := declared_ofDocument Api.itemDocument (.inl hquiet)
  refine ⟨hquiet, api, hapi, ?_, hdeclared⟩
  obtain rfl := Option.some.inj hapi
  decide +kernel

/-- The type of a parameter is the only component, and its key has a hyphen. -/
def hyphenDocument : Json :=
  Api.takingParameter (Api.typedParameter "line-item")
    [("schemas", .obj [("line-item", .obj [("type", .str "object")])])]

/-- A document without a violation whose client declares what is no identifier. -/
theorem declares_hyphen :
    OpenApi.Violation.ofDocument hyphenDocument = [] ∧
      ∃ api, Api.ofDocument? hyphenDocument = some api ∧
        (Client.ofApi api).declarations.map declaredName? = [some "line-item"] ∧
        isIdentifier "line-item".toList = false := by
  exact ⟨by decide +kernel, _, rfl, by decide +kernel, by decide⟩

end TypedApi.TypeScript
