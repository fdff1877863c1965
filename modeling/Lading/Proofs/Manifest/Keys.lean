import Lading.Proofs.Manifest.Validation
import Lading.Proofs.Package.ExternalText
import Lading.Proofs.Package.ReferenceText
import Lading.Proofs.Package.RequirementText
import Mathlib.Tactic.TFAE

namespace Lading

open Text

def PackageName.IsFullName (key : String) : Prop :=
  ∃ n : PackageName, n.IsWritable ∧ n.fullName = key

namespace PackageName

variable {key : String}

theorem parse_fullName {n : PackageName} (h : n.IsWritable) : parse n.fullName = .ok n := by
  have hread : read n.text = .ok n := read_eq_ok_iff.2 ⟨h, rfl⟩
  rw [parse, fullName, String.toList_ofList, h.isTrimmed_text.trim_eq, hread, mapError_ok]

theorem isFullName_iff_parse :
    IsFullName key ↔ ∃ n, parse key = .ok n ∧ n.fullName = key := by
  constructor
  · rintro ⟨n, hn, rfl⟩
    exact ⟨n, parse_fullName hn, rfl⟩
  · rintro ⟨n, hparse, hname⟩
    exact ⟨n, (read_eq_ok_iff.1 (ok_of_mapError hparse)).1, hname⟩

theorem isFullName_iff_reference : IsFullName key ↔
    ∃ text r, Reference.parse text = .ok r ∧ r.package.fullName = key := by
  constructor
  · rintro ⟨n, hn, rfl⟩
    exact ⟨_, _, Reference.parse_name_iff.1 (parse_fullName hn), rfl⟩
  · rintro ⟨text, r, hparse, hname⟩
    obtain ⟨p, hp, -, rfl⟩ := Reference.parse_eq_ok_iff.1 hparse
    exact ⟨p.package, hp.package, hname⟩

end PackageName

namespace Requirement

variable {key line : String} {r : Requirement}

theorem name_of_parseNamed (h : parseNamed key line = .ok r) : r.name = some key := by
  obtain ⟨⟨options, s⟩, -, h⟩ := ok_of_bind (ok_of_mapError h)
  obtain ⟨⟨name, rest⟩, hname, h⟩ := ok_of_bind h
  cases hname
  dsimp only at h
  split at h
  · cases h
  · obtain ⟨source, -, h⟩ := ok_of_bind h
    cases h
    rfl

theorem parse_toString_iff (h : parseNamed key line = .ok r) :
    parse (toString r) = .ok r ↔ PackageName.IsFullName key := by
  have hname := name_of_parseNamed h
  constructor
  · intro hparse
    have hr : r.IsWritable := isWritable_of_read (by simp) (ok_of_mapError hparse)
    exact hr.name key hname
  · intro hkey
    have hknown : ∀ x ∈ some key, ∃ n : PackageName, n.IsWritable ∧ n.fullName = x := by
      rintro _ ⟨⟩
      exact hkey
    have hr : r.IsWritable := isWritable_of_read hknown (ok_of_mapError h)
    change (read none (String.ofList r.text).toList).mapError _ = _
    rw [String.toList_ofList, read_text hr, mapError_ok]

end Requirement

namespace Manifest

/-- The key of each dependency that passes is the name of the requirement. Where it is no full name,
the requirement is not read from its text, and no reference asks for what it is the name of. -/
theorem dependency_keys (document : Json.Fields) (h : validate document .standard = []) :
    ∀ entry ∈ FieldEntry.all document, entry.name = "dependencies" →
      ∃ lines, entry.value = .object lines ∧ ∀ key value, (key, value) ∈ lines →
        ∃ line r, value = .string line ∧ Requirement.parseNamed key line = .ok r ∧
          r.name = some key ∧
          [PackageName.IsFullName key, ∃ n, PackageName.parse key = .ok n ∧ n.fullName = key,
            Requirement.parse (toString r) = .ok r,
            ∃ text named, Reference.parse text = .ok named ∧
              named.package.fullName = key].TFAE := by
  intro entry hentry hname
  have hvalidator : Validator.dependencies ∈ ValidatorRegistry.standard.validators entry.name := by
    rw [hname]
    exact List.mem_singleton.2 rfl
  obtain ⟨lines, hvalue, hlines⟩ :=
    Validator.declarations_of_dependencies (issues_of_validate h hentry hvalidator)
  refine ⟨lines, hvalue, fun key value hmem ↦ ?_⟩
  obtain ⟨⟨key', r⟩, hfound⟩ := hlines _ hmem
  obtain ⟨rfl, line, rfl, hparse⟩ := of_dependency hfound
  refine ⟨line, r, rfl, hparse, Requirement.name_of_parseNamed hparse, ?_⟩
  tfae_have 1 ↔ 2 := PackageName.isFullName_iff_parse
  tfae_have 3 ↔ 1 := Requirement.parse_toString_iff hparse
  tfae_have 1 ↔ 4 := PackageName.isFullName_iff_reference
  tfae_finish

/-- A key that is no name passes. -/
theorem dependency_keys_spaced : ¬∀ document, validate document .standard = [] →
    ∀ entry ∈ FieldEntry.all document, entry.name = "dependencies" →
      ∀ lines, entry.value = .object lines → ∀ field ∈ lines,
        ∃ n, PackageName.parse field.1 = .ok n ∧ n.fullName = field.1 := by
  intro h
  have hclean : validate [("dependencies", .object [("not a name", .string "1.0.0")])]
      .standard = [] := List.isEmpty_iff.1 (by decide +kernel)
  obtain ⟨n, hparse, -⟩ := h _ hclean _ List.mem_cons_self rfl _ rfl _ List.mem_cons_self
  have hread : PackageName.parse "not a name" = .error (.name "not a name"
      (.invalidName "not a name")) := by decide
  rw [hread] at hparse
  cases hparse

def mixed : Json.Fields :=
  [("cfg(dev)", .object [("dependencies",
    .object [("@sc/na.me", .string ">=1.0.0"), ("na me", .string "1.0.0")])])]

theorem dependency_keys_mixed : validate mixed .standard = [] ∧
    (∃ text named, Reference.parse text = .ok named ∧ named.package.fullName = "@sc/na.me") ∧
    ¬∃ text named, Reference.parse text = .ok named ∧ named.package.fullName = "na me" := by
  have hclean : validate mixed .standard = [] := List.isEmpty_iff.1 (by decide +kernel)
  have hentry : ⟨some "cfg(dev)", "dependencies", .object
      [("@sc/na.me", .string ">=1.0.0"), ("na me", .string "1.0.0")]⟩ ∈ FieldEntry.all mixed :=
    List.mem_cons_self
  obtain ⟨lines, hlines, hkeys⟩ := dependency_keys mixed hclean _ hentry rfl
  cases hlines
  have hasked (key value : String) (hmem : (key, Json.string value) ∈
      [("@sc/na.me", Json.string ">=1.0.0"), ("na me", Json.string "1.0.0")]) :
      (∃ text named, Reference.parse text = .ok named ∧ named.package.fullName = key) ↔
        ∃ n, PackageName.parse key = .ok n ∧ n.fullName = key := by
    obtain ⟨line, r, -, -, -, htfae⟩ := hkeys key _ hmem
    exact htfae.out 3 1
  rw [hasked "@sc/na.me" ">=1.0.0" (by simp), hasked "na me" "1.0.0" (by simp)]
  refine ⟨hclean, ⟨⟨some "sc", "na.me"⟩, by decide, by decide⟩, ?_⟩
  rintro ⟨n, hparse, -⟩
  have hread : PackageName.parse "na me" = .error (.name "na me" (.invalidName "na me")) := by
    decide
  rw [hread] at hparse
  cases hparse

end Manifest

namespace ExternalRequirement

variable {key spec : String} {r : ExternalRequirement}

structure IsApart (key spec : String) : Prop where
  name : IsName key.toList
  stops : ∀ c ∈ spec.toList.head?, isNameChar c = false

theorem of_parse_append (hkey : IsName key.toList) (h : parse (key ++ spec) = .ok r) :
    IsName r.name.toList ∧ ∃ rest, key.toList ++ spec.toList = r.name.toList ++ rest ∧
      Specifies r.extras r.specifier rest := by
  obtain ⟨front, s, hfront, hinput, hname, rest, rfl, hrest⟩ := parse_eq_ok_iff.1 h
  rw [String.toList_append] at hinput
  cases front with
  | nil => exact ⟨hname, rest, hinput, hrest⟩
  | cons c front =>
    have hc : c ∈ key.toList.head? := by
      rw [← List.head?_append_of_ne_nil _ hkey.ne_nil, hinput]
      rfl
    have hblank := hfront c List.mem_cons_self
    rw [hkey.isTrimmed.head c hc] at hblank
    cases hblank

theorem IsApart.of_specifies {extras : List String} {specifier : String}
    (hkey : IsName key.toList) (h : Specifies extras specifier spec.toList) : IsApart key spec :=
  ⟨hkey, h.head⟩

theorem IsApart.specifies (hapart : IsApart key spec) (h : parse (key ++ spec) = .ok r) :
    r.name = key ∧ Specifies r.extras r.specifier spec.toList := by
  obtain ⟨hname, rest, hinput, hrest⟩ := of_parse_append hapart.name h
  obtain ⟨hkey, hspec⟩ :=
    run_append_inj hapart.name.chars hapart.stops hname.chars hrest.head hinput
  exact ⟨String.toList_injective hkey.symm, hspec ▸ hrest⟩

theorem IsApart.parse_append {extras : List String} {specifier : String} (hapart : IsApart key spec)
    (hspec : Specifies extras specifier spec.toList) :
    parse (key ++ spec) = .ok ⟨key, extras, specifier⟩ :=
  parse_eq_ok_iff.2
    ⟨[], _, isBlanks_nil, String.toList_append, hapart.name, spec.toList, rfl, hspec⟩

theorem name_eq_iff (h : parse (key ++ spec) = .ok r) : r.name = key ↔ IsApart key spec := by
  constructor
  · rintro rfl
    obtain ⟨-, -, -, -, hname, -⟩ := parse_eq_ok_iff.1 h
    obtain ⟨-, rest, hinput, hrest⟩ := of_parse_append hname h
    exact .of_specifies hname (List.append_cancel_left hinput ▸ hrest)
  · exact fun hapart ↦ (hapart.specifies h).1

theorem Specifies.exists_operator {extras : List String} {specifier : String} {s : List Char}
    (h : Specifies extras specifier s) (hne : specifier ≠ "") :
    ∃ operator ∈ operators, operator <:+: s := by
  obtain ⟨hfront, hlist, hrest⟩ := h
  obtain ⟨operator, hoperator, hinfix⟩ := hrest.exists_operator hne
  exact ⟨operator, hoperator, hinfix.trans (List.suffix_append _ _).isInfix⟩

end ExternalRequirement

namespace Validator

open ExternalRequirement

theorem ofObject_eq_flatMap (check : String → Json → List Issue) (fields : Json.Fields) :
    ofObject check (.object fields) =
      fields.flatMap fun field ↦ ofObject check (.object [field]) := by
  simp [ofObject]

/-- Each entry is checked by itself. The requirement of one that passes has the key as its name
exactly if the key is a bare name that the text under it does not go on with. Such an entry passes
if its text is made of extras and versions, where versions have an operator. -/
theorem externalDependencies_keys (fields : Json.Fields) :
    externalDependencies (.object fields) =
        fields.flatMap (fun field ↦ externalDependencies (.object [field])) ∧
      (∀ key spec, externalDependencies (.object [(key, .string spec)]) = [] →
        ∃ r, parse (key ++ spec) = .ok r ∧
          [IsApart key spec, r.name = key,
            IsName key.toList ∧ Specifies r.extras r.specifier spec.toList].TFAE ∧
          (IsApart key spec → r.specifier ≠ "" →
            ∃ operator ∈ operators, operator <:+: spec.toList)) ∧
      ∀ key spec, IsApart key spec →
        (externalDependencies (.object [(key, .string spec)]) = [] ↔
          ∃ extras specifier, Specifies extras specifier spec.toList) := by
  have hpassed {key spec : String}
      (h : externalDependencies (.object [(key, .string spec)]) = []) :
      ∃ r, parse (key ++ spec) = .ok r :=
    ofResult_eq_nil (List.flatMap_eq_nil_iff.1 h _ List.mem_cons_self)
  refine ⟨ofObject_eq_flatMap _ fields, fun key spec h ↦ ?_,
    fun key spec hapart ↦ ⟨fun h ↦ ?_, ?_⟩⟩
  · obtain ⟨r, hparse⟩ := hpassed h
    refine ⟨r, hparse, ?_, fun hapart hne ↦ (hapart.specifies hparse).2.exists_operator hne⟩
    tfae_have 2 ↔ 1 := name_eq_iff hparse
    tfae_have 1 → 3 := fun hapart ↦ ⟨hapart.name, (hapart.specifies hparse).2⟩
    tfae_have 3 → 1 := fun ⟨hname, hspec⟩ ↦ .of_specifies hname hspec
    tfae_finish
  · obtain ⟨r, hparse⟩ := hpassed h
    exact ⟨r.extras, r.specifier, (hapart.specifies hparse).2⟩
  · rintro ⟨extras, specifier, hspec⟩
    simp [externalDependencies, ofObject, ofResult, hapart.parse_append hspec]

/-- A key that a version goes on with passes. -/
theorem externalDependencies_requests : ¬∀ key spec,
    externalDependencies (.object [(key, .string spec)]) = [] →
      ∃ r, parse (key ++ spec) = .ok r ∧ r.name = key := by
  intro h
  have hparse : parse ("requests" ++ "2.0") = .ok ⟨"requests2.0", [], ""⟩ := by decide
  obtain ⟨r, hr, hname⟩ := h "requests" "2.0" rfl
  rw [hparse] at hr
  cases hr
  exact absurd hname (by decide)

theorem externalDependencies_keys_requests :
    externalDependencies (.object [("requests", .string "[security] >=2.0, <3")]) = [] ∧
      Specifies ["security"] ">=2.0, <3" "[security] >=2.0, <3".toList ∧
      externalDependencies (.object [("requests", .string "2.0")]) = [] ∧
      ¬IsApart "requests" "2.0" := by
  have hclean : externalDependencies
      (.object [("requests", .string "[security] >=2.0, <3")]) = [] := by decide +kernel
  have hparse : parse ("requests" ++ "[security] >=2.0, <3") =
      .ok ⟨"requests", ["security"], ">=2.0, <3"⟩ := by decide +kernel
  have hmerged : parse ("requests" ++ "2.0") = .ok ⟨"requests2.0", [], ""⟩ := by decide
  have hkeys {key spec : String} {r : ExternalRequirement}
      (h : externalDependencies (.object [(key, .string spec)]) = [])
      (hr : parse (key ++ spec) = .ok r) : (r.name = key ↔
        IsName key.toList ∧ Specifies r.extras r.specifier spec.toList) ∧
          (IsApart key spec ↔ r.name = key) := by
    obtain ⟨r', hr', htfae, -⟩ := (externalDependencies_keys []).2.1 key spec h
    rw [hr] at hr'
    cases hr'
    exact ⟨htfae.out 1 2, htfae.out 0 1⟩
  refine ⟨hclean, ((hkeys hclean hparse).1.1 rfl).2, rfl, ?_⟩
  rw [(hkeys rfl hmerged).2]
  decide

end Validator

end Lading
