import Lading.Manifest.Validation
import Lading.Proofs.Manifest.Strictness
import Lading.Proofs.Predicate.Blanks

namespace Lading

namespace Validator

theorem ofString_eq_nil {check : String → List Issue} {value : Json}
    (h : ofString check value = []) : ∃ text, value = .string text ∧ check text = [] := by
  cases value with
  | string text => exact ⟨text, rfl, h⟩
  | _ => cases h

theorem ofResult_eq_nil {α : Type} {result : Except PackageError α} (h : ofResult result = []) :
    ∃ a, result = .ok a := by
  cases result with
  | ok a => exact ⟨a, rfl⟩
  | error error => cases h

def Declarations (value : Json) : Prop :=
  ∃ lines, value = .object lines ∧
    ∀ line ∈ lines, ∃ found, Manifest.dependency line.1 line.2 = .ok found

theorem declarations_of_dependencies {value : Json} (h : dependencies value = []) :
    Declarations value := by
  cases value with
  | object lines =>
    refine ⟨lines, rfl, ?_⟩
    rintro ⟨name, line⟩ hline
    have hissues := List.flatMap_eq_nil_iff.1 h _ hline
    cases line with
    | string text =>
      obtain ⟨requirement, hparse⟩ := ofResult_eq_nil hissues
      exact ⟨(name, requirement), by simp [Manifest.dependency, hparse]⟩
    | _ => cases hissues
  | _ => cases h

theorem Declarations.outcome {value value' : Json} (h : Declarations value)
    (h' : Declarations value') : Declarations (Json.outcome (some value) value') := by
  obtain ⟨lines, rfl, hlines⟩ := h
  obtain ⟨lines', rfl, hlines'⟩ := h'
  refine ⟨_, rfl, fun line hline ↦ ?_⟩
  rcases Entries.mem_putAll hline with hline | hline
  · exact hlines' line hline
  · exact hlines line hline

theorem declarations_outcomeAll {values : List Json} (h : ∀ value ∈ values, Declarations value)
    {value : Json} (hvalue : Json.outcomeAll values = some value) : Declarations value := by
  induction values using List.reverseRecOn generalizing value with
  | nil => cases hvalue
  | append_singleton values last ih =>
    rw [Json.outcomeAll_concat] at hvalue
    cases hvalue
    have hlast := h last (by simp)
    cases hbefore : Json.outcomeAll values with
    | none => cases last <;> exact hlast
    | some before =>
      exact (ih (fun value hv ↦ h value (List.mem_append_left _ hv)) hbefore).outcome hlast

end Validator

namespace FieldEntry

theorem mem_all_of_get? {document : Json.Fields} {key : String} {value : Json}
    (plain : ConditionKey.recognize key = none) (h : document.get? key = some value) :
    ⟨none, key, value⟩ ∈ all document := by
  obtain ⟨⟨key', value'⟩, hfind, rfl⟩ := Option.map_eq_some_iff.1 h
  have hkey : key' = key := by simpa using List.find?_some hfind
  refine List.mem_flatMap.2 ⟨_, List.mem_of_find?_eq_some hfind, ?_⟩
  simp [ofField, hkey, plain]

end FieldEntry

namespace Manifest

theorem of_dependency {key : String} {value : Json} {found : String × Requirement}
    (h : dependency key value = .ok found) :
    found.1 = key ∧ ∃ line, value = .string line ∧
      Requirement.parseNamed key line = .ok found.2 := by
  unfold dependency at h
  split at h
  · rename_i line
    split at h
    · rename_i requirement hparse
      cases h
      exact ⟨rfl, line, rfl, hparse⟩
    · cases h
  · cases h

theorem issues_of_validate {document : Json.Fields} {registry : ValidatorRegistry}
    (h : validate document registry = []) {entry : FieldEntry}
    (hentry : entry ∈ FieldEntry.all document) {validator : Validator}
    (hvalidator : validator ∈ registry.validators entry.name) : validator entry.value = [] := by
  have hreport := List.filter_eq_nil_iff.1 h _ (List.mem_map.2 ⟨entry, hentry, rfl⟩)
  have hissues : (registry.validators entry.name).flatMap (· entry.value) = [] := by
    simpa using hreport
  exact List.flatMap_eq_nil_iff.1 hissues validator hvalidator

/-- A document that has a name and a version outside of all conditions, that the checks find nothing
wrong with, and whose predicates read. -/
structure Checked (document : Json.Fields) : Prop where
  named : ∃ value, document.get? "name" = some value
  versioned : ∃ value, document.get? "version" = some value
  clean : validate document .standard = []
  readable : ∀ entry ∈ FieldEntry.all document, ∀ text, entry.predicate? = some text →
    ∃ p, Predicate.parse text = .ok p

namespace Checked

variable {document : Json.Fields} (h : Checked document)

include h

theorem requiredString {field : String} {value : Json} {check : String → List Issue}
    (plain : ConditionKey.recognize field = none)
    (hvalidator : Validator.ofString check ∈ ValidatorRegistry.standard.validators field)
    (hvalue : document.get? field = some value) (directory : Option String) :
    ∃ text, Manifest.requiredString ⟨document, directory⟩ field = .ok text ∧ check text = [] := by
  have hentry := FieldEntry.mem_all_of_get? plain hvalue
  obtain ⟨text, rfl, htext⟩ :=
    Validator.ofString_eq_nil (issues_of_validate h.clean hentry hvalidator)
  exact ⟨text, by simp [Manifest.requiredString, hvalue], htext⟩

theorem name (directory : Option String) :
    ∃ name, Manifest.name ⟨document, directory⟩ = .ok name := by
  obtain ⟨value, hvalue⟩ := h.named
  obtain ⟨text, htext, hcheck⟩ :=
    h.requiredString (by decide) (List.mem_singleton.2 rfl) hvalue directory
  obtain ⟨name, hname⟩ := Validator.ofResult_eq_nil hcheck
  exact ⟨name, by simp [Manifest.name, htext, hname, bind, Except.bind]⟩

theorem version (directory : Option String) :
    ∃ version, Manifest.version ⟨document, directory⟩ = .ok version := by
  obtain ⟨value, hvalue⟩ := h.versioned
  obtain ⟨text, htext, hcheck⟩ :=
    h.requiredString (by decide) (List.mem_singleton.2 rfl) hvalue directory
  obtain ⟨version, hversion⟩ := Validator.ofResult_eq_nil hcheck
  exact ⟨version, by simp [Manifest.version, htext, hversion, bind, Except.bind]⟩

theorem fault?_eq_none {entry : FieldEntry} (hentry : entry ∈ FieldEntry.all document) :
    entry.fault? = none := by
  cases hpredicate : entry.predicate? with
  | none => exact FieldEntry.fault?_of_predicate? hpredicate
  | some text =>
    obtain ⟨p, hparse⟩ := h.readable entry hentry text hpredicate
    exact FieldEntry.fault?_of_parse hpredicate ((Predicate.parse_trimString text p).2 hparse)

/-- Whichever fields are active, the dependencies among them are requirements. -/
theorem dependencies_applyAll {entries : List FieldEntry}
    (hentries : ∀ entry ∈ entries, entry ∈ FieldEntry.all document) :
    ∃ found, Manifest.dependencies (applyAll [] entries) = .ok found := by
  have hvalues : ∀ value ∈ valuesOf "dependencies" entries, Validator.Declarations value := by
    intro value hvalue
    obtain ⟨entry, hentry, rfl⟩ := List.mem_map.1 hvalue
    obtain ⟨hentry, hname⟩ := List.mem_filter.1 hentry
    have hvalidator :
        Validator.dependencies ∈ ValidatorRegistry.standard.validators entry.name := by
      rw [eq_of_beq hname]
      exact List.mem_singleton.2 rfl
    exact Validator.declarations_of_dependencies
      (issues_of_validate h.clean (hentries entry hentry) hvalidator)
  unfold Manifest.dependencies
  rw [get?_applyAll]
  cases houtcome : Json.outcomeAll (valuesOf "dependencies" entries) with
  | none => exact ⟨[], rfl⟩
  | some value =>
    obtain ⟨lines, rfl, hlines⟩ := Validator.declarations_outcomeAll hvalues houtcome
    exact exists_mapM_eq_ok hlines

end Checked

end Manifest

end Lading
