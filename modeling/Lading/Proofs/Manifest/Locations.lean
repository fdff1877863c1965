import Lading.Manifest.Validation
import Lading.Proofs.Json.Fields
import Lading.Proofs.Manifest.Occurrences
import Mathlib.Data.Prod.Lex

namespace Lading

open Text

namespace Entries

variable {α : Type}

theorem index_eq {entries : Entries α} (nodup : entries.keys.Nodup) {i j : Nat} {key : String}
    {value value' : α} (hi : entries[i]? = some (key, value))
    (hj : entries[j]? = some (key, value')) : i = j := by
  have hkey {k : Nat} {v : α} (hk : entries[k]? = some (key, v)) :
      entries.keys[k]? = some key := by
    rw [keys, List.getElem?_map, hk, Option.map_some]
  have hlength : i < entries.keys.length := (List.getElem?_eq_some_iff.1 (hkey hi)).choose
  exact (List.getElem?_inj hlength nodup).1 ((hkey hi).trans (hkey hj).symm)

end Entries

namespace FieldEntry

def isMark (c : Char) : Bool := c == '.' || c == '>'

def IsUnmarked (s : List Char) : Prop := ∀ c ∈ s, isMark c = false

instance (s : List Char) : Decidable (IsUnmarked s) := List.decidableBAll ..

def EndsBehind (mark : Char) (s : List Char) : Prop :=
  ∃ front run, s = front ++ mark :: run ∧ isMark mark ∧ IsUnmarked run

theorem IsUnmarked.not_endsBehind {s : List Char} (h : IsUnmarked s) (mark : Char) :
    ¬EndsBehind mark s := by
  rintro ⟨front, run, rfl, hmark, -⟩
  rw [h mark (by simp)] at hmark
  cases hmark

theorem marked_inj {mark mark' : Char} {front front' run run' : List Char} (hmark : isMark mark)
    (hrun : IsUnmarked run) (hmark' : isMark mark') (hrun' : IsUnmarked run')
    (h : front ++ mark :: run = front' ++ mark' :: run') :
    front = front' ∧ mark = mark' ∧ run = run' := by
  have hplain {s : List Char} (hs : IsUnmarked s) : ∀ c ∈ s, (!isMark c) = true := by
    intro c hc
    rw [hs c hc]
    rfl
  exact append_run_inj (p := (!isMark ·)) (by simpa using hmark) (hplain hrun)
    (by simpa using hmark') (hplain hrun') h

theorem EndsBehind.mark_eq {mark mark' : Char} {s : List Char} (h : EndsBehind mark s)
    (h' : EndsBehind mark' s) : mark = mark' := by
  obtain ⟨front, run, rfl, hmark, hrun⟩ := h
  obtain ⟨front', run', hs, hmark', hrun'⟩ := h'
  exact (marked_inj hmark hrun hmark' hrun' hs).2.1

/-- How a document declares a field, with the place of the field and its location. Places are
ordered by the key and, in a block, by the field under it. -/
inductive Declared (document : Json.Fields) : Nat ×ₗ Nat → FieldEntry → String → Prop
  | plain {i : Nat} {key : String} {value : Json} (hfield : document[i]? = some (key, value))
      (hkey : ∀ k, ConditionKey.recognize key = some k →
        k = .block k.predicate ∧ ∀ fields, value ≠ .object fields) :
      Declared document (toLex (i, 0)) ⟨none, key, value⟩ key
  | block {i j : Nat} {key predicate name : String} {fields : Json.Fields} {value : Json}
      (hfield : document[i]? = some (key, .object fields))
      (hkey : ConditionKey.recognize key = some (.block predicate))
      (hinner : fields[j]? = some (name, value)) :
      Declared document (toLex (i, j)) ⟨some key, name, value⟩ (key ++ ">" ++ name)
  | inline {i : Nat} {key predicate condition name : String} {value : Json}
      (hfield : document[i]? = some (key, value))
      (hkey : ConditionKey.recognize key = some (.inline predicate name))
      (hcondition : condition ++ name = key) :
      Declared document (toLex (i, 0)) ⟨some condition, name, value⟩ key

section Declared

variable {document : Json.Fields} {entry entry' : FieldEntry} {place place' : Nat ×ₗ Nat}
  {text : String}

theorem condition_append {key predicate name : String}
    (h : ConditionKey.recognize key = some (.inline predicate name)) :
    String.ofList (key.toList.take (key.length - name.length)) ++ name = key := by
  rw [← String.toList_inj, String.toList_append, String.toList_ofList,
    ConditionKey.take_of_inline h, ConditionKey.key_of_inline h]

theorem declared_of_getElem? {i j : Nat} {key : String} {value : Json}
    (hfield : document[i]? = some (key, value)) (hj : (ofField key value)[j]? = some entry)
    (issues : List Issue) :
    Declared document (toLex (i, j)) entry (FieldReport.location ⟨entry, issues⟩) := by
  -- A key that is not that of a block has one field.
  have hone {single : FieldEntry} (h : [single][j]? = some entry) : j = 0 ∧ entry = single := by
    rw [List.getElem?_singleton] at h
    split at h
    · exact ⟨‹_›, (Option.some.inj h).symm⟩
    · cases h
  unfold ofField at hj
  split at hj
  · rename_i predicate fields hkey
    rw [List.getElem?_map] at hj
    obtain ⟨⟨name, value⟩, hinner, rfl⟩ := Option.map_eq_some_iff.1 hj
    simp only [FieldReport.location, endsInDot_of_block hkey, Bool.false_eq_true, if_false]
    exact .block hfield hkey hinner
  · rename_i predicate name hkey
    obtain ⟨rfl, rfl⟩ := hone hj
    have hdot : endsInDot (String.ofList (key.toList.take (key.length - name.length))) := by
      simp [endsInDot, ConditionKey.take_of_inline hkey]
    simp only [FieldReport.location, hdot, if_true, condition_append hkey]
    exact .inline hfield hkey (condition_append hkey)
  · rename_i hinline hblock
    obtain ⟨rfl, rfl⟩ := hone hj
    refine .plain hfield ?_
    intro k hk
    cases k with
    | block predicate => exact ⟨rfl, fun fields ↦ hblock predicate fields hk⟩
    | inline predicate field => exact absurd hk (hinline predicate field)

theorem Declared.mem_all (h : Declared document place entry text) : entry ∈ all document := by
  cases h with
  | @plain i _ value hfield hkey =>
    refine List.mem_flatMap.2 ⟨(text, value), List.mem_of_getElem? hfield, ?_⟩
    change _ ∈ ofField text value
    unfold ofField
    split
    · rename_i predicate fields hblock
      exact absurd rfl ((hkey _ hblock).2 fields)
    · rename_i predicate name hinline
      cases (hkey _ hinline).1
    · exact List.mem_singleton_self _
  | @block i j key predicate name fields value hfield hkey hinner =>
    refine List.mem_flatMap.2 ⟨(key, .object fields), List.mem_of_getElem? hfield, ?_⟩
    simp only [ofField, hkey]
    exact List.mem_map.2 ⟨(name, value), List.mem_of_getElem? hinner, rfl⟩
  | @inline i _ predicate condition name value hfield hkey hcondition =>
    refine List.mem_flatMap.2 ⟨(text, value), List.mem_of_getElem? hfield, ?_⟩
    have hsame : condition = String.ofList (text.toList.take (text.length - name.length)) :=
      (String.append_left_inj name).1 (hcondition.trans (condition_append hkey).symm)
    simp only [ofField, hkey, hsame]
    exact List.mem_singleton_self _

theorem Declared.of_not_endsBehind (h : Declared document place entry text)
    (hname : IsUnmarked entry.name.toList) (hends : ¬EndsBehind '>' text.toList) :
    ∃ i value, place = toLex (i, 0) ∧ document[i]? = some (text, value) := by
  cases h with
  | plain hfield | inline hfield => exact ⟨_, _, rfl, hfield⟩
  | @block i j key predicate name fields value =>
    have hbracket : EndsBehind '>' (key ++ ">" ++ name).toList :=
      ⟨key.toList, name.toList, by simp, rfl, hname⟩
    exact absurd hbracket hends

theorem Declared.of_endsBehind (h : Declared document place entry text)
    (hname : IsUnmarked entry.name.toList) (hends : EndsBehind '>' text.toList) :
    ∃ i j key fields value, place = toLex (i, j) ∧ document[i]? = some (key, .object fields) ∧
      fields[j]? = some (entry.name, value) ∧ text = key ++ ">" ++ entry.name := by
  cases h with
  | plain hfield => exact absurd hends (hname.not_endsBehind '>')
  | block hfield hkey hinner => exact ⟨_, _, _, _, _, rfl, hfield, hinner, rfl⟩
  | @inline i _ predicate condition name value hfield hkey hcondition =>
    have hdot : EndsBehind '.' text.toList :=
      ⟨ConditionKey.opening ++ predicate.toList ++ [')'], name.toList,
        by simp [ConditionKey.key_of_inline hkey], rfl, hname⟩
    exact absurd (hends.mark_eq hdot) (by decide)

theorem Declared.of_isInline (h : Declared document place entry text) (hinline : entry.isInline) :
    (text, entry.value) ∈ document ∧
      ∃ predicate, ConditionKey.recognize text = some (.inline predicate entry.name) := by
  cases h with
  | plain => cases hinline
  | block hfield hkey =>
    change endsInDot _ = true at hinline
    rw [endsInDot_of_block hkey] at hinline
    cases hinline
  | inline hfield hkey => exact ⟨List.mem_of_getElem? hfield, _, hkey⟩

/-- Fields that are declared by one location stand in one place. -/
theorem Declared.place_eq (proper : (Json.object document).Proper)
    (h : Declared document place entry text) (hname : IsUnmarked entry.name.toList)
    (h' : Declared document place' entry' text) (hname' : IsUnmarked entry'.name.toList) :
    place = place' := by
  cases proper with
  | object nodup values_proper =>
    -- The names hold no mark, so the last mark of the location tells a field in a block from one
    -- under its own key.
    by_cases hends : EndsBehind '>' text.toList
    · obtain ⟨i, j, key, fields, value, rfl, hi, hj, rfl⟩ := h.of_endsBehind hname hends
      obtain ⟨i', j', key', fields', value', rfl, hi', hj', htext⟩ :=
        h'.of_endsBehind hname' hends
      have hlists : key.toList ++ '>' :: entry.name.toList =
          key'.toList ++ '>' :: entry'.name.toList := by
        simpa using congrArg String.toList htext
      obtain ⟨hkeys, -, hnames⟩ := marked_inj rfl hname rfl hname' hlists
      obtain rfl := String.toList_inj.1 hkeys
      obtain rfl := Entries.index_eq nodup hi hi'
      obtain rfl : fields = fields' := by simpa [hi] using hi'
      cases values_proper _ (List.mem_of_getElem? hi) with
      | object inner_nodup _ =>
        rw [String.toList_inj.1 hnames] at hj
        rw [Entries.index_eq inner_nodup hj hj']
    · obtain ⟨i, value, rfl, hi⟩ := h.of_not_endsBehind hname hends
      obtain ⟨i', value', rfl, hi'⟩ := h'.of_not_endsBehind hname' hends
      rw [Entries.index_eq nodup hi hi']

end Declared

section Placed

variable {document : Json.Fields}

def placed (document : Json.Fields) : List ((Nat ×ₗ Nat) × FieldEntry) :=
  document.zipIdx.flatMap fun (field, i) ↦
    (ofField field.1 field.2).zipIdx.map fun (entry, j) ↦ (toLex (i, j), entry)

theorem pairwise_zipIdx {α : Type} (items : List α) : items.zipIdx.Pairwise (·.2 < ·.2) := by
  have hindices : (items.zipIdx.map Prod.snd).Pairwise (· < ·) := by
    rw [List.zipIdx_map_snd]
    exact List.pairwise_lt_range'
  exact List.pairwise_map.1 hindices

theorem map_snd_placed (document : Json.Fields) :
    (placed document).map Prod.snd = all document := by
  have hunder (field : (String × Json) × Nat) :
      ((ofField field.1.1 field.1.2).zipIdx.map fun (entry, j) ↦
        (toLex (field.2, j), entry)).map Prod.snd = ofField field.1.1 field.1.2 := by
    rw [List.map_map]
    exact List.zipIdx_map_fst 0 _
  calc (placed document).map Prod.snd
      = document.zipIdx.flatMap fun field ↦ ofField field.1.1 field.1.2 := by
        rw [placed, List.map_flatMap]
        exact List.flatMap_congr fun field _ ↦ hunder field
    _ = (document.zipIdx.map Prod.fst).flatMap fun field ↦ ofField field.1 field.2 := by
        rw [List.flatMap_map]
    _ = all document := by rw [List.zipIdx_map_fst, all]

theorem pairwise_placed (document : Json.Fields) : (placed document).Pairwise (·.1 < ·.1) := by
  refine List.pairwise_flatMap.2 ⟨fun (field, i) _ ↦ ?_, ?_⟩
  · refine List.pairwise_map.2 ((pairwise_zipIdx _).imp fun hlt ↦ ?_)
    exact Prod.Lex.toLex_lt_toLex.2 (.inr ⟨rfl, hlt⟩)
  · refine (pairwise_zipIdx document).imp fun hlt x hx y hy ↦ ?_
    obtain ⟨_, -, rfl⟩ := List.mem_map.1 hx
    obtain ⟨_, -, rfl⟩ := List.mem_map.1 hy
    exact Prod.Lex.toLex_lt_toLex.2 (.inl hlt)

theorem declared_of_mem_placed {field : (Nat ×ₗ Nat) × FieldEntry} (h : field ∈ placed document)
    (issues : List Issue) :
    Declared document field.1 field.2 (FieldReport.location ⟨field.2, issues⟩) := by
  obtain ⟨⟨⟨key, value⟩, i⟩, hfield, hentry⟩ := List.mem_flatMap.1 h
  obtain ⟨⟨entry, j⟩, hj, rfl⟩ := List.mem_map.1 hentry
  exact declared_of_getElem? (List.mem_zipIdx_iff_getElem?.1 hfield)
    (List.mem_zipIdx_iff_getElem?.1 hj) issues

end Placed

end FieldEntry

namespace ValidatorRegistry

def issues (registry : ValidatorRegistry) (entry : FieldEntry) : List Issue :=
  (registry.validators entry.name).flatMap (· entry.value)

/-- The names of the fields that a registry has validators for hold no marks. -/
def IsUnmarked (registry : ValidatorRegistry) : Prop :=
  ∀ field ∈ Entries.keys registry, FieldEntry.IsUnmarked field.toList

theorem isUnmarked_standard : IsUnmarked standard := by
  unfold IsUnmarked
  decide

theorem IsUnmarked.name {registry : ValidatorRegistry} (h : registry.IsUnmarked)
    {entry : FieldEntry} (hissues : registry.issues entry ≠ []) :
    FieldEntry.IsUnmarked entry.name.toList := by
  refine h entry.name ((Entries.mem_keys registry entry.name).2 ?_)
  cases hget : Entries.get? registry entry.name with
  | none =>
    exact absurd (by simp [issues, validators, hget]) hissues
  | some validators => rfl

end ValidatorRegistry

namespace Manifest

open FieldEntry

variable {document : Json.Fields} {registry : ValidatorRegistry}

def reported (document : Json.Fields) (registry : ValidatorRegistry) :
    List ((Nat ×ₗ Nat) × FieldEntry) :=
  (placed document).filter fun field ↦ !(registry.issues field.2).isEmpty

theorem validate_eq (document : Json.Fields) (registry : ValidatorRegistry) :
    validate document registry =
      (reported document registry).map fun field ↦ ⟨field.2, registry.issues field.2⟩ := by
  rw [validate, ← map_snd_placed, List.map_map, List.filter_map]
  rfl

theorem mem_reported {field : (Nat ×ₗ Nat) × FieldEntry} :
    field ∈ reported document registry ↔
      field ∈ placed document ∧ registry.issues field.2 ≠ [] := by
  rw [reported, List.mem_filter]
  simp

theorem reported_declared (document : Json.Fields) (registry : ValidatorRegistry) :
    ∃ places : List (Nat ×ₗ Nat), places.Pairwise (· < ·) ∧
      List.Forall₂ (fun place report ↦ Declared document place report.entry report.location) places
        (validate document registry) := by
  refine ⟨(reported document registry).map Prod.fst, ?_, ?_⟩
  · exact List.pairwise_map.2 ((pairwise_placed document).filter _)
  · rw [validate_eq, List.forall₂_map_left_iff, List.forall₂_map_right_iff, List.forall₂_same]
    exact fun field hfield ↦ declared_of_mem_placed (mem_reported.1 hfield).1 _

theorem nodup_locations (hdocument : (Json.object document).Proper)
    (hregistry : registry.IsUnmarked) :
    ((validate document registry).map FieldReport.location).Nodup := by
  rw [validate_eq, List.map_map]
  refine List.pairwise_map.2 (((pairwise_placed document).filter _).imp_of_mem ?_)
  intro field field' hfield hfield' hlt heq
  obtain ⟨hplaced, hissues⟩ := mem_reported.1 hfield
  obtain ⟨hplaced', hissues'⟩ := mem_reported.1 hfield'
  have hdeclared := declared_of_mem_placed hplaced (registry.issues field.2)
  have hdeclared' := declared_of_mem_placed hplaced' (registry.issues field'.2)
  rw [Function.comp_apply, Function.comp_apply] at heq
  rw [← heq] at hdeclared'
  have hplace := hdeclared.place_eq hdocument (hregistry.name hissues) hdeclared'
    (hregistry.name hissues')
  exact hlt.ne hplace

theorem exists_report_iff {entry : FieldEntry} (hentry : entry ∈ FieldEntry.all document) :
    (∃ report ∈ validate document registry, report.entry = entry) ↔
      ∃ validator ∈ registry.validators entry.name, validator entry.value ≠ [] := by
  have hissues : registry.issues entry ≠ [] ↔
      ∃ validator ∈ registry.validators entry.name, validator entry.value ≠ [] := by
    rw [ValidatorRegistry.issues, Ne, List.flatMap_eq_nil_iff]
    push Not
    rfl
  rw [← hissues, validate_eq]
  constructor
  · rintro ⟨report, hreport, rfl⟩
    obtain ⟨field, hfield, rfl⟩ := List.mem_map.1 hreport
    exact (mem_reported.1 hfield).2
  · intro h
    rw [← map_snd_placed] at hentry
    obtain ⟨field, hfield, rfl⟩ := List.mem_map.1 hentry
    exact ⟨_, List.mem_map.2 ⟨field, mem_reported.2 ⟨hfield, h⟩, rfl⟩, rfl⟩

/-- The reports on a document stand in the order in which it declares their fields, and each has a
location of its own; for a field with a predicate of its own it is the key of the document. -/
theorem validate_located (hdocument : (Json.object document).Proper) :
    (∃ places : List (Nat ×ₗ Nat), places.Pairwise (· < ·) ∧
      List.Forall₂ (fun place report ↦ Declared document place report.entry report.location) places
        (validate document .standard)) ∧
    ((validate document .standard).map FieldReport.location).Nodup ∧
    (∀ report ∈ validate document .standard, report.entry.isInline →
      (report.location, report.entry.value) ∈ document ∧
        ∃ predicate, ConditionKey.recognize report.location =
          some (.inline predicate report.entry.name)) ∧
    ∀ place entry text, Declared document place entry text →
      ((∃ report ∈ validate document .standard, report.entry = entry) ↔
        ∃ validator ∈ ValidatorRegistry.standard.validators entry.name,
          validator entry.value ≠ []) := by
  refine ⟨reported_declared document .standard,
    nodup_locations hdocument ValidatorRegistry.isUnmarked_standard, ?_,
    fun place entry text h ↦ exists_report_iff h.mem_all⟩
  intro report hreport hinline
  rw [validate_eq] at hreport
  obtain ⟨field, hfield, rfl⟩ := List.mem_map.1 hreport
  exact (declared_of_mem_placed (mem_reported.1 hfield).1 _).of_isInline hinline

def bracketed : Json.Fields :=
  [("cfg(x>name)", .object [("version", .null), ("name", .null)]),
    ("cfg(x>name).name", .null), ("name", .null)]

theorem validate_located_bracketed :
    (validate bracketed .standard).map FieldReport.location =
        ["cfg(x>name)>version", "cfg(x>name)>name", "cfg(x>name).name", "name"] ∧
      ["cfg(x>name)>version", "cfg(x>name)>name", "cfg(x>name).name", "name"].Nodup ∧
      (∃ places : List (Nat ×ₗ Nat), places.Pairwise (· < ·) ∧ places.length = 4) ∧
      (∃ report ∈ validate bracketed .standard, report.entry.isInline ∧
        (report.location, report.entry.value) ∈ bracketed) ∧
      ∃ report ∈ validate bracketed .standard, report.entry = ⟨none, "name", .null⟩ := by
  have hblock : (Json.object [("version", .null), ("name", .null)]).Proper :=
    .object (by decide) (by simp [Json.Proper.null])
  have hproper : (Json.object bracketed).Proper :=
    .object (by decide) (by simp [bracketed, hblock, Json.Proper.null])
  have hlocations : (validate bracketed .standard).map FieldReport.location =
      ["cfg(x>name)>version", "cfg(x>name)>name", "cfg(x>name).name", "name"] := by
    decide +kernel
  have hany : (validate bracketed .standard).any (·.entry.isInline) := by decide +kernel
  have hplain : Declared bracketed (toLex (2, 0)) ⟨none, "name", .null⟩ "name" :=
    .plain rfl fun k hk ↦ by cases hk
  obtain ⟨⟨places, hplaces, hall⟩, hnodup, hinline, hreports⟩ := validate_located hproper
  obtain ⟨report, hreport, hreportInline⟩ := List.any_eq_true.1 hany
  rw [hlocations] at hnodup
  refine ⟨hlocations, hnodup, ⟨places, hplaces, ?_⟩,
    ⟨report, hreport, hreportInline, (hinline report hreport hreportInline).1⟩,
    (hreports _ _ _ hplain).2 ⟨Validator.name, List.mem_singleton.2 rfl, by decide⟩⟩
  rw [hall.length_eq, ← List.length_map FieldReport.location, hlocations]
  rfl

end Manifest

end Lading
