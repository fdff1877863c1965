import Lading.Manifest.Fields
import Lading.Proofs.Json.Fields
import Mathlib.Data.List.Induction

namespace Lading

namespace Entries

variable {α : Type}

theorem eraseDups_concat (keys : List String) (key : String) :
    (keys ++ [key]).eraseDups =
      if key ∈ keys then keys.eraseDups else keys.eraseDups ++ [key] := by
  rw [List.eraseDups_append]
  by_cases h : key ∈ keys <;> simp [List.removeAll, List.eraseDups_cons, h]

theorem eraseDups_of_nodup {keys : List String} (h : keys.Nodup) : keys.eraseDups = keys := by
  induction keys using List.reverseRecOn with
  | nil => rfl
  | append_singleton keys key ih =>
    obtain ⟨hkeys, -, hne⟩ := List.nodup_append.1 h
    have hkey : key ∉ keys := fun hk ↦ hne key hk key (by simp) rfl
    rw [eraseDups_concat, if_neg hkey, ih hkeys]

theorem keys_put_of_eraseDups {entries : Entries α} {keys : List String}
    (h : entries.keys = keys.eraseDups) (key : String) (value : α) :
    (entries.put key value).keys = (keys ++ [key]).eraseDups := by
  rw [keys_put, eraseDups_concat, h]
  simp only [List.mem_eraseDups]

theorem keys_putAll {entries : Entries α} {keys : List String} (h : entries.keys = keys.eraseDups)
    (new : Entries α) : (entries.putAll new).keys = (keys ++ new.keys).eraseDups := by
  induction new generalizing entries keys with
  | nil => simpa [putAll, Entries.keys] using h
  | cons entry new ih =>
    obtain ⟨key, value⟩ := entry
    have hrest := ih (keys_put_of_eraseDups h key value)
    rw [List.append_assoc] at hrest
    exact hrest

theorem get?_append (entries entries' : Entries α) (key : String) :
    get? (entries ++ entries') key = (entries.get? key).or (entries'.get? key) := by
  simp [get?, List.find?_append, Option.map_or]

theorem get?_putAll (entries new : Entries α) (key : String) :
    (entries.putAll new).get? key = (get? new.reverse key).or (entries.get? key) := by
  induction new generalizing entries with
  | nil => simp [putAll]
  | cons entry new ih =>
    obtain ⟨k, v⟩ := entry
    have hrest : (entries.putAll ((k, v) :: new)).get? key =
        ((entries.put k v).putAll new).get? key := rfl
    rw [hrest, ih, get?_put, List.reverse_cons, get?_append, get?_cons]
    by_cases hk : k = key
    · cases get? new.reverse key <;> simp [hk]
    · simp [hk]

theorem get?_reverse_of_nodup {entries : Entries α} (h : entries.keys.Nodup) (key : String) :
    get? entries.reverse key = entries.get? key := by
  induction entries with
  | nil => rfl
  | cons entry entries ih =>
    obtain ⟨k, v⟩ := entry
    obtain ⟨hkey, hkeys⟩ := List.nodup_cons.1 h
    rw [List.reverse_cons, get?_append, ih hkeys, get?_cons, get?_cons]
    by_cases hk : k = key
    · subst hk
      simp [notMem_keys.1 hkey]
    · simp [hk]

end Entries

namespace Json

def outcome : Option Json → Json → Json
  | some (.object existing), .object incoming => .object (Entries.putAll existing incoming)
  | _, value => value

theorem Fields.merge_eq (fields : Fields) (name : String) (value : Json) :
    fields.merge name value = Entries.put fields name (outcome (fields.get? name) value) := by
  unfold Fields.merge
  split
  · rename_i existing incoming hfield
    rw [hfield]
    rfl
  · rename_i hne
    rw [outcome]
    exact hne

/-- The values of a field in their order, and what they come to: the last one if it is no object,
and else the objects at the end, as many as there are, taken together. A key of these stands at its
first place with its last value. -/
inductive Combine : List Json → Json → Prop
  | value (values : List Json) {value : Json} (h : ∀ fields, value ≠ .object fields) :
      Combine (values ++ [value]) value
  | object {values : List Json} {objects : List Fields} {fields : Fields} (some : objects ≠ [])
      (maximal : ∀ fields, values.getLast? ≠ .some (.object fields))
      (keys : fields.keys = (Entries.keys objects.flatten).eraseDups)
      (last : ∀ key, fields.get? key = Entries.get? objects.flatten.reverse key) :
      Combine (values ++ objects.map .object) (.object fields)

def Distinct (value : Json) : Prop := ∀ fields, value = .object fields → (Entries.keys fields).Nodup

theorem Combine.single {values : List Json} {value : Json} (h : value.Distinct)
    (hlast : ∀ fields, values.getLast? ≠ some (.object fields)) :
    Combine (values ++ [value]) value := by
  by_cases hobject : ∃ fields, value = .object fields
  · obtain ⟨fields, rfl⟩ := hobject
    have hnodup := h fields rfl
    refine @Combine.object values [fields] fields (List.cons_ne_nil _ _) hlast ?_ fun key ↦ ?_
    · rw [List.flatten_singleton, Entries.eraseDups_of_nodup hnodup]
    · rw [List.flatten_singleton, Entries.get?_reverse_of_nodup hnodup]
  · exact .value values fun fields hfields ↦ hobject ⟨fields, hfields⟩

theorem Combine.concat {values : List Json} {v w : Json} (h : Combine values v) (hw : w.Distinct) :
    Combine (values ++ [w]) (outcome (some v) w) := by
  by_cases hobject : ∃ incoming, w = .object incoming
  · obtain ⟨incoming, rfl⟩ := hobject
    cases h with
    | @value values v hv =>
      have houtcome : outcome (some v) (.object incoming) = .object incoming := by
        cases v with
        | object fields => exact absurd rfl (hv fields)
        | _ => rfl
      rw [houtcome]
      exact Combine.single hw fun fields hfields ↦ hv fields (by simpa using hfields)
    | @object values objects fields hsome hmaximal hkeys hlast =>
      have hvalues : values ++ objects.map .object ++ [.object incoming] =
          values ++ (objects ++ [incoming]).map .object := by simp
      rw [hvalues]
      refine .object (by simp) hmaximal ?_ fun key ↦ ?_
      · rw [Entries.keys_putAll hkeys]
        simp [Entries.keys]
      · rw [Entries.get?_putAll, hlast, ← Entries.get?_append]
        simp
  · have houtcome : outcome (some v) w = w := by
      cases w with
      | object fields => exact absurd ⟨fields, rfl⟩ hobject
      | _ => cases v <;> rfl
    rw [houtcome]
    exact .value values fun fields hfields ↦ hobject ⟨fields, hfields⟩

/-- What the values of a field come to when they are applied one after the other. -/
def outcomeAll (values : List Json) : Option Json :=
  values.foldl (fun value next ↦ some (outcome value next)) none

theorem outcomeAll_concat (values : List Json) (value : Json) :
    outcomeAll (values ++ [value]) = some (outcome (outcomeAll values) value) := by
  simp [outcomeAll]

theorem combine_outcomeAll {values : List Json} (hne : values ≠ [])
    (hdistinct : ∀ value ∈ values, value.Distinct) :
    ∃ v, outcomeAll values = some v ∧ Combine values v := by
  induction values using List.reverseRecOn with
  | nil => exact absurd rfl hne
  | append_singleton values value ih =>
    have hvalue := hdistinct value (by simp)
    rw [outcomeAll_concat]
    refine ⟨_, rfl, ?_⟩
    cases values with
    | nil =>
      have houtcome : outcome (outcomeAll []) value = value := by cases value <;> rfl
      rw [houtcome]
      exact Combine.single hvalue (by simp)
    | cons first rest =>
      obtain ⟨v, hv, hcombine⟩ := ih (by simp) fun value hm ↦
        hdistinct value (List.mem_append_left _ hm)
      rw [hv]
      exact hcombine.concat hvalue

end Json

end Lading
