import Lading.Json.Reader
import Mathlib.Data.List.Nodup

namespace Lading

namespace Entries

variable {α : Type}

theorem notMem_keys {entries : Entries α} {key : String} :
    key ∉ entries.keys ↔ entries.get? key = none := by
  rw [mem_keys, Option.not_isSome_iff_eq_none]

theorem put_of_notMem {entries : Entries α} {key : String} (h : key ∉ entries.keys) (value : α) :
    entries.put key value = entries ++ [(key, value)] := by
  induction entries with
  | nil => rfl
  | cons entry entries ih =>
    obtain ⟨k, v⟩ := entry
    have hkey : k ≠ key := fun hk ↦ h (by simp [keys, hk])
    have hrest : key ∉ keys entries := fun hk ↦ h (List.mem_cons_of_mem _ hk)
    simp [put, hkey, ih hrest]

theorem nodup_put {entries : Entries α} (h : entries.keys.Nodup) (key : String) (value : α) :
    (entries.put key value).keys.Nodup := by
  rw [keys_put]
  split
  · exact h
  · rename_i hkey
    rw [← List.concat_eq_append]
    exact h.concat hkey

theorem nodup_putAll {entries : Entries α} (h : entries.keys.Nodup) (new : Entries α) :
    (entries.putAll new).keys.Nodup := by
  induction new generalizing entries with
  | nil => exact h
  | cons entry new ih => exact ih (nodup_put h entry.1 entry.2)

theorem putAll_of_nodup {entries new : Entries α} (h : (entries ++ new).keys.Nodup) :
    entries.putAll new = entries ++ new := by
  induction new generalizing entries with
  | nil => exact (List.append_nil _).symm
  | cons entry new ih =>
    obtain ⟨key, value⟩ := entry
    have hkey : key ∉ entries.keys := by
      intro hk
      rw [keys, List.map_append, List.nodup_append] at h
      exact h.2.2 key hk key (by simp) rfl
    have happend : (entries ++ [(key, value)]) ++ new = entries ++ (key, value) :: new := by simp
    rw [← happend] at h ⊢
    rw [← ih h, ← put_of_notMem hkey]
    rfl

theorem mem_put {entries : Entries α} {key : String} {value : α} {entry : String × α}
    (h : entry ∈ entries.put key value) : entry = (key, value) ∨ entry ∈ entries := by
  induction entries with
  | nil => exact .inl (List.mem_singleton.1 h)
  | cons first entries ih =>
    obtain ⟨k, v⟩ := first
    unfold put at h
    split at h
    · exact (List.mem_cons.1 h).imp_right (List.mem_cons_of_mem _)
    · rcases List.mem_cons.1 h with rfl | h
      · exact .inr (List.mem_cons_self ..)
      · exact (ih h).imp_right (List.mem_cons_of_mem _)

theorem mem_putAll {entries new : Entries α} {entry : String × α}
    (h : entry ∈ entries.putAll new) : entry ∈ new ∨ entry ∈ entries := by
  induction new generalizing entries with
  | nil => exact .inr h
  | cons first new ih =>
    rcases ih h with h | h
    · exact .inl (List.mem_cons_of_mem _ h)
    · exact (mem_put h).imp_left fun h ↦ List.mem_cons.2 (.inl h)

theorem get?_of_mem {entries : Entries α} {key : String} {value : α}
    (nodup : entries.keys.Nodup) (h : (key, value) ∈ entries) :
    entries.get? key = some value := by
  induction entries with
  | nil => cases h
  | cons entry entries ih =>
    obtain ⟨k, v⟩ := entry
    obtain ⟨hk, nodup⟩ := List.nodup_cons.1 nodup
    rw [get?_cons]
    rcases List.mem_cons.1 h with heq | h
    · cases heq
      rw [if_pos rfl]
    · have hne : k ≠ key := fun hkey ↦ hk (hkey ▸ List.mem_map.2 ⟨_, h, rfl⟩)
      rw [if_neg hne]
      exact ih nodup h

theorem mem_of_get? {entries : Entries α} {key : String} {value : α}
    (h : entries.get? key = some value) : (key, value) ∈ entries := by
  obtain ⟨⟨k, v⟩, hfind, rfl⟩ := Option.map_eq_some_iff.1 h
  have hk : k = key := by simpa using List.find?_some hfind
  exact hk ▸ List.mem_of_find?_eq_some hfind

theorem get?_perm {entries entries' : Entries α} (h : entries.Perm entries')
    (nodup : entries.keys.Nodup) (key : String) : entries.get? key = entries'.get? key := by
  have hkeys : entries.keys.Perm entries'.keys := h.map _
  cases hkey : entries'.get? key with
  | some value => exact get?_of_mem nodup (h.mem_iff.2 (mem_of_get? hkey))
  | none =>
    rw [← notMem_keys] at hkey ⊢
    exact fun hmem ↦ hkey (hkeys.mem_iff.1 hmem)

end Entries

namespace Json

/-- No object of a document, however deep, has a key twice. -/
inductive Proper : Json → Prop
  | null : Proper .null
  | bool (value : Bool) : Proper (.bool value)
  | integer (value : Int) : Proper (.integer value)
  | float (value : Float) : Proper (.float value)
  | string (value : String) : Proper (.string value)
  | array {items : List Json} (items_proper : ∀ item ∈ items, Proper item) : Proper (.array items)
  | object {fields : Fields} (nodup : fields.keys.Nodup)
      (values_proper : ∀ field ∈ fields, Proper field.2) : Proper (.object fields)

theorem Literal.proper {l : Literal} {value : Json} (h : l.value? = some value) :
    value.Proper := by
  unfold Literal.value? at h
  dsimp only at h
  split at h
  · cases h
    exact .integer _
  · split at h
    · cases h
      exact .integer _
    · obtain ⟨x, -, rfl⟩ := Option.map_eq_some_iff.1 h
      exact .float _

mutual

theorem Raw.proper {depth : Nat} : ∀ {raw : Raw} {value : Json},
    raw.value? depth = some value → value.Proper
  | .null, _, h => by
    cases h
    exact .null
  | .bool b, _, h => by
    cases h
    exact .bool b
  | .number l, _, h => Literal.proper h
  | .string s, _, h => by
    obtain ⟨text, -, rfl⟩ := Option.map_eq_some_iff.1 h
    exact .string text
  | .array items, _, h => by
    cases depth with
    | zero => cases h
    | succ depth =>
      obtain ⟨values, hvalues, rfl⟩ := Option.map_eq_some_iff.1 h
      exact .array (Raw.proper_items hvalues)
  | .object fields, _, h => by
    cases depth with
    | zero => cases h
    | succ depth =>
      obtain ⟨values, hvalues, rfl⟩ := Option.map_eq_some_iff.1 h
      have hnil : Entries.keys ([] : Fields) = [] := rfl
      refine .object (Entries.nodup_putAll (hnil ▸ List.nodup_nil) values) fun field hm ↦ ?_
      exact Raw.proper_fields hvalues field ((Entries.mem_putAll hm).resolve_right (by simp))

theorem Raw.proper_items {depth : Nat} : ∀ {items : List Raw} {values : List Json},
    Raw.values? depth items = some values → ∀ value ∈ values, value.Proper
  | [], _, h => by
    cases h
    simp
  | item :: items, _, h => by
    simp only [Raw.values?] at h
    split at h
    · rename_i first rest hfirst hrest
      cases h
      intro value hm
      rcases List.mem_cons.1 hm with rfl | hm
      · exact Raw.proper hfirst
      · exact Raw.proper_items hrest value hm
    · cases h

theorem Raw.proper_fields {depth : Nat} : ∀ {fields : List (Option String × Raw)} {values : Fields},
    Raw.fields? depth fields = some values → ∀ field ∈ values, field.2.Proper
  | [], _, h => by
    cases h
    simp
  | (key, raw) :: fields, _, h => by
    simp only [Raw.fields?] at h
    split at h
    · rename_i key first rest _ hfirst hrest
      cases h
      intro field hm
      rcases List.mem_cons.1 hm with rfl | hm
      · exact Raw.proper hfirst
      · exact Raw.proper_fields hrest field hm
    · cases h

end

theorem proper_of_read {text : String} {value : Json} (h : read? text = some value) :
    value.Proper := by
  obtain ⟨raw, -, hvalue⟩ := Option.bind_eq_some_iff.1 h
  exact Raw.proper hvalue

theorem nodup_of_read {text : String} {fields : Fields} (h : read? text = some (.object fields)) :
    fields.keys.Nodup := by
  cases proper_of_read h with
  | object nodup => exact nodup

end Json

end Lading
