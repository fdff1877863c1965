namespace Lading

/-- A finite map as the list of its entries in the order of insertion. Writing to a key that is
there keeps its place. -/
abbrev Entries (α : Type) := List (String × α)

namespace Entries

variable {α : Type}

def get? (entries : Entries α) (key : String) : Option α :=
  (entries.find? (·.1 == key)).map (·.2)

def contains (entries : Entries α) (key : String) : Bool := (entries.get? key).isSome

def put (entries : Entries α) (key : String) (value : α) : Entries α :=
  match entries with
  | [] => [(key, value)]
  | (k, v) :: rest => if k = key then (key, value) :: rest else (k, v) :: put rest key value

def erase (entries : Entries α) (key : String) : Entries α := entries.filter (·.1 != key)

def keys (entries : Entries α) : List String := entries.map (·.1)

def putAll (entries new : Entries α) : Entries α :=
  new.foldl (fun all (key, value) ↦ all.put key value) entries

/-- A map of a list in which a key may stand more than once; the last value of a key counts and the
first place. -/
def ofList (list : List (String × α)) : Entries α := putAll [] list

def sorted (entries : Entries α) : Entries α := entries.mergeSort fun a b ↦ decide (a.1 ≤ b.1)

@[simp] theorem get?_nil (key : String) : get? ([] : Entries α) key = none := rfl

theorem get?_cons (k : String) (v : α) (entries : Entries α) (key : String) :
    get? ((k, v) :: entries) key = if k = key then some v else get? entries key := by
  by_cases h : k = key <;> simp [get?, h]

theorem mem_keys (entries : Entries α) (key : String) :
    key ∈ entries.keys ↔ (entries.get? key).isSome := by
  simp [keys, get?]

theorem get?_put (entries : Entries α) (key : String) (value : α) (key' : String) :
    (entries.put key value).get? key' = if key = key' then some value else entries.get? key' := by
  induction entries with
  | nil => simp [put, get?_cons]
  | cons entry entries ih =>
    obtain ⟨k, v⟩ := entry
    by_cases hk : k = key
    · subst hk
      by_cases h : k = key' <;> simp [put, get?_cons, h]
    · by_cases h : k = key'
      · subst h
        simp [put, get?_cons, hk, Ne.symm hk]
      · simp [put, get?_cons, hk, h, ih]

theorem keys_put (entries : Entries α) (key : String) (value : α) :
    (entries.put key value).keys =
      if key ∈ entries.keys then entries.keys else entries.keys ++ [key] := by
  induction entries with
  | nil => simp [put, keys]
  | cons entry entries ih =>
    obtain ⟨k, v⟩ := entry
    by_cases hk : k = key
    · simp [put, keys, hk]
    · simp only [keys] at ih
      simp only [put, hk, if_false, keys, List.map_cons, ih, List.mem_cons, Ne.symm hk, false_or]
      split <;> simp [*]

end Entries

end Lading
