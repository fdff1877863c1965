import Lading.Manifest.Fields
import Lading.Proofs.Predicate.Evaluation

namespace Lading

namespace ConditionKey

theorem recognize_block (predicate : List Char) :
    recognize (String.ofList (opening ++ predicate ++ [')'])) =
      some (.block (String.ofList predicate)) := by
  unfold recognize
  rw [String.toList_ofList, List.append_assoc, Text.after?_append]
  simp

theorem eq_append_of_cutClose {s left right : List Char} (h : cutClose s = some (left, right)) :
    s = left ++ ')' :: '.' :: right := by
  fun_induction cutClose s generalizing left right with
  | case1 s =>
    cases h
    rfl
  | case2 c s _ ih =>
    obtain ⟨⟨left', right'⟩, hcut, heq⟩ := Option.map_eq_some_iff.1 h
    cases heq
    rw [ih hcut, List.cons_append]
  | case3 => cases h

theorem key_of_inline {key predicate field : String}
    (h : recognize key = some (.inline predicate field)) :
    key.toList = (opening ++ predicate.toList ++ [')', '.']) ++ field.toList := by
  unfold recognize at h
  split at h
  · cases h
  · rename_i body hbody
    split at h
    · cases h
    · split at h
      · cases h
      · cases h
      · rename_i left right hne hcut
        cases h
        rw [Text.after?_eq_some_iff.1 hbody, eq_append_of_cutClose hcut]
        simp

theorem take_of_inline {key predicate field : String}
    (h : recognize key = some (.inline predicate field)) :
    key.toList.take (key.length - field.length) =
      opening ++ predicate.toList ++ [')', '.'] := by
  have hkey := key_of_inline h
  have hlength : key.length - field.length =
      (opening ++ predicate.toList ++ [')', '.']).length := by
    rw [← String.length_toList, ← String.length_toList, hkey, List.length_append,
      Nat.add_sub_cancel]
  rw [hlength, hkey, List.take_left]

end ConditionKey

namespace FieldEntry

theorem endsInDot_of_block {key predicate : String}
    (h : ConditionKey.recognize key = some (.block predicate)) : endsInDot key = false := by
  unfold ConditionKey.recognize at h
  split at h
  · cases h
  · rename_i body hbody
    split at h
    · rename_i hlast
      rw [endsInDot, Text.after?_eq_some_iff.1 hbody, List.getLast?_append, hlast]
      decide
    · split at h <;> cases h

theorem predicate?_block {key predicate : String}
    (h : ConditionKey.recognize key = some (.block predicate)) (name : String) (value : Json) :
    predicate? ⟨some key, name, value⟩ = some predicate := by
  simp [predicate?, endsInDot_of_block h, h, ConditionKey.predicate]

theorem predicate?_dot (condition : List Char) (name : String) (value : Json) :
    predicate? ⟨some (String.ofList (condition ++ ['.'])), name, value⟩ =
      (ConditionKey.recognize (String.ofList condition)).map ConditionKey.predicate := by
  have hend : endsInDot (String.ofList (condition ++ ['.'])) = true := by simp [endsInDot]
  simp only [predicate?, Option.bind_eq_bind, Option.bind_some, hend, if_true,
    String.toList_ofList, List.dropLast_concat]

theorem predicate?_inline {key predicate field : String}
    (h : ConditionKey.recognize key = some (.inline predicate field)) (value : Json) :
    predicate? ⟨some (String.ofList (key.toList.take (key.length - field.length))), field, value⟩ =
      some predicate := by
  have hblock : ConditionKey.opening ++ predicate.toList ++ [')', '.'] =
      (ConditionKey.opening ++ predicate.toList ++ [')']) ++ ['.'] := by simp
  rw [ConditionKey.take_of_inline h, hblock, predicate?_dot, ConditionKey.recognize_block]
  simp [ConditionKey.predicate]

theorem predicate?_of_mem_ofField {key : String} {value : Json} {entry : FieldEntry}
    (h : entry ∈ ofField key value) : entry.predicate? = none ↔ entry.condition = none := by
  unfold ofField at h
  split at h
  · rename_i predicate fields hkey
    obtain ⟨⟨name, value⟩, -, rfl⟩ := List.mem_map.1 h
    simp [predicate?_block hkey]
  · rename_i predicate field hkey
    rw [List.mem_singleton.1 h, predicate?_inline hkey]
    simp
  · rw [List.mem_singleton.1 h]
    simp [predicate?]

theorem predicate?_eq_none_iff {document : Json.Fields} {entry : FieldEntry}
    (h : entry ∈ all document) : entry.predicate? = none ↔ entry.condition = none := by
  obtain ⟨⟨key, value⟩, -, hentry⟩ := List.mem_flatMap.1 h
  exact predicate?_of_mem_ofField hentry

/-- Whether a field counts: it has no predicate, or one that holds. -/
def isActive (c : Context) (entry : FieldEntry) : Bool :=
  match entry.predicate? with
  | none => true
  | some text =>
    match Predicate.parse (Text.trimString text) with
    | .ok p => p.holds c
    | .error _ => false

def fault? (entry : FieldEntry) : Option PredicateError :=
  match entry.predicate? with
  | none => none
  | some text =>
    match Predicate.parse (Text.trimString text) with
    | .ok _ => none
    | .error error => some error

theorem fault?_ne_eval (entry : FieldEntry) (e : EvalError) : entry.fault? ≠ some (.eval e) := by
  intro h
  unfold fault? at h
  split at h
  · cases h
  · split at h
    · cases h
    · rename_i hparse
      exact Predicate.parse_ne_eval hparse e (Option.some.inj h)

/-- The errors of those comparisons in the predicate of a field that have no answer. -/
def failures (c : Context) (entry : FieldEntry) : List EvalError :=
  match entry.predicate? with
  | none => []
  | some text => Predicate.failuresIn text c

section Predicate

variable {entry : FieldEntry} {text : String} {p : Predicate}

theorem fault?_of_predicate? (h : entry.predicate? = none) : entry.fault? = none := by
  simp [fault?, h]

theorem fault?_of_parse (h : entry.predicate? = some text)
    (hparse : Predicate.parse (Text.trimString text) = .ok p) : entry.fault? = none := by
  simp [fault?, h, hparse]

theorem fault?_of_parse_error (h : entry.predicate? = some text) {error : PredicateError}
    (hparse : Predicate.parse (Text.trimString text) = .error error) :
    entry.fault? = some error := by
  simp [fault?, h, hparse]

theorem isActive_of_predicate? (h : entry.predicate? = none) (c : Context) :
    entry.isActive c = true := by
  simp [isActive, h]

theorem isActive_of_parse (h : entry.predicate? = some text)
    (hparse : Predicate.parse (Text.trimString text) = .ok p) (c : Context) :
    entry.isActive c = p.holds c := by
  simp [isActive, h, hparse]

theorem failures_of_predicate? (h : entry.predicate? = none) (c : Context) :
    entry.failures c = [] := by
  simp [failures, h]

theorem failures_of_parse (h : entry.predicate? = some text)
    (hparse : Predicate.parse (Text.trimString text) = .ok p) (c : Context) :
    entry.failures c = p.failures c := by
  simp [failures, h, Predicate.failuresIn_of_parse hparse]

end Predicate

end FieldEntry

end Lading
