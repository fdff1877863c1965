import Lading.Proofs.Json.Merge
import Lading.Proofs.Manifest.Conditions

namespace Lading

namespace Manifest

variable {cache : PredicateCache} {c : Context} {document : Json.Fields}

def applyAll (fields : Json.Fields) (entries : List FieldEntry) : Json.Fields :=
  entries.foldl (fun fields entry ↦ fields.merge entry.name entry.value) fields

def active (c : Context) (document : Json.Fields) : List FieldEntry :=
  (FieldEntry.all document).filter (·.isActive c)

def valuesOf (name : String) (entries : List FieldEntry) : List Json :=
  (entries.filter (·.name == name)).map (·.value)

theorem applyAll_concat (fields : Json.Fields) (entries : List FieldEntry) (entry : FieldEntry) :
    applyAll fields (entries ++ [entry]) =
      (applyAll fields entries).merge entry.name entry.value := by
  simp [applyAll]

theorem keys_applyAll (entries : List FieldEntry) :
    (applyAll [] entries).keys = (entries.map (·.name)).eraseDups := by
  induction entries using List.reverseRecOn with
  | nil => rfl
  | append_singleton entries entry ih =>
    rw [applyAll_concat, Json.Fields.merge_eq, Entries.keys_put_of_eraseDups ih, List.map_append]
    rfl

theorem get?_applyAll (entries : List FieldEntry) (name : String) :
    (applyAll [] entries).get? name = Json.outcomeAll (valuesOf name entries) := by
  induction entries using List.reverseRecOn with
  | nil => rfl
  | append_singleton entries entry ih =>
    rw [applyAll_concat, Json.Fields.merge_eq, Entries.get?_put]
    by_cases hname : entry.name = name
    · have hvalues : valuesOf name (entries ++ [entry]) =
          valuesOf name entries ++ [entry.value] := by
        simp [valuesOf, hname]
      rw [if_pos hname, hvalues, Json.outcomeAll_concat, hname, ih]
    · have hvalues : valuesOf name (entries ++ [entry]) = valuesOf name entries := by
        simp [valuesOf, hname]
      rw [if_neg hname, hvalues, ih]

theorem valuesOf_active (c : Context) (document : Json.Fields) (name : String) :
    valuesOf name (active c document) =
      ((FieldEntry.named document name).filter fun (condition, value) ↦
        FieldEntry.isActive c ⟨condition, name, value⟩).map (·.2) := by
  rw [FieldEntry.named, List.filter_map, List.map_map, valuesOf, active, List.filter_filter,
    List.filter_filter]
  have hfilter : ((FieldEntry.all document).filter fun entry ↦
        entry.name == name && entry.isActive c) =
      (FieldEntry.all document).filter fun entry ↦
        FieldEntry.isActive c ⟨entry.condition, name, entry.value⟩ && entry.name == name := by
    apply List.filter_congr
    intro entry _
    by_cases hname : entry.name = name
    · rw [← hname]
      exact Bool.and_comm ..
    · rw [beq_false_of_ne hname, Bool.false_and, Bool.and_false]
  rw [hfilter]
  rfl

/-- What one pass over fields gives where errors are collected: it stops at the first predicate that
does not read, and else applies the fields that are active. -/
def outcome (c : Context) (fields : Json.Fields) (entries : List FieldEntry) :
    Except PredicateError Json.Fields :=
  match entries.findSome? FieldEntry.fault? with
  | some error => .error error
  | none => .ok (applyAll fields (entries.filter (·.isActive c)))

def failures (c : Context) (entries : List FieldEntry) : List EvalError :=
  (entries.takeWhile (·.fault?.isNone)).flatMap (·.failures c)

section Pass

variable {entry : FieldEntry} (entries : List FieldEntry) (fields : Json.Fields)

theorem outcome_of_fault {error : PredicateError} (h : entry.fault? = some error) :
    outcome c fields (entry :: entries) = .error error := by
  simp [outcome, h]

theorem outcome_of_active (h : entry.fault? = none) (hactive : entry.isActive c = true) :
    outcome c fields (entry :: entries) =
      outcome c (fields.merge entry.name entry.value) entries := by
  simp [outcome, h, hactive, applyAll]

theorem outcome_of_inactive (h : entry.fault? = none) (hactive : entry.isActive c = false) :
    outcome c fields (entry :: entries) = outcome c fields entries := by
  simp [outcome, h, hactive]

theorem failures_of_fault {error : PredicateError} (h : entry.fault? = some error) :
    failures c (entry :: entries) = [] := by
  simp [failures, h]

theorem failures_cons (h : entry.fault? = none) :
    failures c (entry :: entries) = entry.failures c ++ failures c entries := by
  simp [failures, h]

end Pass

theorem effectiveFrom_collecting (hc : c.strict = false) (entries : List FieldEntry)
    (hcache : cache.Genuine) (fields : Json.Fields) (errors : List EvalError) :
    ∃ cache', effectiveFrom fields ⟨cache, c.collecting errors⟩ entries =
      (outcome c fields entries, ⟨cache', c.collecting (errors ++ failures c entries)⟩) := by
  -- Each evaluation may change the cache and the errors, and none depends on them.
  induction entries generalizing cache fields errors with
  | nil => exact ⟨cache, by simp [effectiveFrom, outcome, applyAll, failures]⟩
  | cons entry entries ih =>
    rw [effectiveFrom]
    cases hpredicate : entry.predicate? with
    | none =>
      have hfault := FieldEntry.fault?_of_predicate? hpredicate
      rw [outcome_of_active entries fields hfault (FieldEntry.isActive_of_predicate? hpredicate c),
        failures_cons entries hfault, FieldEntry.failures_of_predicate? hpredicate]
      exact ih hcache (fields.merge entry.name entry.value) errors
    | some text =>
      dsimp only
      cases hparse : Predicate.parse (Text.trimString text) with
      | error error =>
        have hfault := FieldEntry.fault?_of_parse_error hpredicate hparse
        rw [outcome_of_fault entries fields hfault, failures_of_fault entries hfault,
          Evaluator.evaluate_of_parse_error hcache _ hparse, List.append_nil]
        exact ⟨_, rfl⟩
      | ok p =>
        have hfault := FieldEntry.fault?_of_parse hpredicate hparse
        have hactive := FieldEntry.isActive_of_parse hpredicate hparse c
        have hcache' := (hcache.parse text).2
        rw [failures_cons entries hfault, FieldEntry.failures_of_parse hpredicate hparse,
          Evaluator.evaluate_of_parse hcache _ hparse, p.eval_collecting hc, ← List.append_assoc]
        cases hholds : p.holds c with
        | true =>
          rw [outcome_of_active entries fields hfault (hactive.trans hholds)]
          exact ih hcache' (fields.merge entry.name entry.value) (errors ++ p.failures c)
        | false =>
          rw [outcome_of_inactive entries fields hfault (hactive.trans hholds)]
          exact ih hcache' fields (errors ++ p.failures c)

theorem genuine_effectiveFrom (entries : List FieldEntry) (fields : Json.Fields) (e : Evaluator)
    (hcache : e.cache.Genuine) : (effectiveFrom fields e entries).2.cache.Genuine := by
  induction entries generalizing fields e with
  | nil => exact hcache
  | cons entry entries ih =>
    rw [effectiveFrom]
    cases entry.predicate? with
    | none => exact ih _ e hcache
    | some text =>
      have hevaluate : (e.evaluate text).2.cache.Genuine := by
        rw [e.cache_evaluate]
        exact (hcache.parse text).2
      dsimp only
      cases heval : e.evaluate text with
      | mk answer e' =>
        rw [heval] at hevaluate
        cases answer with
        | error error => exact hevaluate
        | ok active => cases active <;> exact ih _ e' hevaluate

theorem effective_eq (hc : c.strict = false) (hcache : cache.Genuine) (document : Json.Fields) :
    ∃ e, effective document ⟨cache, c⟩ =
      (match (FieldEntry.all document).findSome? FieldEntry.fault? with
        | some error => .error error
        | none => .ok (applyAll [] (active c document)), e) := by
  obtain ⟨cache', heffective⟩ :=
    effectiveFrom_collecting hc (FieldEntry.all document) hcache [] c.errors
  exact ⟨_, heffective⟩

theorem eq_applyAll_of_effective (hc : c.strict = false) (hcache : cache.Genuine)
    {fields : Json.Fields} {e : Evaluator} (h : effective document ⟨cache, c⟩ = (.ok fields, e)) :
    fields = applyAll [] (active c document) := by
  obtain ⟨e', heffective⟩ := effective_eq hc hcache document
  rw [h] at heffective
  split at heffective
  · cases heffective
  · cases heffective
    rfl

theorem distinct_of_mem_all (hdocument : (Json.object document).Proper) {entry : FieldEntry}
    (h : entry ∈ FieldEntry.all document) : entry.value.Distinct := by
  have distinct {value : Json} (hvalue : value.Proper) : value.Distinct := by
    rintro fields rfl
    cases hvalue with
    | object nodup => exact nodup
  cases hdocument with
  | object _ hvalues =>
    obtain ⟨⟨key, value⟩, hfield, hentry⟩ := List.mem_flatMap.1 h
    have hvalue := hvalues _ hfield
    change entry ∈ FieldEntry.ofField key value at hentry
    unfold FieldEntry.ofField at hentry
    split at hentry
    · obtain ⟨field, hm, rfl⟩ := List.mem_map.1 hentry
      cases hvalue with
      | object _ hinner => exact distinct (hinner field hm)
    · rw [List.mem_singleton.1 hentry]
      exact distinct hvalue
    · rw [List.mem_singleton.1 hentry]
      exact distinct hvalue

theorem combine_applyAll (hdocument : (Json.object document).Proper) {name : String}
    (h : name ∈ (applyAll [] (active c document)).keys) :
    ∃ value, (applyAll [] (active c document)).get? name = some value ∧
      Json.Combine (valuesOf name (active c document)) value := by
  rw [get?_applyAll]
  apply Json.combine_outcomeAll
  · rw [keys_applyAll, List.mem_eraseDups] at h
    obtain ⟨entry, hentry, rfl⟩ := List.mem_map.1 h
    have hvalue : entry.value ∈ valuesOf entry.name (active c document) :=
      List.mem_map.2 ⟨entry, List.mem_filter.2 ⟨hentry, by simp⟩, rfl⟩
    exact List.ne_nil_of_mem hvalue
  · intro value hvalue
    obtain ⟨entry, hentry, rfl⟩ := List.mem_map.1 hvalue
    have hactive := (List.mem_filter.1 hentry).1
    exact distinct_of_mem_all hdocument (List.mem_filter.1 hactive).1

/-- The effective fields of a document, where errors of evaluation are collected, are the names of
its active fields in the order of their first occurrences, each with what its active values come to.
The first predicate that does not read is an error whatever holds. What becomes of a field depends
on its own occurrences only. -/
theorem effective_combines (hcache : cache.Genuine) (hc : c.strict = false)
    (hdocument : (Json.object document).Proper) :
    (∀ entry ∈ FieldEntry.all document, entry.predicate? = none ↔ entry.condition = none) ∧
      ((∀ entry ∈ FieldEntry.all document, entry.fault? = none) →
        ∃ fields e, effective document ⟨cache, c⟩ = (.ok fields, e) ∧
          fields.keys = ((active c document).map (·.name)).eraseDups ∧
          ∀ name ∈ fields.keys, ∃ value, fields.get? name = some value ∧
            Json.Combine (valuesOf name (active c document)) value) ∧
      (∀ before entry after text mismatch,
        FieldEntry.all document = before ++ entry :: after →
        (∀ earlier ∈ before, earlier.fault? = none) → entry.predicate? = some text →
        Predicate.read (Text.trimString text).toList = .error mismatch →
        ∃ e, effective document ⟨cache, c⟩ =
          (.error (.invalid (Text.trimString text) mismatch), e)) ∧
      ∀ cache' document' fields fields' e e' name, PredicateCache.Genuine cache' →
        effective document ⟨cache, c⟩ = (.ok fields, e) →
        effective document' ⟨cache', c⟩ = (.ok fields', e') →
        FieldEntry.named document name = FieldEntry.named document' name →
        fields.get? name = fields'.get? name := by
  obtain ⟨e, heffective⟩ := effective_eq hc hcache document
  refine ⟨fun entry hentry ↦ FieldEntry.predicate?_eq_none_iff hentry, ?_, ?_, ?_⟩
  · intro hfaultless
    rw [List.findSome?_eq_none_iff.2 hfaultless] at heffective
    exact ⟨_, e, heffective, keys_applyAll _, fun name hname ↦ combine_applyAll hdocument hname⟩
  · intro before entry after text mismatch hall hbefore htext hread
    have hfault : entry.fault? = some (.invalid (Text.trimString text) mismatch) := by
      simp [FieldEntry.fault?, htext, Predicate.parse, hread, Except.mapError]
    have hfirst : (FieldEntry.all document).findSome? FieldEntry.fault? =
        some (.invalid (Text.trimString text) mismatch) := by
      rw [hall, List.findSome?_append, List.findSome?_eq_none_iff.2 hbefore,
        List.findSome?_cons_of_isSome (by simp [hfault]), hfault]
      rfl
    rw [hfirst] at heffective
    exact ⟨e, heffective⟩
  · intro cache' document' fields fields' e e' name hcache' h h' hnamed
    rw [eq_applyAll_of_effective hc hcache h, eq_applyAll_of_effective hc hcache' h',
      get?_applyAll, get?_applyAll, valuesOf_active, valuesOf_active, hnamed]

def shuffled : String :=
  "\x7b\"cfg(dev)\":\x7b\"files\":\x7b\"a\":\"1\"\x7d,\"main\":\"m\"\x7d,\"files\":\"none\"," ++
  "\"cfg(dev or prod).files\":\x7b\"b\":\"2\",\"a\":\"3\"\x7d,\"cfg(prod).main\":\"p\"," ++
  "\"cfg( os == linux )\":\x7b\"files\":\x7b\"b\":\"4\",\"c\":\"5\"\x7d\x7d\x7d"

def workshop : Context := (Context.standard.set "dev" (.bool true)).set "os" (.str "linux")

theorem effective_combines_shuffled :
    ∃ document fields e value, Json.read? shuffled = some (.object document) ∧
      effective document ⟨(PredicateCache.empty.parse " dev ").2, workshop⟩ = (.ok fields, e) ∧
      fields.keys = ["files", "main"] ∧ fields.get? "files" = some value ∧
      Json.Combine (valuesOf "files" (active workshop document)) value ∧
      value.compact = "\x7b\"b\":\"4\",\"a\":\"3\",\"c\":\"5\"\x7d" := by
  have hcheck : (Json.read? shuffled).any fun value ↦
      (ofJson value none).toOption.any fun (manifest : Manifest) ↦
        (∀ entry ∈ FieldEntry.all manifest.document, entry.fault? = none) ∧
          ((active workshop manifest.document).map (·.name)).eraseDups = ["files", "main"] ∧
          ((applyAll [] (active workshop manifest.document)).get? "files").map Json.compact =
            some "\x7b\"b\":\"4\",\"a\":\"3\",\"c\":\"5\"\x7d" := by
    decide +kernel
  obtain ⟨value, hread, hcheck⟩ := (Option.any_eq_true ..).1 hcheck
  cases value with
  | object document =>
    obtain ⟨hfaultless, hnames, hvalue⟩ := of_decide_eq_true hcheck
    have hcache := (PredicateCache.genuine_empty.parse " dev ").2
    have hc : workshop.strict = false := rfl
    obtain ⟨fields, e, heffective, hkeys, hcombine⟩ :=
      (effective_combines hcache hc (Json.proper_of_read hread)).2.1 hfaultless
    obtain ⟨value, hget, hvalues⟩ := hcombine "files" (by simp [hkeys, hnames])
    rw [← eq_applyAll_of_effective hc hcache heffective, hget] at hvalue
    exact ⟨document, fields, e, value, hread, heffective, hkeys.trans hnames, hget, hvalues,
      Option.some.inj hvalue⟩
  | _ => cases hcheck

end Manifest

end Lading
