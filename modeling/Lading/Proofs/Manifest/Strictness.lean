import Lading.Proofs.Manifest.Effective

namespace Lading

/-- A strict context, and one that collects errors and answers all comparisons like it. -/
structure Context.Counterparts (strict collecting : Context) : Prop where
  stops : strict.strict = true
  collects : collecting.strict = false
  vars : collecting.vars = strict.vars
  coercions : collecting.coercions = strict.coercions

/-- The outcomes of a strict run and of one that collects errors, each with the context after it.
`failures` are the errors that there are, and `raise` tells how one of them is reported. -/
structure Concurs {ε α : Type} (raise : EvalError → ε) (failures : List EvalError)
    (strict collecting : Context) (run run' : Except ε α × Context) : Prop where
  raised : ∀ e, run.1 = .error (raise e) ↔ failures.head? = some e
  same : failures = [] → run.1 = run'.1
  kept : run.2 = strict
  unraised : ∀ e, run'.1 ≠ .error (raise e)
  collected : run'.2 = collecting.collecting (collecting.errors ++ failures)

def Evaluator.outcome {α : Type} (run : Except PredicateError α × Evaluator) :
    Except PredicateError α × Context :=
  (run.1, run.2.context)

namespace Manifest

theorem effectiveFrom_strict {cache : PredicateCache} {c : Context} (hc : c.strict = true)
    (entries : List FieldEntry) (hcache : cache.Genuine) (fields : Json.Fields) :
    ∃ cache', effectiveFrom fields ⟨cache, c⟩ entries =
      (match (failures c entries).head? with
        | some e => .error (.eval e)
        | none => outcome (c.withStrict false) fields entries, ⟨cache', c⟩) := by
  induction entries generalizing cache fields with
  | nil => exact ⟨cache, by simp [effectiveFrom, outcome, applyAll, failures]⟩
  | cons entry entries ih =>
    rw [effectiveFrom]
    cases hpredicate : entry.predicate? with
    | none =>
      have hfault := FieldEntry.fault?_of_predicate? hpredicate
      have hactive := FieldEntry.isActive_of_predicate? hpredicate (c.withStrict false)
      rw [failures_cons entries hfault, FieldEntry.failures_of_predicate? hpredicate,
        outcome_of_active entries fields hfault hactive]
      exact ih hcache (fields.merge entry.name entry.value)
    | some text =>
      dsimp only
      cases hparse : Predicate.parse (Text.trimString text) with
      | error error =>
        have hfault := FieldEntry.fault?_of_parse_error hpredicate hparse
        rw [failures_of_fault entries hfault, outcome_of_fault entries fields hfault,
          Evaluator.evaluate_of_parse_error hcache _ hparse]
        exact ⟨_, rfl⟩
      | ok p =>
        have hfault := FieldEntry.fault?_of_parse hpredicate hparse
        have hactive := FieldEntry.isActive_of_parse hpredicate hparse (c.withStrict false)
        have hcache' := (hcache.parse text).2
        rw [failures_cons entries hfault, FieldEntry.failures_of_parse hpredicate hparse,
          Evaluator.evaluate_of_parse hcache _ hparse, p.eval_strict hc, List.head?_append]
        cases (p.failures c).head? with
        | some e => exact ⟨_, rfl⟩
        | none =>
          cases hholds : p.holds (c.withStrict false) with
          | true =>
            rw [outcome_of_active entries fields hfault (hactive.trans hholds)]
            exact ih hcache' (fields.merge entry.name entry.value)
          | false =>
            rw [outcome_of_inactive entries fields hfault (hactive.trans hholds)]
            exact ih hcache' fields

theorem outcome_ne_eval (c : Context) (fields : Json.Fields) (entries : List FieldEntry)
    (e : EvalError) : outcome c fields entries ≠ .error (.eval e) := by
  unfold outcome
  split
  · rename_i error hfault
    obtain ⟨entry, -, hentry⟩ := List.exists_of_findSome?_eq_some hfault
    intro h
    cases h
    exact entry.fault?_ne_eval e hentry
  · exact nofun

end Manifest

variable {ε α : Type} {raise : EvalError → ε} {strict collecting : Context}

theorem Concurs.of_eq (injective : ∀ {e e'}, raise e = raise e' → e = e')
    {failures : List EvalError} {result : Except ε α} {run run' : Except ε α × Context}
    (hresult : ∀ e, result ≠ .error (raise e))
    (hrun : run = (match failures.head? with
      | some e => .error (raise e)
      | none => result, strict))
    (hrun' : run' = (result, collecting.collecting (collecting.errors ++ failures))) :
    Concurs raise failures strict collecting run run' := by
  subst hrun hrun'
  cases failures with
  | nil => exact ⟨fun e ↦ ⟨fun h ↦ absurd h (hresult e), nofun⟩, fun _ ↦ rfl, rfl, hresult, rfl⟩
  | cons e failures =>
    refine ⟨fun e' ↦ ⟨fun h ↦ ?_, fun h ↦ ?_⟩, nofun, rfl, hresult, rfl⟩
    · exact congrArg some (injective (Except.error.inj h))
    · cases h
      rfl

namespace Context.Counterparts

variable (h : strict.Counterparts collecting)

include h

theorem withStrict_eq : strict.withStrict false = collecting.collecting strict.errors := by
  obtain ⟨-, hcollects, hvars, hcoercions⟩ := h
  cases strict
  cases collecting
  simp_all [withStrict, Context.collecting]

theorem failures_eq (p : Predicate) : p.failures strict = p.failures collecting := by
  change p.failures (strict.withStrict false) = _
  rw [h.withStrict_eq]
  rfl

theorem holds_eq (p : Predicate) : p.holds (strict.withStrict false) = p.holds collecting := by
  rw [h.withStrict_eq, Predicate.holds, p.eval_collecting h.collects]

theorem eval_eq (p : Predicate) :
    p.eval collecting =
      (.ok (p.holds collecting),
        collecting.collecting (collecting.errors ++ p.failures collecting)) :=
  p.eval_collecting h.collects collecting.errors

theorem concurs_eval (p : Predicate) :
    Concurs id (p.failures collecting) strict collecting (p.eval strict) (p.eval collecting) := by
  have hstrict := p.eval_strict h.stops
  rw [h.failures_eq, h.holds_eq] at hstrict
  exact .of_eq id (fun _ h ↦ by cases h) hstrict (h.eval_eq p)

theorem isActive_eq (entry : FieldEntry) :
    entry.isActive (strict.withStrict false) = entry.isActive collecting := by
  unfold FieldEntry.isActive
  simp only [h.holds_eq]

theorem failuresIn_eq (text : String) :
    Predicate.failuresIn text strict = Predicate.failuresIn text collecting := by
  unfold Predicate.failuresIn
  simp only [h.failures_eq]

theorem outcome_eq (fields : Json.Fields) (entries : List FieldEntry) :
    Manifest.outcome (strict.withStrict false) fields entries =
      Manifest.outcome collecting fields entries := by
  unfold Manifest.outcome
  simp only [h.isActive_eq]

theorem entryFailures_eq (entries : List FieldEntry) :
    Manifest.failures strict entries = Manifest.failures collecting entries := by
  unfold Manifest.failures FieldEntry.failures
  simp only [h.failuresIn_eq]

section Cache

variable {cache : PredicateCache} (hcache : cache.Genuine)

include hcache

theorem concurs_evaluate (source : String) :
    Concurs .eval (Predicate.failuresIn source collecting) strict collecting
      (Evaluator.outcome (Evaluator.evaluate ⟨cache, strict⟩ source))
      (Evaluator.outcome (Evaluator.evaluate ⟨cache, collecting⟩ source)) := by
  cases hparse : Predicate.parse (Text.trimString source) with
  | error error =>
    rw [Predicate.failuresIn_of_parse_error hparse,
      Evaluator.evaluate_of_parse_error hcache _ hparse,
      Evaluator.evaluate_of_parse_error hcache _ hparse]
    refine .of_eq PredicateError.eval.inj (fun e h ↦ ?_) rfl (by simp [Evaluator.outcome])
    exact Predicate.parse_ne_eval hparse e (Except.error.inj h)
  | ok p =>
    rw [Predicate.failuresIn_of_parse hparse, Evaluator.evaluate_of_parse hcache _ hparse,
      Evaluator.evaluate_of_parse hcache _ hparse, p.eval_strict h.stops, h.eval_eq, h.failures_eq,
      h.holds_eq]
    refine .of_eq PredicateError.eval.inj (fun _ h ↦ by cases h) ?_ rfl
    cases (p.failures collecting).head? <;> rfl

theorem concurs_effective (document : Json.Fields) :
    Concurs .eval (Manifest.failures collecting (FieldEntry.all document)) strict collecting
      (Evaluator.outcome (Manifest.effective document ⟨cache, strict⟩))
      (Evaluator.outcome (Manifest.effective document ⟨cache, collecting⟩)) := by
  obtain ⟨_, hstrict⟩ :=
    Manifest.effectiveFrom_strict h.stops (FieldEntry.all document) hcache []
  obtain ⟨_, hcollecting⟩ := Manifest.effectiveFrom_collecting h.collects (FieldEntry.all document)
    hcache [] collecting.errors
  rw [h.entryFailures_eq, h.outcome_eq] at hstrict
  rw [Context.collecting_self] at hcollecting
  rw [Manifest.effective, Manifest.effective, hstrict, hcollecting]
  exact .of_eq PredicateError.eval.inj (Manifest.outcome_ne_eval collecting [] _) rfl rfl

/-- In contexts that differ in nothing else a strict run ends with the first error that the other
run collects, and where that one collects none both give the same. This holds of predicates, of
their texts and of the fields of a document. -/
theorem concur :
    (∀ p : Predicate,
      Concurs id (p.failures collecting) strict collecting (p.eval strict) (p.eval collecting)) ∧
    (∀ source,
      Concurs .eval (Predicate.failuresIn source collecting) strict collecting
        (Evaluator.outcome (Evaluator.evaluate ⟨cache, strict⟩ source))
        (Evaluator.outcome (Evaluator.evaluate ⟨cache, collecting⟩ source))) ∧
    ∀ document,
      Concurs .eval (Manifest.failures collecting (FieldEntry.all document)) strict collecting
        (Evaluator.outcome (Manifest.effective document ⟨cache, strict⟩))
        (Evaluator.outcome (Manifest.effective document ⟨cache, collecting⟩)) :=
  ⟨h.concurs_eval, h.concurs_evaluate hcache, h.concurs_effective hcache⟩

end Cache

end Context.Counterparts

namespace Manifest

def faulty : String :=
  "\x7b\"cfg(level > high)\":\x7b\"main\":\"m\",\"files\":\"f\"\x7d," ++
  "\"cfg(dev or missing == 1).main\":\"n\",\"cfg(dev and)\":\x7b\"main\":\"o\"\x7d," ++
  "\"cfg(absent == 1).main\":\"p\"\x7d"

theorem concur_faulty :
    let strict := (workshop.set "level" (.int 3)).withStrict true
    let collecting := (strict.withStrict false).collecting [⟨"old", .notSet "old"⟩]
    let cache := (PredicateCache.empty.parse " dev ").2
    let unanswered : EvalError :=
      ⟨"level > high", .coercion "high" .int "invalid digit found in string"⟩
    ∃ document, Json.read? faulty = some (.object document) ∧
      strict.Counterparts collecting ∧ cache.Genuine ∧
      (effective document ⟨cache, strict⟩).1 = .error (.eval unanswered) ∧
      (effective document ⟨cache, collecting⟩).2.context.errors =
        [⟨"old", .notSet "old"⟩, unanswered, unanswered, ⟨"missing == 1", .notSet "missing"⟩] := by
  intro strict collecting cache unanswered
  have hcheck : (Json.read? faulty).any fun value ↦
      (ofJson value none).toOption.any fun (manifest : Manifest) ↦
        failures collecting (FieldEntry.all manifest.document) =
          [unanswered, unanswered, ⟨"missing == 1", .notSet "missing"⟩] := by
    decide +kernel
  obtain ⟨value, hread, hcheck⟩ := (Option.any_eq_true ..).1 hcheck
  cases value with
  | object document =>
    have hfailures := of_decide_eq_true hcheck
    have h : strict.Counterparts collecting := ⟨rfl, rfl, rfl, rfl⟩
    have hcache : cache.Genuine := (PredicateCache.genuine_empty.parse " dev ").2
    obtain ⟨-, -, hdocument⟩ := h.concur hcache
    obtain ⟨raised, -, -, -, collected⟩ := hdocument document
    refine ⟨document, hread, h, hcache, (raised unanswered).2 (by rw [hfailures]; rfl), ?_⟩
    rw [show (effective document ⟨cache, collecting⟩).2.context = _ from collected, hfailures]
    rfl
  | _ => cases hcheck

end Manifest

end Lading
