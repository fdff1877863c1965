import Lading.Predicate.Cache
import Lading.Proofs.Results

namespace Lading

namespace Context

def collecting (c : Context) (errors : List EvalError) : Context := { c with errors }

@[simp] theorem collecting_self (c : Context) : c.collecting c.errors = c := rfl

theorem compare_collecting (c : Context) (errors : List EvalError) (name : String)
    (comparison : Comparison) (literal : String) :
    (c.collecting errors).compare name comparison literal = c.compare name comparison literal := rfl

theorem fail_collecting {c : Context} (hc : c.strict = false) (errors : List EvalError)
    (e : EvalError) :
    (c.collecting errors).fail e = (.ok false, c.collecting (errors ++ [e])) := by
  simp [fail, collecting, hc]

theorem fail_strict {c : Context} (hc : c.strict = true) (e : EvalError) :
    c.fail e = (.error e, c) := by
  simp [fail, hc]

end Context

namespace Predicate

def comparisons : Predicate → List (String × Comparison × String)
  | .atom _ => []
  | .compared name comparison literal => [(name, comparison, literal)]
  | .joined left _ right => left.comparisons ++ right.comparisons

/-- The errors of those comparisons of a predicate that have no answer, from left to right. -/
def failures (p : Predicate) (c : Context) : List EvalError :=
  p.comparisons.filterMap fun (name, comparison, literal) ↦
    (error? (c.compare name comparison literal)).map fun reason ↦
      ⟨toString (Predicate.compared name comparison literal), reason⟩

theorem failures_joined (left : Predicate) (connective : Connective) (right : Predicate)
    (c : Context) :
    (joined left connective right).failures c = left.failures c ++ right.failures c := by
  simp [failures, comparisons]

theorem failures_of_ok {c : Context} {name literal : String} {comparison : Comparison}
    {answer : Bool} (h : c.compare name comparison literal = .ok answer) :
    (compared name comparison literal).failures c = [] := by
  simp [failures, comparisons, h, error?]

theorem failures_of_error {c : Context} {name literal : String} {comparison : Comparison}
    {reason : EvalReason} (h : c.compare name comparison literal = .error reason) :
    (compared name comparison literal).failures c =
      [⟨toString (compared name comparison literal), reason⟩] := by
  simp [failures, comparisons, h, error?]

def holds (p : Predicate) (c : Context) : Bool :=
  match (p.eval c).1 with
  | .ok answer => answer
  | .error _ => false

theorem exists_eval_collecting (p : Predicate) {c : Context} (hc : c.strict = false) :
    ∃ answer, ∀ errors,
      p.eval (c.collecting errors) = (.ok answer, c.collecting (errors ++ p.failures c)) := by
  induction p with
  | atom name =>
    refine ⟨c.isSet name, fun errors ↦ ?_⟩
    simp [eval, failures, comparisons, Context.isSet, Context.collecting]
  | compared name comparison literal =>
    cases hcompare : c.compare name comparison literal with
    | ok answer =>
      refine ⟨answer, fun errors ↦ ?_⟩
      simp [eval, Context.compare_collecting, hcompare, failures_of_ok hcompare]
    | error reason =>
      refine ⟨false, fun errors ↦ ?_⟩
      simp only [eval, Context.compare_collecting, hcompare, Context.fail_collecting hc,
        failures_of_error hcompare]
  | joined left connective right ihl ihr =>
    obtain ⟨a, hl⟩ := ihl
    obtain ⟨b, hr⟩ := ihr
    refine ⟨connective.apply a b, fun errors ↦ ?_⟩
    simp only [eval, hl, hr, failures_joined, List.append_assoc]

/-- Where errors are collected a predicate is always answered, in the same way whatever was
collected before, and each comparison without an answer is met. -/
theorem eval_collecting (p : Predicate) {c : Context} (hc : c.strict = false)
    (errors : List EvalError) :
    p.eval (c.collecting errors) = (.ok (p.holds c), c.collecting (errors ++ p.failures c)) := by
  obtain ⟨answer, h⟩ := p.exists_eval_collecting hc
  have hself := h c.errors
  rw [Context.collecting_self] at hself
  have hholds : p.holds c = answer := by rw [holds, hself]
  rw [h, hholds]

theorem holds_joined (left right : Predicate) (connective : Connective) {c : Context}
    (hc : c.strict = false) :
    (joined left connective right).holds c = connective.apply (left.holds c) (right.holds c) := by
  have hl := left.eval_collecting hc c.errors
  have hr := right.eval_collecting hc (c.errors ++ left.failures c)
  rw [Context.collecting_self] at hl
  rw [holds, eval, hl]
  simp only [hr]

/-- A strict evaluation ends with the error of the first comparison without an answer. If there is
none it gives what a collecting one gives. -/
theorem eval_strict (p : Predicate) {c : Context} (hc : c.strict = true) :
    p.eval c =
      (match (p.failures c).head? with
        | some e => .error e
        | none => .ok (p.holds (c.withStrict false)), c) := by
  induction p with
  | atom name => rfl
  | compared name comparison literal =>
    cases hcompare : c.compare name comparison literal with
    | ok answer =>
      have hlenient : (c.withStrict false).compare name comparison literal = .ok answer := hcompare
      simp [eval, holds, hcompare, hlenient, failures_of_ok hcompare]
    | error reason =>
      simp [eval, hcompare, failures_of_error hcompare, Context.fail_strict hc]
  | joined left connective right ihl ihr =>
    rw [failures_joined, List.head?_append, holds_joined _ _ _ rfl, eval, ihl]
    cases (left.failures c).head? with
    | some e => rfl
    | none =>
      simp only [ihr]
      cases (right.failures c).head? <;> rfl

def failuresIn (text : String) (c : Context) : List EvalError :=
  match parse (Text.trimString text) with
  | .ok p => p.failures c
  | .error _ => []

theorem failuresIn_of_parse {text : String} {p : Predicate}
    (h : parse (Text.trimString text) = .ok p) (c : Context) :
    failuresIn text c = p.failures c := by
  simp [failuresIn, h]

theorem failuresIn_of_parse_error {text : String} {error : PredicateError}
    (h : parse (Text.trimString text) = .error error) (c : Context) : failuresIn text c = [] := by
  simp [failuresIn, h]

theorem parse_ne_eval {text : String} {error : PredicateError} (h : parse text = .error error)
    (e : EvalError) : error ≠ .eval e := by
  unfold parse at h
  cases hread : read text.toList with
  | error mismatch =>
    rw [hread] at h
    cases h
    exact nofun
  | ok p =>
    rw [hread] at h
    cases h

end Predicate

namespace PredicateCache

/-- What a cache holds under a text is what the text reads as. -/
def Genuine (cache : PredicateCache) : Prop :=
  ∀ key held, cache.entries.get? key = some held → Predicate.parse key = .ok held.predicate

theorem genuine_empty : empty.Genuine := fun _ _ h ↦ by cases h

theorem genuine_clear (cache : PredicateCache) : cache.clear.Genuine := fun _ _ h ↦ by cases h

theorem Genuine.parse {cache : PredicateCache} (hcache : cache.Genuine) (source : String) :
    (cache.parse source).1.map (·.predicate) = Predicate.parse (Text.trimString source) ∧
      (cache.parse source).2.Genuine := by
  unfold PredicateCache.parse
  dsimp only
  cases hheld : cache.entries.get? (Text.trimString source) with
  | some held => exact ⟨(hcache _ held hheld).symm, hcache⟩
  | none =>
    cases hparse : Predicate.parse (Text.trimString source) with
    | error e => exact ⟨rfl, hcache⟩
    | ok p =>
      refine ⟨rfl, ?_⟩
      intro key held h
      dsimp only at h
      rw [Entries.get?_put] at h
      split at h
      · rename_i hkey
        cases h
        rw [← hkey, hparse]
      · exact hcache key held h

end PredicateCache

namespace Evaluator

variable {cache : PredicateCache} {source : String}

theorem evaluate_of_parse (hcache : cache.Genuine) (c : Context) {p : Predicate}
    (hparse : Predicate.parse (Text.trimString source) = .ok p) :
    evaluate ⟨cache, c⟩ source =
      ((p.eval c).1.mapError .eval, ⟨(cache.parse source).2, (p.eval c).2⟩) := by
  obtain ⟨hresult, -⟩ := hcache.parse source
  rw [hparse] at hresult
  unfold evaluate
  cases hcached : cache.parse source with
  | mk result cache' =>
    rw [hcached] at hresult
    cases result with
    | error e => cases hresult
    | ok held =>
      have hpredicate : held.predicate = p := Except.ok.inj hresult
      rw [← hpredicate]
      cases heval : held.predicate.eval c with
      | mk answer c' => cases answer <;> simp [heval]

theorem evaluate_of_parse_error (hcache : cache.Genuine) (c : Context) {error : PredicateError}
    (hparse : Predicate.parse (Text.trimString source) = .error error) :
    evaluate ⟨cache, c⟩ source = (.error error, ⟨(cache.parse source).2, c⟩) := by
  obtain ⟨hresult, -⟩ := hcache.parse source
  rw [hparse] at hresult
  unfold evaluate
  cases hcached : cache.parse source with
  | mk result cache' =>
    rw [hcached] at hresult
    cases result with
    | error e =>
      cases hresult
      rfl
    | ok held => cases hresult

theorem cache_evaluate (e : Evaluator) (source : String) :
    (e.evaluate source).2.cache = (e.cache.parse source).2 := by
  unfold evaluate
  cases e.cache.parse source with
  | mk result cache =>
    cases result with
    | error error => rfl
    | ok held =>
      dsimp only
      cases held.predicate.eval e.context with
      | mk answer context => cases answer <;> rfl

end Evaluator

end Lading
