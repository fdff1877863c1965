import Lading.Entries
import Lading.Predicate.Eval

namespace Lading

inductive PredicateError
  | invalid (input : String) (mismatch : Predicate.Mismatch)
  | eval (error : EvalError)
deriving DecidableEq, Repr

def PredicateError.message : PredicateError → String
  | .invalid input m =>
    s!"invalid cfg predicate '{input}': expected {m.expected.description} at offset {m.offset}, "
      ++ s!"found {m.found}"
  | .eval error => error.message

def Predicate.parse (input : String) : Except PredicateError Predicate :=
  (read input.toList).mapError (.invalid input)

/-- A predicate held by a cache. Two of them are one and the same if their numbers agree. -/
structure CachedPredicate where
  number : Nat
  predicate : Predicate
deriving DecidableEq, Repr

structure PredicateCache where
  entries : Entries CachedPredicate
  issued : Nat

namespace PredicateCache

def empty : PredicateCache := ⟨[], 0⟩

def size (cache : PredicateCache) : Nat := cache.entries.length

def clear (cache : PredicateCache) : PredicateCache := { cache with entries := [] }

def parse (cache : PredicateCache) (source : String) :
    Except PredicateError CachedPredicate × PredicateCache :=
  let key := Text.trimString source
  match cache.entries.get? key with
  | some held => (.ok held, cache)
  | none =>
    match Predicate.parse key with
    | .error e => (.error e, cache)
    | .ok predicate =>
      let held := ⟨cache.issued, predicate⟩
      (.ok held, ⟨cache.entries.put key held, cache.issued + 1⟩)

end PredicateCache

structure Evaluator where
  cache : PredicateCache
  context : Context

def Evaluator.evaluate (e : Evaluator) (source : String) :
    Except PredicateError Bool × Evaluator :=
  match e.cache.parse source with
  | (.error error, cache) => (.error error, { e with cache })
  | (.ok held, cache) =>
    match held.predicate.eval e.context with
    | (.error error, context) => (.error (.eval error), { cache, context })
    | (.ok answer, context) => (.ok answer, { cache, context })

end Lading
