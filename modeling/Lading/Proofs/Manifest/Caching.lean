import Lading.Proofs.Manifest.Strictness
import Lading.Proofs.Predicate.Cache

namespace Lading

section Caches

variable {cache cache' : PredicateCache} (hcache : cache.Genuine) (hcache' : cache'.Genuine)

include hcache hcache'

theorem Evaluator.outcome_evaluate (c : Context) (source : String) :
    outcome (evaluate ⟨cache, c⟩ source) = outcome (evaluate ⟨cache', c⟩ source) := by
  cases hparse : Predicate.parse (Text.trimString source) with
  | error error =>
    rw [evaluate_of_parse_error hcache c hparse, evaluate_of_parse_error hcache' c hparse]
    rfl
  | ok p =>
    rw [evaluate_of_parse hcache c hparse, evaluate_of_parse hcache' c hparse]
    rfl

theorem Manifest.outcome_effective (c : Context) (document : Json.Fields) :
    Evaluator.outcome (effective document ⟨cache, c⟩) =
      Evaluator.outcome (effective document ⟨cache', c⟩) := by
  cases hc : c.strict with
  | true =>
    obtain ⟨_, h⟩ := effectiveFrom_strict hc (FieldEntry.all document) hcache []
    obtain ⟨_, h'⟩ := effectiveFrom_strict hc (FieldEntry.all document) hcache' []
    rw [effective, effective, h, h']
    rfl
  | false =>
    obtain ⟨_, h⟩ := effectiveFrom_collecting hc (FieldEntry.all document) hcache [] c.errors
    obtain ⟨_, h'⟩ := effectiveFrom_collecting hc (FieldEntry.all document) hcache' [] c.errors
    rw [Context.collecting_self] at h h'
    rw [effective, effective, h, h']
    rfl

end Caches

namespace PredicateCache

structure Transparent (history : List Request) : Prop where
  reads : ∀ source, ((after history).parse source).1.map (·.predicate) =
    Predicate.parse (Text.trimString source)
  answers : ∀ source p, ((after history).parse source).1.map (·.predicate) = .ok p ↔
    Predicate.parse source = .ok p
  failed : ∀ source error, ((after history).parse source).1 = .error error →
    ((after history).parse source).2 = after history
  size : (after history).size = (textsRead history).eraseDups.length
  /-- Two answers are one and the same exactly if the texts are the same but for blanks at their
  ends, and the cache was not cleared between them. -/
  identical : ∀ before source between source' held held',
    history = before ++ .parse source :: between →
    ((after before).parse source).1 = .ok held → ((after history).parse source').1 = .ok held' →
    (held.number = held'.number ↔
      Text.trimString source = Text.trimString source' ∧ .clear ∉ between) ∧
    (held.number = held'.number → held = held')
  evaluate : ∀ history' c source,
    Evaluator.outcome (Evaluator.evaluate ⟨after history, c⟩ source) =
      Evaluator.outcome (Evaluator.evaluate ⟨after history', c⟩ source)
  effective : ∀ history' c document,
    Evaluator.outcome (Manifest.effective document ⟨after history, c⟩) =
      Evaluator.outcome (Manifest.effective document ⟨after history', c⟩)

/-- A cache can be seen in nothing but the sameness of its answers. After every history it reads
texts as they are read without it, and evaluation through it gives the same results and errors. -/
theorem transparent_after (history : List Request) : Transparent history := by
  have hcache := genuine_after history
  constructor
  case reads => exact fun source ↦ (hcache.parse source).1
  case answers => exact fun source p ↦ hcache.parse_map_eq_ok_iff
  case failed => exact fun source error ↦ parse_failed
  case size => exact size_after history
  case identical =>
    rintro before source between source' held held' rfl h h'
    exact ⟨number_eq_iff h h', eq_of_number_eq h h'⟩
  case evaluate =>
    exact fun history' ↦ Evaluator.outcome_evaluate hcache (genuine_after history')
  case effective =>
    exact fun history' ↦ Manifest.outcome_effective hcache (genuine_after history')

def revisited : List Request := [.parse " dev ", .parse "dev and", .clear]

theorem transparent_revisited :
    ∃ first second third, ((after []).parse " dev ").1 = .ok first ∧
      ((after (revisited.take 2)).parse "dev").1 = .ok second ∧
      ((after revisited).parse "dev\t").1 = .ok third ∧
      (after (revisited.take 2)).size = 1 ∧ first.number = second.number ∧
      first.number ≠ third.number ∧ first.predicate = third.predicate := by
  have hanswers : (((after []).parse " dev ").1.toOption.isSome ∧
      ((after (revisited.take 2)).parse "dev").1.toOption.isSome ∧
      ((after revisited).parse "dev\t").1.toOption.isSome) ∧
      (textsRead (revisited.take 2)).eraseDups.length = 1 ∧
      (Predicate.parse (Text.trimString " dev ")).toOption =
        (Predicate.parse (Text.trimString "dev\t")).toOption := by
    decide +kernel
  obtain ⟨⟨hfirst, hsecond, hthird⟩, hsize, hsame⟩ := hanswers
  obtain ⟨first, hfirst⟩ := ok_of_isSome_toOption hfirst
  obtain ⟨second, hsecond⟩ := ok_of_isSome_toOption hsecond
  obtain ⟨third, hthird⟩ := ok_of_isSome_toOption hthird
  have htwice := transparent_after (revisited.take 2)
  have hcleared := transparent_after revisited
  have hidentical := (htwice.identical [] _ _ _ _ _ rfl hfirst hsecond).1
  have hdifferent := (hcleared.identical [] _ _ _ _ _ rfl hfirst hthird).1
  refine ⟨first, second, third, hfirst, hsecond, hthird, htwice.size.trans hsize,
    hidentical.2 (by decide), fun hnumber ↦ ?_, ?_⟩
  · exact absurd (hdifferent.1 hnumber).2 (by decide)
  · rw [← (transparent_after []).reads, ← hcleared.reads, hfirst, hthird] at hsame
    exact Option.some.inj hsame

end PredicateCache

end Lading
