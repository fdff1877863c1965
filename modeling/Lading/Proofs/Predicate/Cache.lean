import Lading.Proofs.Json.Merge
import Lading.Proofs.Predicate.Blanks
import Lading.Proofs.Predicate.Evaluation
import Mathlib.Data.List.DropRight

namespace Lading.PredicateCache

inductive Request
  | parse (source : String)
  | clear
deriving DecidableEq, Repr

def serve (cache : PredicateCache) : Request → PredicateCache
  | .parse source => (cache.parse source).2
  | .clear => cache.clear

def after (history : List Request) : PredicateCache := history.foldl serve .empty

def Request.text? : Request → Option String
  | .parse source =>
    if (Predicate.parse source).toOption.isSome then some (Text.trimString source) else none
  | .clear => none

/-- The texts that were read since the cache was cleared for the last time. -/
def textsRead (history : List Request) : List String :=
  (history.rtakeWhile (· ≠ .clear)).filterMap Request.text?

theorem after_concat (history : List Request) (request : Request) :
    after (history ++ [request]) = (after history).serve request := by
  simp [after]

variable {cache : PredicateCache} {source key : String} {held : CachedPredicate}

/-- What reading through a cache can do: the text is known, or it does not read, or it is new. -/
theorem parse_cases (cache : PredicateCache) (source : String) :
    (∃ held, cache.entries.get? (Text.trimString source) = some held ∧
        cache.parse source = (.ok held, cache)) ∨
      (∃ error, Predicate.parse (Text.trimString source) = .error error ∧
        cache.parse source = (.error error, cache)) ∨
      ∃ p, cache.entries.get? (Text.trimString source) = none ∧
        Predicate.parse (Text.trimString source) = .ok p ∧
        cache.parse source = (.ok ⟨cache.issued, p⟩,
          ⟨cache.entries.put (Text.trimString source) ⟨cache.issued, p⟩, cache.issued + 1⟩) := by
  unfold PredicateCache.parse
  dsimp only
  cases hheld : cache.entries.get? (Text.trimString source) with
  | some held => exact .inl ⟨held, rfl, rfl⟩
  | none =>
    cases hparse : Predicate.parse (Text.trimString source) with
    | error error => exact .inr (.inl ⟨error, rfl, rfl⟩)
    | ok p => exact .inr (.inr ⟨p, rfl, rfl, rfl⟩)

theorem parse_failed {error : PredicateError} (h : (cache.parse source).1 = .error error) :
    (cache.parse source).2 = cache := by
  obtain ⟨held, -, hparse⟩ | ⟨e, -, hparse⟩ | ⟨p, -, -, hparse⟩ := parse_cases cache source
  · rw [hparse]
  · rw [hparse]
  · rw [hparse] at h
    cases h

theorem get?_of_parse (h : (cache.parse source).1 = .ok held) :
    (cache.parse source).2.entries.get? (Text.trimString source) = some held := by
  obtain ⟨held', hheld, hparse⟩ | ⟨e, -, hparse⟩ | ⟨p, -, -, hparse⟩ := parse_cases cache source
  · rw [hparse] at h ⊢
    cases h
    exact hheld
  · rw [hparse] at h
    cases h
  · rw [hparse] at h ⊢
    cases h
    rw [Entries.get?_put, if_pos rfl]

theorem get?_parse (cache : PredicateCache) (source key : String) :
    (cache.parse source).2.entries.get? key = cache.entries.get? key ∨
      cache.entries.get? key = none ∧ key = Text.trimString source ∧
        (cache.parse source).2.issued = cache.issued + 1 ∧
        ∃ p, (cache.parse source).2.entries.get? key = some ⟨cache.issued, p⟩ := by
  obtain ⟨held', -, hparse⟩ | ⟨e, -, hparse⟩ | ⟨p, hnew, -, hparse⟩ := parse_cases cache source
  · exact .inl (by rw [hparse])
  · exact .inl (by rw [hparse])
  · rw [hparse, Entries.get?_put]
    by_cases hkey : Text.trimString source = key
    · exact .inr ⟨hkey ▸ hnew, hkey.symm, rfl, p, if_pos hkey⟩
    · exact .inl (if_neg hkey)

theorem get?_parse_of_some (h : cache.entries.get? key = some held) (source : String) :
    (cache.parse source).2.entries.get? key = some held := by
  obtain hsame | ⟨hnone, -⟩ := get?_parse cache source key
  · rw [hsame, h]
  · rw [h] at hnone
    cases hnone

theorem issued_le_parse (cache : PredicateCache) (source : String) :
    cache.issued ≤ (cache.parse source).2.issued := by
  obtain ⟨held', -, hparse⟩ | ⟨e, -, hparse⟩ | ⟨p, -, -, hparse⟩ := parse_cases cache source
  · rw [hparse]
  · rw [hparse]
  · rw [hparse]
    exact Nat.le_succ _

/-- The numbers in a cache were issued, and no two texts have the same one. -/
structure Numbered (cache : PredicateCache) : Prop where
  issued : ∀ key held, cache.entries.get? key = some held → held.number < cache.issued
  distinct : ∀ key key' held held', cache.entries.get? key = some held →
    cache.entries.get? key' = some held' → held.number = held'.number → key = key'

theorem numbered_empty : empty.Numbered := ⟨nofun, nofun⟩

theorem numbered_clear (cache : PredicateCache) : cache.clear.Numbered := ⟨nofun, nofun⟩

theorem Numbered.parse (hcache : cache.Numbered) (source : String) :
    (cache.parse source).2.Numbered := by
  have hissued := cache.issued_le_parse source
  constructor
  case issued =>
    intro key held h
    obtain hsame | ⟨-, -, hnext, p, hnew⟩ := get?_parse cache source key
    · have hold := hcache.issued key held (hsame ▸ h)
      omega
    · rw [hnew] at h
      cases h
      dsimp only
      omega
  case distinct =>
    intro key key' held held' h h' hnumber
    obtain hsame | ⟨-, hkey, -, p, hnew⟩ := get?_parse cache source key
    · rw [hsame] at h
      obtain hsame' | ⟨-, -, -, p', hnew'⟩ := get?_parse cache source key'
      · exact hcache.distinct key key' held held' h (hsame' ▸ h') hnumber
      · -- The number of `key'` is the one that was issued last.
        have hold := hcache.issued key held h
        rw [hnew'] at h'
        cases h'
        dsimp only at hnumber
        omega
    · rw [hnew] at h
      cases h
      obtain hsame' | ⟨-, hkey', -⟩ := get?_parse cache source key'
      · have hold := hcache.issued key' held' (hsame' ▸ h')
        dsimp only at hnumber
        omega
      · exact hkey.trans hkey'.symm

theorem Numbered.serve (hcache : cache.Numbered) (request : Request) :
    (cache.serve request).Numbered := by
  cases request with
  | parse source => exact hcache.parse source
  | clear => exact numbered_clear cache

theorem Genuine.serve (hcache : cache.Genuine) (request : Request) :
    (cache.serve request).Genuine := by
  cases request with
  | parse source => exact (hcache.parse source).2
  | clear => exact genuine_clear cache

theorem genuine_after (history : List Request) : (after history).Genuine := by
  induction history using List.reverseRecOn with
  | nil => exact genuine_empty
  | append_singleton history request ih =>
    rw [after_concat]
    exact ih.serve request

theorem numbered_after (history : List Request) : (after history).Numbered := by
  induction history using List.reverseRecOn with
  | nil => exact numbered_empty
  | append_singleton history request ih =>
    rw [after_concat]
    exact ih.serve request

theorem Genuine.parse_map_eq_ok_iff (hcache : cache.Genuine) {p : Predicate} :
    (cache.parse source).1.map (·.predicate) = .ok p ↔ Predicate.parse source = .ok p := by
  rw [(hcache.parse source).1, Predicate.parse_trimString]

theorem text?_of_parse {p : Predicate} (h : Predicate.parse (Text.trimString source) = .ok p) :
    (Request.parse source).text? = some (Text.trimString source) := by
  rw [Predicate.parse_trimString] at h
  simp [Request.text?, h, Except.toOption]

theorem text?_of_parse_error {error : PredicateError}
    (h : Predicate.parse (Text.trimString source) = .error error) :
    (Request.parse source).text? = none := by
  cases hparse : Predicate.parse source with
  | error => simp [Request.text?, hparse, Except.toOption]
  | ok p =>
    rw [(Predicate.parse_trimString source p).2 hparse] at h
    cases h

theorem keys_after (history : List Request) :
    (after history).entries.keys = (textsRead history).eraseDups := by
  induction history using List.reverseRecOn with
  | nil => rfl
  | append_singleton history request ih =>
    rw [after_concat]
    cases request with
    | clear =>
      rw [textsRead, List.rtakeWhile_concat_neg _ _ _ (by simp)]
      rfl
    | parse source =>
      have htexts : textsRead (history ++ [.parse source]) =
          textsRead history ++ (Request.parse source).text?.toList := by
        rw [textsRead, List.rtakeWhile_concat_pos _ _ _ (by simp), List.filterMap_append,
          ← textsRead, List.filterMap_cons, List.filterMap_nil]
        cases (Request.parse source).text? <;> rfl
      rw [htexts, serve]
      obtain ⟨held, hheld, hparse⟩ | ⟨error, hread, hparse⟩ | ⟨p, -, hread, hparse⟩ :=
        parse_cases (after history) source
      · have hknown : Text.trimString source ∈ textsRead history := by
          rw [← List.mem_eraseDups, ← ih, Entries.mem_keys, hheld]
          rfl
        rw [hparse, text?_of_parse (genuine_after history _ held hheld), Option.toList_some,
          Entries.eraseDups_concat, if_pos hknown, ih]
      · rw [hparse, text?_of_parse_error hread, Option.toList_none, List.append_nil, ih]
      · rw [hparse, text?_of_parse hread]
        exact Entries.keys_put_of_eraseDups ih _ _

theorem size_after (history : List Request) :
    (after history).size = (textsRead history).eraseDups.length := by
  rw [← keys_after, Entries.keys, List.length_map, size]

section Identity

variable {before between : List Request}

theorem get?_foldl_of_some (h : cache.entries.get? key = some held)
    (hbetween : .clear ∉ between) : (between.foldl serve cache).entries.get? key = some held := by
  induction between generalizing cache with
  | nil => exact h
  | cons request between ih =>
    rw [List.mem_cons, not_or] at hbetween
    cases request with
    | clear => exact absurd rfl hbetween.1
    | parse source => exact ih (get?_parse_of_some h source) hbetween.2

def Since (n : Nat) (cache : PredicateCache) : Prop :=
  n ≤ cache.issued ∧ ∀ key held, cache.entries.get? key = some held → n ≤ held.number

theorem Since.serve {n : Nat} (hcache : cache.Since n) (request : Request) :
    (cache.serve request).Since n := by
  obtain ⟨hissued, hheld⟩ := hcache
  cases request with
  | clear => exact ⟨hissued, nofun⟩
  | parse source =>
    refine ⟨hissued.trans (cache.issued_le_parse source), fun key held h ↦ ?_⟩
    obtain hsame | ⟨-, -, -, p, hnew⟩ := get?_parse cache source key
    · exact hheld key held (hsame ▸ h)
    · change (cache.parse source).2.entries.get? key = some held at h
      rw [hnew] at h
      cases h
      exact hissued

theorem Since.foldl {n : Nat} (hcache : cache.Since n) (between : List Request) :
    (between.foldl PredicateCache.serve cache).Since n := by
  induction between generalizing cache with
  | nil => exact hcache
  | cons request between ih => exact ih (hcache.serve request)

theorem since_of_clear {n : Nat} (hissued : n ≤ cache.issued) (hbetween : .clear ∈ between) :
    (between.foldl serve cache).Since n := by
  induction between generalizing cache with
  | nil => cases hbetween
  | cons request between ih =>
    cases request with
    | clear =>
      have hcleared : cache.clear.Since n := ⟨hissued, nofun⟩
      exact hcleared.foldl between
    | parse source =>
      have hlater : .clear ∈ between := by simpa using hbetween
      exact ih (hissued.trans (cache.issued_le_parse source)) hlater

theorem after_append (before : List Request) (source : String) (between : List Request) :
    after (before ++ .parse source :: between) =
      between.foldl serve ((after before).parse source).2 := by
  simp [after, serve]

section Answers

variable {source source' : String} {held held' : CachedPredicate}
  (h : ((after before).parse source).1 = .ok held)

include h

/-- What was answered is still known at a later answer, unless the cache was cleared between. -/
theorem get?_of_answer (source' : String) (hclear : .clear ∉ between) :
    ((after (before ++ .parse source :: between)).parse source').2.entries.get?
      (Text.trimString source) = some held := by
  rw [after_append]
  exact get?_parse_of_some (get?_foldl_of_some (get?_of_parse h) hclear) source'

variable (h' : ((after (before ++ .parse source :: between)).parse source').1 = .ok held')

include h'

theorem number_lt_of_clear (hclear : .clear ∈ between) : held.number < held'.number := by
  have hissued := ((numbered_after before).parse source).issued _ held (get?_of_parse h)
  have hsince := (since_of_clear hissued hclear).serve (.parse source')
  rw [← after_append] at hsince
  exact hsince.2 _ held' (get?_of_parse h')

/-- Two answers are one predicate exactly if the texts are the same but for blanks at their ends,
and the cache was not cleared between them. -/
theorem number_eq_iff : held.number = held'.number ↔
    Text.trimString source = Text.trimString source' ∧ .clear ∉ between := by
  have hheld' := get?_of_parse h'
  constructor
  · intro hnumber
    have hclear : .clear ∉ between := fun hclear ↦
      absurd hnumber (Nat.ne_of_lt (number_lt_of_clear h h' hclear))
    have hnumbered := (numbered_after (before ++ .parse source :: between)).parse source'
    exact ⟨hnumbered.distinct _ _ held held' (get?_of_answer h source' hclear) hheld' hnumber,
      hclear⟩
  · rintro ⟨htext, hclear⟩
    have hheld := get?_of_answer h source' hclear
    rw [htext, hheld'] at hheld
    cases hheld
    rfl

theorem eq_of_number_eq (hnumber : held.number = held'.number) : held = held' := by
  obtain ⟨htext, hclear⟩ := (number_eq_iff h h').1 hnumber
  have hheld := get?_of_answer h source' hclear
  rw [htext, get?_of_parse h'] at hheld
  exact (Option.some.inj hheld).symm

end Answers

end Identity

end Lading.PredicateCache
