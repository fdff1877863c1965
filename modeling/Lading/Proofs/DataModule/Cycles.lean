import Lading.Session.Script
import Lading.Proofs.DataModule.Returns
import Lading.Proofs.Results
import Lading.Proofs.Session.Cycles

namespace Lading.DataModule

variable {μ : Type}

theorem hooks_indifferent {observer : Option (Observer μ)}
    (hobserver : ∀ observe, observer = some observe → observe.Indifferent) :
    (hooks observer).Indifferent where
  body _ _ := rfl
  rest s _ := by
    refine body_shape trivial (fun _ ↦ trivial) (fun _ _ _ h ↦ h) (fun _ _ h result ↦ ?_) s
    cases result with
    | error error => trivial
    | ok => exact h
  observer := hobserver
  depth _ := rfl

open Point History

/-- A require in a new session, and the same one where cycles are errors. Both return. If the first
meets no cycle, they have the same answer and all else is the same as well; if it meets some, the
second fails with the first of these, whatever the answer of the first is. -/
theorem require_strictCycles (observer : Option (Observer μ))
    (hobserver : ∀ observe, observer = some observe → observe.Indifferent) (config : Config)
    (files : FileTree) (finders : List Finder) (memory : μ) (reference : String) :
    ∃ r t r' t' met,
      (Session.start { config with strictCycles := false } files finders memory).require
        (hooks observer) reference none true = some (r, t) ∧
      (Session.start { config with strictCycles := true } files finders memory).require
        (hooks observer) reference none true = some (r', t') ∧
      (idle (.start { config with strictCycles := false } files finders memory)).Meets
        (hooks observer) met (idle t) ∧
      cycles t.journal = met ∧
      (met = [] → r' = r ∧ t' = t.strictly) ∧
      ∀ m identifier, met.head? = some (m, identifier) →
        identifier = t.identifier m ∧ r' = .error (.cyclicRequire identifier) := by
  have hsound := Session.sound_start { config with strictCycles := false } files finders memory
  obtain ⟨r, t, ht⟩ := returns_require hsound rfl observer reference none true
  have hp := sound_idle hsound rfl
  obtain ⟨met, hmeets, hmet⟩ := (Session.require_steps ht).meets hp rfl
  have hmet' : cycles t.journal = met := hmet
  have hmirrors :=
    Session.require_mirrors (hooks_indifferent hobserver) (hooks_forwards observer) ht
  generalize hrun : Session.require _ (Session.strictly _) _ _ _ = run at hmirrors
  cases hmirrors with
  | same h =>
    refine ⟨r, t, r, t.strictly, met, ht, hrun, hmeets, hmet', fun _ ↦ ⟨rfl, rfl⟩, ?_⟩
    intro m identifier hhead
    rw [← hmet', h] at hhead
    cases hhead
  | @cycle m identifier rest h t' =>
    have hfirst : met = (m, identifier) :: rest := hmet'.symm.trans h
    refine ⟨r, t, _, t', met, ht, hrun, hmeets, hmet', ?_, ?_⟩
    · rw [hfirst]
      exact nofun
    · intro n identifier' hhead
      rw [hfirst] at hhead
      cases hhead
      obtain ⟨-, hidentifier⟩ := hmeets.identifier hp (hfirst ▸ List.mem_cons_self)
      exact ⟨hidentifier, rfl⟩

/-- Two modules that require each other, of which the second also requires one that is missing. -/
def broken : FileTree :=
  .ofTexts
    [("/r/p/nnp.json", "\x7b\"name\":\"p\",\"version\":\"1.0.0\"\x7d"),
      ("/r/p/a.json", "\x7b\"require\":[\"./b\"]\x7d"),
      ("/r/p/b.json", "\x7b\"require\":[\"./a\",\"./b\",\"q\"]\x7d")]

def brokenSession (strictCycles : Bool) : Session Transcript :=
  .start { Config.standard "/work" "/home" with strictCycles } broken [.directory "/r"] .empty

theorem require_strictCycles_broken :
    ∃ t t',
      (brokenSession false).require (hooks (some (Script.observer false []))) "p/a" none true =
        some (.error (.execution "p@1.0.0/a"
          (.execution "p@1.0.0/b" (.packageNotFound "q" .any))), t) ∧
      (brokenSession true).require (hooks (some (Script.observer false []))) "p/a" none true =
        some (.error (.cyclicRequire "p@1.0.0/a"), t') ∧
      cycles t.journal = [(⟨0⟩, "p@1.0.0/a"), (⟨1⟩, "p@1.0.0/b")] := by
  have hrun : ((brokenSession false).require (hooks (some (Script.observer false [])))
      "p/a" none true).any fun (r, t) ↦
        error? r = some (.execution "p@1.0.0/a"
          (.execution "p@1.0.0/b" (.packageNotFound "q" .any))) ∧
        cycles t.journal = [(⟨0⟩, "p@1.0.0/a"), (⟨1⟩, "p@1.0.0/b")] := by
    decide +kernel
  have hindifferent (observe : Observer Transcript)
      (h : some (Script.observer false []) = some observe) : observe.Indifferent := by
    cases h
    exact fun _ _ _ ↦ rfl
  obtain ⟨r, t, r', t', met, ht, ht', -, hmet, -, hfirst⟩ :=
    require_strictCycles (some (Script.observer false [])) hindifferent
      (Config.standard "/work" "/home") broken [.directory "/r"] .empty "p/a"
  change (brokenSession false).require _ _ _ _ = _ at ht
  rw [ht, Option.any_some, decide_eq_true_eq] at hrun
  obtain ⟨hr, hcycles⟩ := hrun
  cases r with
  | ok m => cases hr
  | error error =>
    cases hr
    obtain ⟨-, rfl⟩ := hfirst ⟨0⟩ "p@1.0.0/a" (by rw [← hmet, hcycles]; rfl)
    exact ⟨t, t', ht, ht', hcycles⟩

end Lading.DataModule
