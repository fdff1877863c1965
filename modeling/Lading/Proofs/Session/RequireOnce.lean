import Lading.Session.DataModule
import Lading.Proofs.Files.Tree
import Lading.Proofs.Session.Invariant

namespace Lading

variable {μ : Type} {hooks : Hooks μ} {p q : Point μ} {m : ModuleId}

namespace Point

def Starts (p q : Point μ) (m : ModuleId) : Prop :=
  p.control = .enter m ∧ ∃ b, q.control = .body m b

def Succeeds (p : Point μ) (m : ModuleId) : Prop := p.control = .body m .finish

theorem Step.of_starts (h : Step hooks p q) (hm : p.Starts q m) :
    p.session.stateOf m = .unexecuted ∧ q.session = p.session.begin m := by
  obtain ⟨hp, b, hq⟩ := hm
  cases h with
  | start h =>
    cases hp
    exact ⟨h, rfl⟩
  | pass | cycle => cases hq
  | _ => cases hp

theorem Step.of_succeeds (h : Step hooks p q) (hm : p.Succeeds m) :
    q.session = (p.session.settle m (.ok ())).2 := by
  cases h with
  | finish s w n =>
    cases hm
    rfl
  | _ => cases hm

theorem Sound.not_running (hp : p.Sound) (h : p.session.stateOf m = .unexecuted) :
    m ∉ p.session.stack := by
  rw [hp.faithful.mem_stack, h]
  decide

theorem Sound.not_succeeds (hp : p.Sound) (h : p.session.stateOf m = .executed) :
    ¬p.Succeeds m := by
  intro hm
  obtain ⟨s, w, c⟩ := p
  cases hm
  have hstack : s.stack = (w.map (·.module)).reverse ++ [m] := hp.stack
  have executing := hp.faithful.mem_stack.1 (by simp [hstack] : m ∈ s.stack)
  rw [show s.stateOf m = .executed from h] at executing
  cases executing

theorem Steps.executed {r : Point μ} (hp : p.Sound) (hm : p.Succeeds m) (h : Step hooks p q)
    (hsteps : Steps hooks q r) : r.session.stateOf m = .executed := by
  have hq := h.sound hp
  obtain ⟨g, hg⟩ := (hsteps.later hq).journal
  rw [← (hsteps.sound hq).faithful.finished_mem, hg, h.of_succeeds hm, Session.journal_settle]
  simp [Session.ending]

structure RunsOnce (hooks : Hooks μ) (p : Point μ) : Prop where
  apart : p.running.Nodup
  fresh : ∀ q m, Step hooks p q → p.Starts q m →
    p.session.stateOf m = .unexecuted ∧ m ∉ p.session.stack
  /-- After a success the module is executed for good, and its body neither starts nor succeeds
  again. -/
  forever : ∀ m, p.Succeeds m → ∀ q r, Step hooks p q → Steps hooks q r →
    r.session.stateOf m = .executed ∧ ¬r.Succeeds m ∧ ∀ t, Step hooks r t → ¬r.Starts t m
  single : (History.completions p.session.journal).Nodup
  retried : ∀ m before between after,
    p.session.journal = before ++ .started m :: between ++ .started m :: after →
    .failed m ∈ between
  required : ∀ s reference origin m t, p = idle s →
    s.require hooks reference origin true = some (.ok m, t) → t.stateOf m = .executed
  covered : ∀ s t, p = idle s →
    (∃ reference origin run r, s.require hooks reference origin run = some (r, t)) ∨
      (∃ m r, s.Knows m ∧ s.executeModule hooks m = some (r, t)) →
    Steps hooks p (idle t)

end Point

open Point

/-- Whatever bodies do and whatever the host asks for, the body of a module starts only while the
module neither runs nor ran, and after it came to its end it never starts again. -/
theorem runsOnce_of_steps {config : Config} {files : FileTree} {finders : List Finder} {memory : μ}
    (h : Steps hooks (idle (.start config files finders memory)) p) : RunsOnce hooks p := by
  have hp : p.Sound := h.sound (sound_idle (Session.sound_start ..) rfl)
  constructor
  case apart =>
    rw [← hp.stack]
    exact hp.faithful.stack_nodup
  case fresh =>
    intro q m hstep hm
    have unexecuted := (hstep.of_starts hm).1
    exact ⟨unexecuted, hp.not_running unexecuted⟩
  case forever =>
    intro m hm q r hstep hsteps
    have executed := Steps.executed hp hm hstep hsteps
    have hr := hsteps.sound (hstep.sound hp)
    refine ⟨executed, hr.not_succeeds executed, ?_⟩
    intro t ht hstarts
    rw [(ht.of_starts hstarts).1] at executed
    cases executed
  case single => exact hp.faithful.lawful.completions_nodup
  case retried =>
    intro m before between after hj
    exact (hj ▸ hp.faithful.lawful).failed_between
  case required =>
    rintro s reference origin m t rfl hrequire
    exact Session.stateOf_require hp.toSound hp.stack hrequire
  case covered =>
    rintro s t rfl (⟨reference, origin, run, r, hrequire⟩ | ⟨m, r, hm, hexecute⟩)
    · exact Session.require_steps hrequire
    · exact Session.executeModule_steps hm hexecute

def ring : FileTree :=
  .ofTexts
    [("/r/p/nnp.json", "\x7b\"name\":\"p\",\"version\":\"1.0.0\"\x7d"),
      ("/r/p/a.json", "\x7b\"require\":[\"./b\"]\x7d"),
      ("/r/p/b.json", "\x7b\"require\":[\"./a\"]\x7d")]

theorem runsOnce_ring :
    ∃ s t : Session Unit,
      Steps (DataModule.hooks none)
        (idle (.start (Config.standard "/work" "/home") ring [.directory "/r"] ())) (idle s) ∧
      s.require (DataModule.hooks none) "p/a" none true = some (.ok ⟨0⟩, t) ∧
      RunsOnce (DataModule.hooks none) (idle s) ∧ t.stateOf ⟨0⟩ = .executed ∧
      s.journal.count (.started ⟨0⟩) = 1 ∧ t.journal.count (.started ⟨0⟩) = 1 := by
  have hrun : (Session.require (DataModule.hooks none)
      (.start (Config.standard "/work" "/home") ring [.directory "/r"] ())
      "p/a" none true).any fun (_, s) ↦
        (s.require (DataModule.hooks none) "p/a" none true).any fun (r, t) ↦
          r.toOption = some ⟨0⟩ ∧ s.journal.count (.started ⟨0⟩) = 1 ∧
            t.journal.count (.started ⟨0⟩) = 1 := by
    decide +kernel
  obtain ⟨⟨r, s⟩, hs, hrun⟩ := (Option.any_eq_true ..).1 hrun
  obtain ⟨⟨r', t⟩, ht, hrun⟩ := (Option.any_eq_true ..).1 hrun
  simp only [decide_eq_true_eq] at hrun
  obtain ⟨hr, hcounts⟩ := hrun
  cases r' with
  | error error => cases hr
  | ok m =>
    cases hr
    have hsteps := Session.require_steps hs
    have once := runsOnce_of_steps hsteps
    exact ⟨s, t, hsteps, ht, once, once.required s "p/a" none ⟨0⟩ t rfl ht, hcounts⟩

end Lading
