import Lading.Proofs.DataModule.Answers
import Lading.Proofs.DataModule.Returns

namespace Lading

variable {μ : Type}

inductive Session.Calls (hooks : Hooks μ) (s : Session μ) : Session μ → Prop
  | nil : Calls hooks s s
  | snoc {t u : Session μ} {reference : String} {origin : Option ModuleId} {run : Bool}
      {r : Except SessionError ModuleId} (hcalls : Calls hooks s t)
      (h : t.require hooks reference origin run = some (r, u)) : Calls hooks s u

namespace DataModule

structure Settled (s : Session μ) : Prop extends s.Sound where
  stack : s.stack = []
  grounded : Grounded s

theorem settled_start (config : Config) (files : FileTree) (finders : List Finder) (memory : μ) :
    Settled (.start config files finders memory) :=
  ⟨Session.sound_start .., rfl, grounded_start config files finders memory⟩

variable {observer : Option (Observer μ)} {s t : Session μ}

theorem Settled.require (hs : Settled s) {reference : String} {origin : Option ModuleId}
    {run : Bool} {r : Except SessionError ModuleId}
    (h : s.require (hooks observer) reference origin run = some (r, t)) :
    Settled t ∧ s.Later t := by
  have resolved {r : Except SessionError ModuleId} {u : Session μ}
      (h : s.resolve observer reference origin = (r, u)) : Settled u ∧ s.Later u := by
    have hc := Session.changes_of_resolve hs.coherent h
    exact ⟨⟨hs.toSound.changes hc, hc.quiet.stack.trans hs.stack,
      hs.grounded.later hs.toSound hc.quiet.later fun n hn ↦ hc.quiet.states n ▸ hn⟩,
      hc.quiet.later⟩
  obtain ⟨error, hr, -⟩ | ⟨m, u, hr, ⟨-, -, rfl⟩ | ⟨-, result, hu, -⟩⟩ := Session.require_cases h
  · exact resolved hr
  · exact resolved hr
  · obtain ⟨hsettled, hlater⟩ := resolved hr
    have hm := Session.knows_of_resolve hs.coherent hr
    obtain ⟨ht, hstack, hlater'⟩ := Session.execute_sound hsettled.toSound hm hu
    exact ⟨⟨ht, hstack.trans hsettled.stack,
      grounded_execute hsettled.toSound hsettled.grounded hm hu⟩, hlater.trans hlater'⟩

theorem Settled.calls (hs : Settled s) (h : s.Calls (hooks observer) t) :
    Settled t ∧ s.Later t := by
  induction h with
  | nil => exact ⟨hs, .refl s⟩
  | snoc hcalls h ih =>
    obtain ⟨ht, hlater⟩ := ih
    obtain ⟨hu, hlater'⟩ := ht.require h
    exact ⟨hu, hlater.trans hlater'⟩

theorem Answered.completions {m n : ModuleId} (h : Answered s m n)
    (hstrict : s.config.strictCycles = true) :
    [n, m].Sublist (History.completions s.journal) := by
  obtain ⟨before, after, hj, hn | ⟨hfalse, -⟩⟩ := h
  · have hbefore := List.singleton_sublist.2 (History.mem_completions.2 hn)
    rw [hj, History.completions_append]
    exact hbefore.append (List.singleton_sublist.2 (by simp [History.mem_completions]))
  · rw [hstrict] at hfalse
    cases hfalse

/-- Where cycles are forbidden, every reference of an executed module means an executed module
that completed before it, whichever requires of the host failed. -/
theorem executed_closed {config : Config} {files : FileTree} {finders : List Finder} {memory : μ}
    (hstrict : config.strictCycles = true)
    (h : Session.Calls (hooks observer) (.start config files finders memory) s) :
    (∀ reference origin run, ∃ r t, s.require (hooks observer) reference origin run = some (r, t)) ∧
      (History.completions s.journal).Nodup ∧
      ∀ m, (m ∈ History.completions s.journal ↔ s.stateOf m = .executed) ∧
        (s.stateOf m = .executed → ∃ fields, fields? s m = some fields ∧
          ∀ reference ∈ requirements fields, ∃ n, s.referent? m reference = some n ∧
            s.stateOf n = .executed ∧ [n, m].Sublist (History.completions s.journal)) := by
  obtain ⟨hs, hlater⟩ := (settled_start config files finders memory).calls h
  have hconfig : s.config.strictCycles = true := by rw [hlater.config]; exact hstrict
  refine ⟨returns_require hs.toSound hs.stack observer,
    hs.faithful.lawful.completions_nodup, ?_⟩
  have completed (m : ModuleId) : m ∈ History.completions s.journal ↔ s.stateOf m = .executed := by
    rw [History.mem_completions, hs.faithful.finished_mem]
  intro m
  refine ⟨completed m, ?_⟩
  intro hm
  obtain ⟨fields, hfields, hreferences⟩ := hs.grounded m hm
  refine ⟨fields, hfields, ?_⟩
  intro reference hr
  obtain ⟨n, hn, hanswered⟩ := hreferences reference hr
  have hsublist := hanswered.completions hconfig
  exact ⟨n, hn.referent?, (completed n).1 (hsublist.subset (by simp)), hsublist⟩

def stump : FileTree :=
  .ofTexts
    [("/r/p/nnp.json", "\x7b\"name\":\"p\",\"version\":\"1.0.0\"\x7d"),
      ("/r/p/a.json", "\x7b\"require\":[\"./b\",\"./c\"]\x7d"),
      ("/r/p/b.json", "\x7b\"x\":1\x7d"),
      ("/r/p/d.json", "\x7b\"require\":[\"./b\"]\x7d")]

theorem executed_closed_stump :
    ∃ s : Session Unit,
      Session.Calls (hooks none)
        (.start { Config.standard "/work" "/home" with strictCycles := true } stump
          [.directory "/r"] ()) s ∧
      s.stateOf ⟨0⟩ = .unexecuted ∧ s.stateOf ⟨3⟩ = .executed ∧
      ∃ fields, fields? s ⟨3⟩ = some fields ∧
        ∀ reference ∈ requirements fields, ∃ n, s.referent? ⟨3⟩ reference = some n ∧
          s.stateOf n = .executed ∧ [n, ⟨3⟩].Sublist (History.completions s.journal) := by
  have hrun : (Session.require (hooks none)
      (.start { Config.standard "/work" "/home" with strictCycles := true } stump
        [.directory "/r"] ())
      "p/a" none true).any fun (_, s) ↦ (s.require (hooks none) "p/d" none true).any fun (_, t) ↦
        t.stateOf ⟨0⟩ = .unexecuted ∧ t.stateOf ⟨3⟩ = .executed := by
    decide +kernel
  obtain ⟨⟨r, s⟩, hs, hrun⟩ := (Option.any_eq_true ..).1 hrun
  obtain ⟨⟨r', t⟩, ht, hrun⟩ := (Option.any_eq_true ..).1 hrun
  simp only [decide_eq_true_eq] at hrun
  have hcalls := (Session.Calls.nil.snoc hs).snoc ht
  exact ⟨t, hcalls, hrun.1, hrun.2, ((executed_closed rfl hcalls).2.2 ⟨3⟩).2 hrun.2⟩

/-- What an executed module leads to is executed, or ran when the module completed and failed
afterwards. -/
theorem Settled.leads (hs : Settled s) {m n : ModuleId} (hm : s.stateOf m = .executed)
    (h : Leads s m n) :
    s.stateOf n = .executed ∨ ∃ before after, s.journal = before ++ .finished m :: after ∧
      n ∈ History.running before ∧ .failed n ∈ after := by
  obtain ⟨reference, hr, hn⟩ := h
  obtain ⟨fields, hfields, hreferences⟩ := hs.grounded m hm
  rw [requirementsOf, hfields] at hr
  obtain ⟨n', hn', before, after, hj, hanswered⟩ := hreferences reference hr
  rw [hn'.referent?] at hn
  cases hn
  rcases hanswered with hfinished | ⟨-, hrunning⟩
  · left
    rw [← hs.faithful.finished_mem, hj]
    exact List.mem_append_left _ hfinished
  · cases hstate : s.stateOf n with
    | executed => exact .inl rfl
    | executing =>
      rw [← hs.faithful.mem_stack, hs.stack] at hstate
      cases hstate
    | unexecuted =>
      have lawful := hj ▸ hs.faithful.lawful
      have executing := (lawful.left.running.2 n).1 hrunning
      rw [hs.faithful.states, hj] at hstate
      have hfailed := History.failed_mem (by rw [executing]; decide) hstate
      exact .inr ⟨before, after, hj, hrunning, by simpa using hfailed⟩

def Closed (s : Session μ) (m : ModuleId) : Prop := ∀ n, Reaches s m n → s.stateOf n = .executed

/-- Somewhere from a module on one completed while another that it requires was still running; the
latter failed afterwards and was not executed since. -/
def Undercut (s : Session μ) (m : ModuleId) : Prop :=
  ∃ x y before after, Reaches s m x ∧ Leads s x y ∧ s.journal = before ++ .finished x :: after ∧
    y ∈ History.running before ∧ .failed y ∈ after ∧ s.stateOf y ≠ .executed

/-- A require of the host that succeeds, after whichever others, leaves closed what the files lead
to from its answer on, unless that was undercut by a failure. -/
theorem closed_iff {config : Config} {files : FileTree} {finders : List Finder} {memory : μ}
    (h : Session.Calls (hooks observer) (.start config files finders memory) s) :
    (∀ reference origin run, ∃ r t, s.require (hooks observer) reference origin run = some (r, t)) ∧
      ∀ reference origin m t, s.require (hooks observer) reference origin true = some (.ok m, t) →
        (∀ x, t.stateOf x = .executed → ∃ fields, fields? t x = some fields ∧
          ∀ reference ∈ requirements fields, ∃ y, t.referent? x reference = some y) ∧
        (Closed t m ↔ ¬Undercut t m) := by
  obtain ⟨hs, -⟩ := (settled_start config files finders memory).calls h
  refine ⟨returns_require hs.toSound hs.stack observer, ?_⟩
  intro reference origin m t hrequire
  obtain ⟨ht, -⟩ := hs.require hrequire
  refine ⟨?_, ?_, ?_⟩
  · intro x hx
    obtain ⟨fields, hfields, hreferences⟩ := ht.grounded x hx
    refine ⟨fields, hfields, ?_⟩
    intro reference hr
    obtain ⟨y, hy, -⟩ := hreferences reference hr
    exact ⟨y, hy.referent?⟩
  · rintro hclosed ⟨x, y, -, -, hx, hxy, -, -, -, hy⟩
    exact hy (hclosed y (hx.tail hxy))
  · intro hundercut x hx
    induction hx with
    | refl => exact Session.stateOf_require hs.toSound hs.stack hrequire
    | @tail x y hx hxy ih =>
      obtain executed | ⟨before, after, hj, hrunning, hfailed⟩ := ht.leads ih hxy
      · exact executed
      · by_contra hy
        exact hundercut ⟨x, y, before, after, hx, hxy, hj, hrunning, hfailed, hy⟩

def brokenRing : FileTree :=
  .ofTexts
    [("/r/p/nnp.json", "\x7b\"name\":\"p\",\"version\":\"1.0.0\"\x7d"),
      ("/r/p/a.json", "\x7b\"require\":[\"./b\",\"./c\"]\x7d"),
      ("/r/p/b.json", "\x7b\"require\":[\"./a\"]\x7d")]

theorem run_brokenRing :
    ∃ (s t : Session Unit),
      Session.Calls (hooks none)
        (.start (Config.standard "/work" "/home") brokenRing [.directory "/r"] ()) s ∧
      s.require (hooks none) "p/b" none true = some (.ok ⟨1⟩, t) ∧ Leads t ⟨1⟩ ⟨0⟩ ∧
      t.stateOf ⟨0⟩ = .unexecuted := by
  have hrun : (Session.require (hooks none)
      (.start (Config.standard "/work" "/home") brokenRing [.directory "/r"] ())
      "p/a" none true).any fun (_, s) ↦ (s.require (hooks none) "p/b" none true).any fun (r, t) ↦
        r.toOption = some ⟨1⟩ ∧ requirementsOf t ⟨1⟩ = ["./a"] ∧
          t.referent? ⟨1⟩ "./a" = some ⟨0⟩ ∧ t.stateOf ⟨0⟩ = .unexecuted := by
    decide +kernel
  obtain ⟨⟨r, s⟩, hs, hrun⟩ := (Option.any_eq_true ..).1 hrun
  obtain ⟨⟨r', t⟩, ht, hrun⟩ := (Option.any_eq_true ..).1 hrun
  simp only [decide_eq_true_eq] at hrun
  obtain ⟨hr, hrequirements, hreferent, hstate⟩ := hrun
  cases r' with
  | error error => cases hr
  | ok m =>
    cases hr
    exact ⟨s, t, .snoc .nil hs, ht, ⟨"./a", by simp [hrequirements], hreferent⟩, hstate⟩

theorem not_closed_brokenRing :
    (Config.standard "/work" "/home").strictCycles = false ∧ ∃ (s t : Session Unit),
      Session.Calls (hooks none)
        (.start (Config.standard "/work" "/home") brokenRing [.directory "/r"] ()) s ∧
      s.require (hooks none) "p/b" none true = some (.ok ⟨1⟩, t) ∧ ¬Closed t ⟨1⟩ := by
  obtain ⟨s, t, hs, ht, hleads, hstate⟩ := run_brokenRing
  refine ⟨rfl, s, t, hs, ht, ?_⟩
  intro hclosed
  rw [hclosed ⟨0⟩ (.single hleads)] at hstate
  cases hstate

theorem undercut_brokenRing :
    ∃ (s t : Session Unit),
      Session.Calls (hooks none)
        (.start (Config.standard "/work" "/home") brokenRing [.directory "/r"] ()) s ∧
      s.require (hooks none) "p/b" none true = some (.ok ⟨1⟩, t) ∧ Undercut t ⟨1⟩ := by
  obtain ⟨s, t, hs, ht, hleads, hstate⟩ := run_brokenRing
  refine ⟨s, t, hs, ht, ?_⟩
  by_contra hundercut
  rw [((closed_iff hs).2 "p/b" none ⟨1⟩ t ht).2.2 hundercut ⟨0⟩ (.single hleads)] at hstate
  cases hstate

end DataModule

end Lading
