import Lading.Proofs.Files.Tree
import Lading.Proofs.Results
import Lading.Proofs.Session.Invariant

namespace Lading

variable {μ : Type}

namespace Session

/-- The stack holds the modules that are executing, each of them once. -/
structure Stacked (s : Session μ) : Prop where
  named : s.Named
  cached : ∀ name p key m, s.package? name = some p → p.modules.get? key = some m → s.Knows m
  nodup : s.stack.Nodup
  executing : ∀ m, s.stateOf m = .executing ↔ m ∈ s.stack

structure SameRuns (s t : Session μ) : Prop where
  stack : t.stack = s.stack
  executing : ∀ m, t.stateOf m = .executing ↔ s.stateOf m = .executing

section Stacked

variable {s t : Session μ} {m : ModuleId}

theorem Stacked.sameRuns (hs : s.Stacked) (ht : t.Stacked) (h : t.stack = s.stack) :
    SameRuns s t :=
  ⟨h, fun m ↦ by rw [hs.executing, ht.executing, h]⟩

theorem Stacked.extends (hs : s.Stacked) (he : Extends s t) (hpackages : t.packages = s.packages)
    (nodup : t.stack.Nodup) (executing : ∀ m, t.stateOf m = .executing ↔ m ∈ t.stack) :
    t.Stacked := by
  have hpackage (name : String) : t.package? name = s.package? name := by
    simp [package?, hpackages]
  refine ⟨fun name p hp ↦ hs.named name p (hpackage name ▸ hp), ?_, nodup, executing⟩
  intro name p key m hp hm
  exact he.knows (hs.cached name p key m (hpackage name ▸ hp) hm)

theorem Change.stacked (h : Change s t) (hs : s.Stacked) : t.Stacked := by
  have hquiet := h.quiet
  refine ⟨h.named hs.named, ?_, hquiet.stack ▸ hs.nodup, fun m ↦ ?_⟩
  · intro name q key m hq hm
    rcases h.cached hq hm with ⟨p, hp, hm⟩ | ⟨hmodule, -⟩
    · exact hquiet.knows (hs.cached name p key m hp hm)
    · exact ⟨_, hmodule⟩
  · rw [hquiet.states, hquiet.stack, hs.executing]

theorem Stacked.changes (hs : s.Stacked) (h : Changes s t) : t.Stacked := by
  induction h with
  | refl => exact hs
  | tail _ h ih => exact h.stacked ih

theorem Stacked.setExport (hs : s.Stacked) (m : ModuleId) (key : String) (value : Json) :
    (s.setExport m key value).Stacked := by
  refine hs.extends (s.extends_setExport m key value) rfl hs.nodup fun n ↦ ?_
  rw [s.stateOf_setExport]
  exact hs.executing n

theorem Stacked.begin (hs : s.Stacked) (hm : s.Knows m) (h : s.stateOf m = .unexecuted) :
    (s.begin m).Stacked := by
  have absent : m ∉ s.stack := by
    rw [← hs.executing, h]
    decide
  refine hs.extends (s.extends_begin m) rfl ?_ fun n ↦ ?_
  · rw [stack_begin, List.nodup_append]
    refine ⟨hs.nodup, List.nodup_singleton m, ?_⟩
    rintro n hn _ hm rfl
    exact absent (List.mem_singleton.1 hm ▸ hn)
  · rw [s.stateOf_begin hm, stack_begin, List.mem_append, List.mem_singleton]
    by_cases hn : m = n
    · simp [Event.settle, hn]
    · simp [Event.settle, hn, Ne.symm hn, hs.executing]

theorem Stacked.settle (hs : s.Stacked) (hm : s.stack.getLast? = some m)
    (r : Except SessionError Unit) : (s.settle m r).2.Stacked := by
  obtain ⟨below, hstack⟩ := List.getLast?_eq_some_iff.1 hm
  have hknows : s.Knows m :=
    knows_of_stateOf ((hs.executing m).2 (List.mem_of_getLast? hm)) (by decide)
  have hnodup := hs.nodup
  rw [hstack, List.nodup_append] at hnodup
  have absent : m ∉ below := fun hbelow ↦ hnodup.2.2 m hbelow m (by simp) rfl
  have hpackages : (s.settle m r).2.packages = s.packages := by cases r <;> rfl
  have hsettled : (s.settle m r).2.stack = below := by
    rw [stack_settle, hstack, List.dropLast_concat]
  refine hs.extends (s.extends_settle m r) hpackages (hsettled ▸ hnodup.1) fun n ↦ ?_
  rw [s.stateOf_settle hknows, hsettled]
  by_cases hn : m = n
  · subst hn
    cases r <;> simp [ending, Event.settle, absent]
  · have hstate : (ending m r).settle n (s.stateOf n) = s.stateOf n := by
      cases r <;> simp [ending, Event.settle, hn]
    rw [hstate, hs.executing, hstack]
    simp [Ne.symm hn]

theorem knows_of_loadModule {p : Package} {path : Option String}
    (hcached : ∀ key m, p.modules.get? key = some m → s.Knows m)
    (h : s.loadModule p path = (.ok m, t)) : t.Knows m := by
  obtain ⟨_, -, hr, -⟩ | ⟨name, -, ⟨m', hm', hr, rfl⟩ | ⟨-, hr, rfl⟩⟩ := loadModule_cases h
  · cases hr
  · cases hr
    exact hcached name _ hm'
  · cases hr
    exact ⟨_, by rw [module?_create, if_pos rfl]⟩

theorem Stacked.knows_of_resolve (hs : s.Stacked) {observer : Option (Observer μ)}
    {reference : String} {origin : Option ModuleId}
    (h : s.resolve observer reference origin = (.ok m, t)) : t.Knows m := by
  obtain ⟨_, _, hr, -⟩ | ⟨_, p, path, -, -, hp, -, -, hmodule⟩ |
    ⟨named, memory, -, -, -, -, hnamed⟩ := resolve_cases h
  · cases hr
  · exact knows_of_loadModule (hs.cached _ p · · (hs.named.package?_of_packageOf? hp)) hmodule
  · obtain ⟨result, u, hload, ⟨_, -, herror, -⟩ | ⟨p, rfl, hmodule⟩⟩ := resolveNamed_cases hnamed
    · cases herror
    · have hs' : Stacked { s with memory } := (Change.memory s memory).stacked hs
      have hu := hs'.changes (changes_of_loadPackage hload)
      obtain ⟨hp, -⟩ := hs'.named.package?_of_loadPackage hload
      exact knows_of_loadModule (hu.cached _ p · · hp) hmodule

end Stacked

end Session

namespace Point

variable {hooks : Hooks μ} {p q : Point μ}

structure Stacked (p : Point μ) : Prop extends p.session.Stacked where
  stack : p.session.stack = p.running
  entered : ∀ m, p.control = .enter m → p.session.Knows m

section Stacked

variable {s t : Session μ} {w v : List (Waiting μ)} {c d : Control μ} {m : ModuleId}

theorem Stacked.changes (hp : Stacked ⟨s, w, c⟩) (h : s.Changes t)
    (hrun : running ⟨t, v, d⟩ = running ⟨s, w, c⟩) (hd : ∀ m, d = .enter m → t.Knows m) :
    Stacked ⟨t, v, d⟩ :=
  ⟨hp.toStacked.changes h, (h.quiet.stack.trans hp.stack).trans hrun.symm, hd⟩

theorem Stacked.stack_body {b : Body μ} (hp : Stacked ⟨s, w, .body m b⟩) :
    s.stack = (w.map (·.module)).reverse ++ [m] := hp.stack

theorem Stacked.current?_eq {b : Body μ} (hp : Stacked ⟨s, w, .body m b⟩) :
    s.current? = some m := by
  simp [Session.current?, hp.stack_body]

theorem Stacked.settle {b : Body μ} (hp : Stacked ⟨s, w, .body m b⟩)
    (r : Except SessionError Unit) : Stacked ⟨(s.settle m r).2, w, .leave (s.settle m r).1⟩ := by
  refine ⟨hp.toStacked.settle (by simp [hp.stack_body]) r, ?_, nofun⟩
  simp [Session.stack_settle, hp.stack_body, running]

theorem Stacked.body {b : Body μ} (hp : Stacked ⟨s, w, .body m b⟩) (b' : Body μ) :
    Stacked ⟨s, w, .body m b'⟩ :=
  ⟨hp.toStacked, hp.stack, nofun⟩

end Stacked

theorem Step.stacked (h : Step hooks p q) (hp : p.Stacked) : q.Stacked := by
  cases h with
  | load s name selector =>
    exact hp.changes (Session.changes_of_loadPackage rfl) rfl fun _ h ↦ by cases h
  | add s manifest => exact hp.changes (Session.changes_of_addPackage rfl) rfl fun _ h ↦ by cases h
  | find s reference origin =>
    exact hp.changes (hp.named.changes_of_resolve rfl) rfl fun _ h ↦ by cases h
  | @require s t reference origin m h =>
    apply hp.changes (hp.named.changes_of_resolve h) rfl
    intro n hn
    cases hn
    exact hp.knows_of_resolve h
  | @execute s m h =>
    refine hp.changes .refl rfl ?_
    intro n hn
    cases hn
    exact h
  | pass h => exact hp.changes .refl rfl fun _ h ↦ by cases h
  | @cycle s w m h => exact hp.changes (Session.changes_of_meetCycle rfl) rfl fun _ h ↦ by cases h
  | @start s w m h =>
    have hstack : s.stack = (w.map (·.module)).reverse := by simpa [running] using hp.stack
    refine ⟨hp.toStacked.begin (hp.entered m rfl) h, ?_, fun _ h ↦ by cases h⟩
    simp [Session.stack_begin, running, hstack]
  | assign s w m n key value next =>
    exact ⟨hp.toStacked.setExport n key value, hp.stack, fun _ h ↦ by cases h⟩
  | remember s w m change next =>
    exact hp.changes (.single (.memory s _)) rfl fun _ h ↦ by cases h
  | inspect s w m next => exact hp.body _
  | resolve s w m reference next =>
    exact hp.changes (hp.named.changes_of_resolve rfl) rfl fun _ h ↦ by cases h
  | refuse h => exact hp.changes (hp.named.changes_of_resolve h) rfl fun _ h ↦ by cases h
  | @call s t w m n reference next h =>
    apply hp.changes (hp.named.changes_of_resolve h) (by simp [running])
    intro n' hn
    cases hn
    exact hp.knows_of_resolve h
  | finish s w m => exact hp.settle (.ok ())
  | fail s w m error => exact hp.settle (.error error)
  | resume s w m n next result => exact hp.changes .refl (by simp [running]) fun _ h ↦ by cases h
  | answer s result => exact hp.changes .refl rfl fun _ h ↦ by cases h

theorem Steps.stacked (h : Steps hooks p q) (hp : p.Stacked) : q.Stacked := by
  induction h with
  | refl => exact hp
  | tail _ h ih => exact h.stacked ih

end Point

open Point

namespace Session

/-- The sessions that runs begin in: new ones, which may take over the modules that an old one has
when its last run is over. -/
inductive Opened : Session μ → Prop
  | start (config : Config) (files : FileTree) (finders : List Finder) (memory : μ) :
      Opened (start config files finders memory)
  | succeed {hooks : Hooks μ} {s old : Session μ} (h : Opened s)
      (hrun : Steps hooks (idle s) (idle old)) (config : Config) (files : FileTree)
      (finders : List Finder) (memory : μ) :
      Opened ((start config files finders memory).succeed old)

inductive Call (hooks : Hooks μ) (s : Session μ) : Session μ → Prop
  | load (name : String) (selector : Option Selector) :
      Call hooks s (s.loadPackage name selector).2
  | add (manifest : Manifest) : Call hooks s (s.addPackage manifest).2
  | resolve (reference : String) (origin : Option ModuleId) :
      Call hooks s (s.resolve hooks.observer reference origin).2
  | require {reference : String} {origin : Option ModuleId} {run : Bool}
      {r : Except SessionError ModuleId} {t : Session μ}
      (h : s.require hooks reference origin run = some (r, t)) : Call hooks s t
  | execute {m : ModuleId} {r : Except SessionError Unit} {t : Session μ} (hm : s.Knows m)
      (h : s.executeModule hooks m = some (r, t)) : Call hooks s t

/-- What the body of a module can ask of a session, by the session afterwards. A module that it
requires has room for `depth` modules inside each other. -/
inductive BodyCall (hooks : Hooks μ) (depth : Nat) (m : ModuleId) (s : Session μ) :
    Session μ → Prop
  | resolve (reference : String) :
      BodyCall hooks depth m s (s.resolve hooks.observer reference (some m)).2
  | require {reference : String} {n : ModuleId} {u t : Session μ} {r : Except SessionError Unit}
      (hresolve : s.resolve hooks.observer reference (some m) = (.ok n, u))
      (h : execute hooks depth u n = some (r, t)) : BodyCall hooks depth m s t

section

variable {hooks : Hooks μ} {s t : Session μ}

theorem stateOf_succeed (new old : Session μ) (m : ModuleId) :
    (new.succeed old).stateOf m = old.stateOf m := by
  simp [stateOf, succeed, module?, Function.comp_def]

theorem stacked_start (config : Config) (files : FileTree) (finders : List Finder) (memory : μ) :
    (idle (start config files finders memory)).Stacked := by
  refine ⟨⟨nofun, nofun, List.nodup_nil, fun m ↦ ?_⟩, rfl, nofun⟩
  rw [show (idle (Session.start config files finders memory)).session.stateOf m = .unexecuted from
    stateOf_start ..]
  exact ⟨nofun, nofun⟩

theorem stacked_succeed {old : Session μ} (hold : (idle old).Stacked) (config : Config)
    (files : FileTree) (finders : List Finder) (memory : μ) :
    (idle ((start config files finders memory).succeed old)).Stacked := by
  refine ⟨⟨nofun, nofun, List.nodup_nil, fun m ↦ ?_⟩, rfl, nofun⟩
  have hidle : old.stack = [] := hold.stack
  change (Session.succeed _ old).stateOf m = ModuleState.executing ↔ m ∈ []
  rw [stateOf_succeed, ← hidle]
  exact hold.executing m

theorem Opened.stacked (h : s.Opened) : (idle s).Stacked := by
  induction h with
  | start config files finders memory => exact stacked_start ..
  | succeed h hrun config files finders memory ih => exact stacked_succeed (hrun.stacked ih) ..

theorem Call.steps (h : s.Call hooks t) : Steps hooks (idle s) (idle t) := by
  cases h with
  | load name selector => exact .single (.load s name selector)
  | add manifest => exact .single (.add s manifest)
  | resolve reference origin => exact .single (.find s reference origin)
  | require h => exact require_steps h
  | execute hm h => exact executeModule_steps hm h

theorem BodyCall.sameRuns {depth : Nat} {m : ModuleId} {w : List (Waiting μ)} {b : Body μ}
    (hp : Point.Stacked ⟨s, w, .body m b⟩) (h : s.BodyCall hooks depth m t) : SameRuns s t := by
  cases h with
  | resolve reference =>
    have hc : Changes s (s.resolve hooks.observer reference (some m)).2 :=
      hp.named.changes_of_resolve rfl
    exact hp.sameRuns (hp.toStacked.changes hc) hc.quiet.stack
  | @require reference n u t r hresolve h =>
    have hcall : Step hooks ⟨s, w, .body m (.require reference fun _ ↦ .finish)⟩
        ⟨u, ⟨m, n, fun _ ↦ .finish⟩ :: w, .enter n⟩ := .call hresolve
    have hq := Steps.stacked (.head hcall (execute_steps h _)) (hp.body _)
    refine hp.sameRuns hq.toStacked ?_
    rw [hp.stack_body]
    simpa [running] using hq.stack

end

end Session

namespace Point

variable {hooks : Hooks μ} {p : Point μ}

structure Disciplined (hooks : Hooks μ) (p : Point μ) : Prop where
  executing : ∀ m, p.session.stateOf m = .executing ↔ m ∈ p.session.stack
  nodup : p.session.stack.Nodup
  current : ∀ m b, p.control = .body m b → p.session.current? = some m
  origin : ∀ m reference next q,
    p.control = .body m (.resolve reference next) ∨ p.control = .body m (.require reference next) →
    Step hooks p q →
    q.session = (p.session.resolve hooks.observer reference p.session.current?).2
  bodyCalls : ∀ m b depth t, p.control = .body m b → p.session.BodyCall hooks depth m t →
    p.session.SameRuns t
  returns : ∀ m b b' q, p.control = .body m b → Steps hooks p q → q.control = .body m b' →
    q.waiting = p.waiting → p.session.SameRuns q.session
  calls : ∀ s t, p = idle s → s.Call hooks t → Steps hooks p (idle t) ∧ s.SameRuns t
  hosted : ∀ s, p = idle s → s.stack = [] ∧ ∀ m, s.stateOf m ≠ .executing

/-- At every point of every run the stack holds the modules that are executing, each of them once,
and the module whose body has control is the last of them; whatever is asked of the session, the
stack is afterwards what it was before. -/
theorem disciplined_of_steps {s : Session μ} (hs : s.Opened) (hsteps : Steps hooks (idle s) p) :
    Disciplined hooks p := by
  have hp := hsteps.stacked hs.stacked
  constructor
  case executing => exact hp.executing
  case nodup => exact hp.nodup
  case current =>
    intro m b hm
    obtain ⟨s, w, c⟩ := p
    cases hm
    exact hp.current?_eq
  case origin =>
    intro m reference next q hm hstep
    rcases hm with hm | hm
    · cases hstep with
      | resolve =>
        cases hm
        rw [hp.current?_eq]
      | _ => cases hm
    · cases hstep with
      | refuse h | call h =>
        cases hm
        rw [hp.current?_eq, h]
      | _ => cases hm
  case bodyCalls =>
    intro m b depth t hm ht
    obtain ⟨s, w, c⟩ := p
    cases hm
    exact ht.sameRuns hp
  case returns =>
    intro m b b' q hm hsteps' hq hwaiting
    have hback := hsteps'.stacked hp
    refine hp.sameRuns hback.toStacked ?_
    rw [hback.stack, hp.stack, running, running, hwaiting, hm, hq]
  case calls =>
    rintro s t rfl hcall
    have hsteps := hcall.steps
    have ht := hsteps.stacked hp
    exact ⟨hsteps, hp.sameRuns ht.toStacked (ht.stack.trans hp.stack.symm)⟩
  case hosted =>
    rintro s rfl
    have hstack : s.stack = [] := hp.stack
    refine ⟨hstack, fun m hm ↦ ?_⟩
    have hmem : m ∈ s.stack := (hp.executing m).1 hm
    rw [hstack] at hmem
    cases hmem

def borrowing : Hooks Unit :=
  { body := fun _ m ↦ if m = ⟨0⟩ then .require "p/b" fun _ ↦ .finish else .finish
    observer := none
    depth := fun _ ↦ 2 }

def inherited : Session Unit :=
  let new := Session.start (Config.standard "/work" "/home")
    (.ofTexts [("/r/p/nnp.json", "\x7b\"name\":\"p\",\"version\":\"1.0.0\"\x7d")])
    [.directory "/r"] ()
  new.succeed (new.resolve none "p/a" none).2

theorem opened_inherited : inherited.Opened := by
  have hrun (s : Session Unit) : Steps borrowing (idle s) (idle (s.resolve none "p/a" none).2) :=
    .single (.find s "p/a" none)
  exact .succeed (.start ..) (hrun _) ..

theorem disciplined_borrowing :
    ∃ p : Point Unit, inherited.Opened ∧ Steps borrowing (idle inherited) p ∧
      Disciplined borrowing p ∧ p.session.packageOf? ⟨0⟩ = none ∧
      p.session.stack = [⟨0⟩, ⟨1⟩] ∧ p.session.current? = some ⟨1⟩ ∧
      p.session.stateOf ⟨0⟩ = .executing := by
  let s := inherited.begin ⟨0⟩
  let t := (s.resolve none "p/b" (some ⟨0⟩)).2
  have hcheck : (inherited.module? ⟨0⟩).isSome ∧ inherited.stateOf ⟨0⟩ = .unexecuted ∧
      (s.resolve none "p/b" (some ⟨0⟩)).1.toOption = some ⟨1⟩ ∧ t.stateOf ⟨1⟩ = .unexecuted ∧
      ((t.begin ⟨1⟩).packageOf? ⟨0⟩).isNone ∧ (t.begin ⟨1⟩).stack = [⟨0⟩, ⟨1⟩] := by
    decide +kernel
  obtain ⟨hknows, hstate, hresolve, hfresh, horphan, hstack⟩ := hcheck
  have hrun : Steps borrowing (idle inherited)
      ⟨t.begin ⟨1⟩, [⟨⟨0⟩, ⟨1⟩, fun _ ↦ .finish⟩], .body ⟨1⟩ .finish⟩ :=
    .head (.execute (Option.isSome_iff_exists.1 hknows)) <|
    .head (.start hstate) <|
    .head (.call (eq_of_toOption_fst hresolve)) <|
    .single (.start hfresh)
  have discipline := disciplined_of_steps opened_inherited hrun
  refine ⟨_, opened_inherited, hrun, discipline, Option.isNone_iff_eq_none.1 horphan, hstack,
    discipline.current _ _ rfl, (discipline.executing _).2 ?_⟩
  rw [hstack]
  exact List.mem_cons_self

end Point

end Lading
