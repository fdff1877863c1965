import Lading.Proofs.Session.Discipline
import Lading.Proofs.Session.Origin

namespace Lading

variable {μ : Type}

namespace Session

structure Housed (s : Session μ) : Prop where
  registered : ∀ m module name, s.module? m = some module → module.package = some name →
    (s.package? name).isSome
  started : ∀ m, .started m ∈ s.journal → s.Knows m

section Housed

variable {s t : Session μ}

theorem Extends.isSome_package? (h : Extends s t) {name : String}
    (hname : (s.package? name).isSome) : (t.package? name).isSome := by
  obtain ⟨p, hp⟩ := Option.isSome_iff_exists.1 hname
  obtain ⟨q, hq, -⟩ := h.packages name p hp
  rw [hq]
  rfl

theorem Housed.extends (hs : s.Housed) (he : Extends s t)
    (hlength : t.modules.length = s.modules.length)
    (hstarted : ∀ m, .started m ∈ t.journal → .started m ∈ s.journal ∨ s.Knows m) : t.Housed where
  registered m module name hm hname := by
    obtain ⟨module', hm', -, hpackage⟩ := he.module?_of_length hlength hm
    exact he.isSome_package? (hs.registered m module' name hm' (hpackage ▸ hname))
  started m hm := he.knows ((hstarted m hm).elim (hs.started m) id)

theorem Quiet.started_mem (h : Quiet s t) {m : ModuleId} (hm : .started m ∈ t.journal) :
    .started m ∈ s.journal := by
  obtain ⟨g, hg, quiet⟩ := h.journal
  rw [hg, List.mem_append] at hm
  exact hm.resolve_right (History.notMem_quiet quiet rfl)

theorem Change.housed (h : Change s t) (hs : s.Housed) : t.Housed := by
  have hquiet := h.quiet
  have hstarted (m : ModuleId) (hm : .started m ∈ t.journal) : .started m ∈ s.journal :=
    hquiet.started_mem hm
  cases h with
  | cache | memory | record | register =>
    exact hs.extends hquiet.toExtends rfl fun m hm ↦ .inl (hstarted m hm)
  | @create p key registered fresh normal =>
    refine ⟨?_, fun m hm ↦ hquiet.knows (hs.started m (hstarted m hm))⟩
    intro m module name hm hname
    rw [module?_create] at hm
    split at hm
    · cases hm
      cases hname
      rw [package?_create, if_pos rfl]
      rfl
    · exact hquiet.toExtends.isSome_package? (hs.registered m module name hm hname)

theorem Changes.housed (h : Changes s t) (hs : s.Housed) : t.Housed := by
  induction h with
  | refl => exact hs
  | tail _ h ih => exact h.housed ih

end Housed

end Session

def Hooks.Refuses (hooks : Hooks μ) (package : String) : Prop :=
  ∃ observe, hooks.observer = some observe ∧
    ∀ s origin, ∃ error memory, observe s origin package = (.error error, memory)

theorem Session.Named.free_of_resolve {s t : Session μ} (hs : s.Named) {hooks : Hooks μ}
    {package : String} (hrefuses : hooks.Refuses package) (hfree : s.package? package = none)
    {reference : String} {origin : Option ModuleId} {r : Except SessionError ModuleId}
    (h : s.resolve hooks.observer reference origin = (r, t)) : t.package? package = none := by
  rw [← Option.not_isSome_iff_eq_none] at hfree ⊢
  intro hpackage
  obtain hold | ⟨_, memory, -, -, haccepts⟩ := registered_of_resolve hs h hpackage
  · exact hfree hold
  · obtain ⟨observe, hobserver, hrefuses⟩ := hrefuses
    obtain ⟨error, memory', hrefused⟩ := hrefuses s origin
    rw [haccepts observe hobserver] at hrefused
    cases hrefused

namespace Point

variable {hooks : Hooks μ} {package : String} {p q : Point μ}

theorem Step.housed (h : Step hooks p q) (hp : p.Stacked) (hh : p.session.Housed) :
    q.session.Housed := by
  obtain hc | ⟨m, key, value, hq⟩ | ⟨m, hm, -, hq⟩ | ⟨m, b, r, -, hq⟩ :=
    h.session_cases hp.named hp.entered
  · exact hc.housed hh
  · rw [hq]
    exact hh.extends (Session.extends_setExport ..) (List.length_modify ..) fun n hn ↦ .inl hn
  · rw [hq]
    refine hh.extends (Session.extends_begin ..) (List.length_modify ..) fun n hn ↦ ?_
    obtain hn | hn := List.mem_append.1 hn
    · exact .inl hn
    · cases List.mem_singleton.1 hn
      exact .inr hm
  · rw [hq]
    have hlength : (p.session.settle m r).2.modules.length = p.session.modules.length := by
      cases r <;>
        simp [Session.settle, Session.record, Session.setState, Session.clearExports,
          Session.update]
    refine hh.extends (Session.extends_settle ..) hlength fun n hn ↦ ?_
    rw [Session.journal_settle, List.mem_append, List.mem_singleton] at hn
    obtain hn | hn := hn
    · exact .inl hn
    · cases r <;> cases hn

theorem Steps.housed (h : Steps hooks p q) (hp : p.Stacked) (hh : p.session.Housed) :
    q.session.Housed := by
  induction h with
  | refl => exact hh
  | tail hsteps h ih => exact h.housed (Steps.stacked hsteps hp) ih

end Point

open Point

theorem Session.Opened.housed {s : Session μ} (h : s.Opened) : s.Housed := by
  cases h with
  | start => exact ⟨nofun, nofun⟩
  | succeed =>
    refine ⟨?_, nofun⟩
    intro m module name hm hname
    rw [module?, Session.succeed, List.getElem?_map] at hm
    obtain ⟨old, -, rfl⟩ := Option.map_eq_some_iff.1 hm
    cases hname

namespace Point

variable {hooks : Hooks μ} {package : String} {p q : Point μ}

/-- The steps but those in which the host itself asks for a package by its name. Loading, adding and
resolving leave the host in control; with every other step a run of modules begins, goes on or
ends. -/
inductive Avoids (hooks : Hooks μ) (package : String) : Point μ → Point μ → Prop
  | load (s : Session μ) {name : String} (selector : Option Selector) (h : name ≠ package) :
      Avoids hooks package (idle s) (idle (s.loadPackage name selector).2)
  | add (s : Session μ) {manifest : Manifest}
      (h : ∀ name, manifest.name = .ok name → name.fullName ≠ package) :
      Avoids hooks package (idle s) (idle (s.addPackage manifest).2)
  | find (s : Session μ) (reference : String) (origin : Option ModuleId) :
      Avoids hooks package (idle s) (idle (s.resolve hooks.observer reference origin).2)
  | run {p q : Point μ} (h : Step hooks p q) (hrun : p.control ≠ .host ∨ q.control ≠ .host) :
      Avoids hooks package p q

theorem Avoids.step (h : Avoids hooks package p q) : Step hooks p q := by
  cases h with
  | load s selector h => exact .load s _ selector
  | add s h => exact .add s _
  | find s reference origin => exact .find s reference origin
  | run h => exact h

theorem Avoids.free (h : Avoids hooks package p q) (hnamed : p.session.Named)
    (hrefuses : hooks.Refuses package) (hfree : p.session.package? package = none) :
    q.session.package? package = none := by
  -- Loads and additions leave the package out by assumption, and all other steps resolve or do not
  -- touch the registry.
  have hresolve {reference : String} {origin : Option ModuleId} {t : Session μ}
      {r : Except SessionError ModuleId}
      (h : p.session.resolve hooks.observer reference origin = (r, t)) :
      t.package? package = none :=
    hnamed.free_of_resolve hrefuses hfree h
  have hregistered : ¬(p.session.package? package).isSome := by simp [hfree]
  cases h with
  | load s selector hne =>
    rw [← Option.not_isSome_iff_eq_none]
    intro hpackage
    obtain hold | rfl := Session.registered_of_loadPackage rfl hpackage
    · exact hregistered hold
    · exact hne rfl
  | add s hne =>
    rw [← Option.not_isSome_iff_eq_none]
    intro hpackage
    obtain hold | ⟨name, hname, rfl⟩ := Session.registered_of_addPackage rfl hpackage
    · exact hregistered hold
    · exact hne name hname rfl
  | find => exact hresolve rfl
  | run h hrun =>
    cases h with
    | load | add => exact absurd rfl (hrun.elim id id)
    | find | resolve => exact hresolve rfl
    | require h | refuse h | call h => exact hresolve h
    | @cycle s w m h =>
      change (s.meetCycle m).2.packages.get? package = none
      rw [s.packages_meetCycle m]
      exact hfree
    | _ => exact hfree

end Point

/-- A package is not registered, and no module is or was one of its modules. -/
structure Session.Barred (s : Session μ) (package : String) : Prop where
  unregistered : ∀ name p, s.package? name = some p → name ≠ package ∧ p.name ≠ package
  unmade : ∀ m module, s.module? m = some module → module.package ≠ some package
  unstarted : ∀ m, .started m ∈ s.journal →
    ∃ module, s.module? m = some module ∧ module.package ≠ some package

theorem Session.Housed.barred {s : Session μ} (hs : s.Housed) (hnamed : s.Named) {package : String}
    (hfree : s.package? package = none) : s.Barred package := by
  have unmade (m : ModuleId) (module : Module) (hm : s.module? m = some module) :
      module.package ≠ some package := by
    intro hpackage
    have hregistered := hs.registered m module package hm hpackage
    rw [hfree] at hregistered
    cases hregistered
  constructor
  case unregistered =>
    intro name p hp
    rw [hnamed name p hp, and_self]
    rintro rfl
    rw [hfree] at hp
    cases hp
  case unmade => exact unmade
  case unstarted =>
    intro m hm
    obtain ⟨module, hmodule⟩ := hs.started m hm
    exact ⟨module, hmodule, unmade m module hmodule⟩

namespace Point

/-- A package that is not registered and that the observer refuses is barred from then on, at every
point of every run in which the host does not ask for it by its name. -/
theorem barred_of_avoids {hooks hooks' : Hooks μ} {s : Session μ} {package : String}
    {p q : Point μ} (hs : s.Opened) (hsteps : Steps hooks' (idle s) p)
    (hfree : p.session.package? package = none) (hrefuses : hooks.Refuses package)
    (havoids : Relation.ReflTransGen (Avoids hooks package) p q) : q.session.Barred package := by
  have hp := hsteps.stacked hs.stacked
  have hhoused := hsteps.housed hs.stacked hs.housed
  have hq : q.Stacked ∧ q.session.Housed ∧ q.session.package? package = none := by
    induction havoids with
    | refl => exact ⟨hp, hhoused, hfree⟩
    | tail _ h ih =>
      obtain ⟨hp, hhoused, hfree⟩ := ih
      exact ⟨h.step.stacked hp, h.step.housed hp hhoused, h.free hp.named hrefuses hfree⟩
  obtain ⟨hstacked, hhoused, hfree⟩ := hq
  exact hhoused.barred hstacked.named hfree

/-- Two modules that require one of a package that is refused, where the first one goes on. -/
def denying : Hooks Unit where
  body _ m :=
    if m = ⟨0⟩ then .require " @s/q/x\t" fun _ ↦ .require "./n" fun _ ↦ .finish
    else .require "@s/q" fun _ ↦ .finish
  observer := some fun _ _ package ↦
    (if package = "@s/q" then .error (.failure package) else .ok (), ())
  depth _ := 2

def denied : Session Unit :=
  .start (Config.standard "/work" "/home")
    (.ofTexts
      [("/r/p/nnp.json", "\x7b\"name\":\"p\",\"version\":\"1.0.0\"\x7d"),
        ("/r/@s/q/nnp.json", "\x7b\"name\":\"@s/q\",\"version\":\"1.0.0\"\x7d")])
    [.directory "/r"] ()

theorem refuses_denying : denying.Refuses "@s/q" :=
  ⟨_, rfl, fun _ _ ↦ ⟨_, _, rfl⟩⟩

theorem barred_denied :
    ∃ t, denied.require denying "p/m" none true = some (.ok ⟨0⟩, t) ∧ t.Barred "@s/q" ∧
      t.stateOf ⟨0⟩ = .executed ∧ t.stateOf ⟨1⟩ = .executed ∧
      (denied.resolve none " @s/q/x\t" none).1.toOption.isSome := by
  have hcheck : (denied.require denying "p/m" none true).any fun (r, t) ↦
      r.toOption = some ⟨0⟩ ∧ t.stateOf ⟨0⟩ = .executed ∧ t.stateOf ⟨1⟩ = .executed := by
    decide +kernel
  obtain ⟨⟨r, t⟩, hrequire, hcheck⟩ := (Option.any_eq_true ..).1 hcheck
  obtain ⟨hr, hfirst, hsecond⟩ := of_decide_eq_true hcheck
  cases eq_of_toOption_fst (x := (r, t)) hr
  have havoids : Relation.ReflTransGen (Avoids denying "@s/q") (idle denied) (idle t) :=
    Session.require_within (fun _ _ h hrun ↦ .run h hrun) .find hrequire
  have hstart : Steps denying (idle denied) (idle denied) := .refl
  have hbarred := barred_of_avoids (.start ..) hstart rfl refuses_denying havoids
  exact ⟨t, hrequire, hbarred, hfirst, hsecond, by decide +kernel⟩

end Point

end Lading
