import Lading.Proofs.Session.Registry

namespace Lading

variable {μ : Type}

namespace Session

section Cases

variable {s t : Session μ}

theorem addPackage_of_free {manifest : Manifest} {name : PackageName}
    (hname : manifest.name = .ok name) (hfree : s.package? name.fullName = none) :
    s.addPackage manifest =
      match Package.ofManifest manifest ⟨s.cache, s.config.context⟩ with
      | (.error error, e) => (.error (.manifest error), { s with cache := e.cache })
      | (.ok p, e) => (.ok p, s.register p e.cache e.context.errors) := by
  simp only [addPackage, hname, hfree]
  cases hrun : Package.ofManifest manifest ⟨s.cache, s.config.context⟩ with
  | mk r e =>
    cases r with
    | error error => rfl
    | ok p =>
      obtain ⟨hgenuine, rfl, -⟩ := Package.of_ofManifest hrun
      rw [hgenuine.fullName_eq hname]
      rfl

theorem addPackage_cases {manifest : Manifest} {r : Except SessionError Package}
    (h : s.addPackage manifest = (r, t)) :
    (∃ error cache, r = .error error ∧ t = { s with cache }) ∨
      ∃ p cache warnings, r = .ok p ∧ p.Genuine ∧ p.manifest = manifest ∧ p.modules = [] ∧
        s.package? p.name = none ∧ t = s.register p cache warnings := by
  unfold addPackage at h
  split at h
  · cases h
    exact .inl ⟨_, s.cache, rfl, rfl⟩
  · rename_i name hname
    split at h
    · cases h
      exact .inl ⟨_, s.cache, rfl, rfl⟩
    · rename_i hfree
      split at h
      · cases h
        exact .inl ⟨_, _, rfl, rfl⟩
      · rename_i p e hp
        obtain ⟨hgenuine, hmanifest, hempty⟩ := Package.of_ofManifest hp
        obtain ⟨name', hname', hp'⟩ := hgenuine.name
        rw [hmanifest, hname] at hname'
        cases hname'
        rw [hp'] at hfree h
        cases h
        exact .inr ⟨p, e.cache, e.context.errors, rfl, hgenuine, hmanifest, hempty,
          by simpa using hfree, rfl⟩

/-- Loading a package by name fails, or gives one that was registered and is accepted, or registers
what the finders answer with. -/
theorem loadPackage_cases {name : String} {selector : Option Selector}
    {r : Except SessionError Package} (h : s.loadPackage name selector = (r, t)) :
    (∃ error, r = .error error ∧ t = s) ∨
      (∃ error loaded wanted, r = .error error ∧ t = s.record (.mismatch name loaded wanted)) ∨
      (∃ p, r = .ok p ∧ s.package? name = some p ∧ t = s ∧
        ∀ wanted, selector = some wanted → wanted.accepts p.version) ∨
      ∃ manifest found, Finder.findFirst s.files name (selector.getD .any) s.finders =
          .ok manifest ∧ manifest.name = .ok found ∧ found.fullName = name ∧
        s.addPackage manifest = (r, t) := by
  unfold loadPackage at h
  split at h
  · unfold findPackage at h
    split at h
    · cases h
      exact .inl ⟨_, rfl, rfl⟩
    · rename_i manifest hfind
      split at h
      · cases h
        exact .inl ⟨_, rfl, rfl⟩
      · rename_i found hfound
        split at h
        · cases h
          exact .inl ⟨_, rfl, rfl⟩
        · rename_i hname
          exact .inr (.inr (.inr ⟨manifest, found, hfind, hfound, not_not.1 hname, h⟩))
  · rename_i p hp
    split at h
    · cases h
      exact .inr (.inr (.inl ⟨p, rfl, hp, rfl, nofun⟩))
    · split at h
      · rename_i wanted haccepts
        cases h
        refine .inr (.inr (.inl ⟨p, rfl, hp, rfl, ?_⟩))
        rintro _ ⟨⟩
        exact haccepts
      · cases h
        exact .inr (.inl ⟨_, _, _, rfl, rfl⟩)

theorem loadModule_cases {p : Package} {path : Option String} {r : Except SessionError ModuleId}
    (h : s.loadModule p path = (r, t)) :
    (∃ misuse, p.target path = .error misuse ∧ r = .error (.misuse misuse) ∧ t = s) ∨
      ∃ name, p.target path = .ok name ∧
        ((∃ m, p.modules.get? name = some m ∧ r = .ok m ∧ t = s) ∨
          p.modules.get? name = none ∧ r = .ok ⟨s.modules.length⟩ ∧ t = s.create p name) := by
  unfold loadModule at h
  split at h
  · rename_i misuse htarget
    cases h
    exact .inl ⟨misuse, htarget, rfl, rfl⟩
  · rename_i name htarget
    split at h
    · rename_i m hm
      cases h
      exact .inr ⟨name, htarget, .inl ⟨m, hm, rfl, rfl⟩⟩
    · rename_i hfresh
      cases h
      exact .inr ⟨name, htarget, .inr ⟨hfresh, rfl, rfl⟩⟩

theorem resolve_cases {observer : Option (Observer μ)} {reference : String}
    {origin : Option ModuleId} {r : Except SessionError ModuleId}
    (h : s.resolve observer reference origin = (r, t)) :
    (∃ error memory, r = .error error ∧ t = { s with memory }) ∨
      (∃ m p path, isRelative reference ∧ origin = some m ∧ s.packageOf? m = some p ∧
        ':' ∉ reference.toList ∧
        ModulePath.join (ModulePath.directory (s.nameOf m)) reference = some path ∧
        s.loadModule p (some path) = (r, t)) ∨
      ∃ named memory, ¬isRelative reference ∧ Reference.parse reference = .ok named ∧
        ¬(named.selector.isSome ∨ named.member.isSome) ∧
        (∀ observe, observer = some observe →
          observe s origin named.package.fullName = (.ok (), memory)) ∧
        Session.resolveNamed { s with memory } named origin = (r, t) := by
  unfold resolve at h
  split at h
  · rename_i hrelative
    unfold resolveRelative at h
    split at h
    · cases h
      exact .inl ⟨_, s.memory, rfl, rfl⟩
    · rename_i m
      split at h
      · cases h
        exact .inl ⟨_, s.memory, rfl, rfl⟩
      · rename_i p hp
        split at h
        · cases h
          exact .inl ⟨_, s.memory, rfl, rfl⟩
        · rename_i hcolon
          split at h
          · cases h
            exact .inl ⟨_, s.memory, rfl, rfl⟩
          · rename_i path hjoin
            exact .inr (.inl ⟨m, p, path, hrelative, rfl, hp, by simpa using hcolon, hjoin, h⟩)
  · rename_i hrelative
    split at h
    · cases h
      exact .inl ⟨_, s.memory, rfl, rfl⟩
    · rename_i named hparse
      split at h
      · cases h
        exact .inl ⟨_, s.memory, rfl, rfl⟩
      · rename_i hplain
        cases observer with
        | none => exact .inr (.inr ⟨named, s.memory, hrelative, hparse, hplain, nofun, h⟩)
        | some observe =>
          dsimp only at h
          split at h
          · cases h
            exact .inl ⟨_, _, rfl, rfl⟩
          · rename_i memory haccepts
            refine .inr (.inr ⟨named, memory, hrelative, hparse, hplain, ?_, h⟩)
            rintro _ ⟨⟩
            exact haccepts

theorem resolveNamed_cases {named : Reference} {origin : Option ModuleId}
    {r : Except SessionError ModuleId} (h : s.resolveNamed named origin = (r, t)) :
    ∃ result u, s.loadPackage named.package.fullName
        ((origin.bind s.packageOf?).bind (·.selectorFor? named.package.fullName)) = (result, u) ∧
      ((∃ error, result = .error error ∧ r = .error error ∧ t = u) ∨
        ∃ p, result = .ok p ∧ u.loadModule p named.module = (r, t)) := by
  unfold resolveNamed at h
  dsimp only at h
  split at h
  · rename_i hload
    cases h
    exact ⟨_, _, hload, .inl ⟨_, rfl, rfl, rfl⟩⟩
  · rename_i p u hload
    exact ⟨_, u, hload, .inr ⟨p, rfl, h⟩⟩

end Cases

section Changes

variable {s t : Session μ}

def Named (s : Session μ) : Prop := ∀ name p, s.package? name = some p → p.name = name

theorem changes_of_addPackage {manifest : Manifest} {r : Except SessionError Package}
    (h : s.addPackage manifest = (r, t)) : Changes s t := by
  obtain ⟨_, cache, -, rfl⟩ | ⟨p, cache, warnings, -, -, -, hempty, hfree, rfl⟩ :=
    addPackage_cases h
  · exact .single (.cache s cache)
  · exact .single (.register cache warnings hfree hempty)

theorem changes_of_loadPackage {name : String} {selector : Option Selector}
    {r : Except SessionError Package} (h : s.loadPackage name selector = (r, t)) : Changes s t := by
  obtain ⟨_, -, rfl⟩ | ⟨_, _, _, -, rfl⟩ | ⟨_, -, -, rfl, -⟩ | ⟨_, _, -, -, -, hadd⟩ :=
    loadPackage_cases h
  · exact .refl
  · exact .single (.record s rfl)
  · exact .refl
  · exact changes_of_addPackage hadd

theorem changes_of_loadModule {p : Package} (registered : s.package? p.name = some p)
    {path : Option String} {r : Except SessionError ModuleId}
    (h : s.loadModule p path = (r, t)) : Changes s t := by
  obtain ⟨_, -, -, rfl⟩ | ⟨name, htarget, ⟨_, -, -, rfl⟩ | ⟨hfresh, -, rfl⟩⟩ := loadModule_cases h
  · exact .refl
  · exact .refl
  · exact .single (.create registered hfresh (Package.isName_of_target htarget))

theorem Named.package?_of_loadPackage (hs : s.Named) {name : String} {selector : Option Selector}
    {p : Package} (h : s.loadPackage name selector = (.ok p, t)) :
    t.package? name = some p ∧ p.name = name := by
  obtain ⟨_, hr, -⟩ | ⟨_, _, _, hr, -⟩ | ⟨q, hr, hq, rfl, -⟩ | ⟨_, found, -, hfound, rfl, hadd⟩ :=
    loadPackage_cases h
  · cases hr
  · cases hr
  · cases hr
    exact ⟨hq, hs name p hq⟩
  · obtain ⟨_, _, hr, -⟩ | ⟨q, cache, warnings, hr, hgenuine, rfl, -, -, rfl⟩ :=
      addPackage_cases hadd
    · cases hr
    · cases hr
      have hname := hgenuine.fullName_eq hfound
      exact ⟨by rw [package?_register, if_pos hname.symm], hname.symm⟩

theorem Named.package?_of_packageOf? (hs : s.Named) {m : ModuleId} {p : Package}
    (hp : s.packageOf? m = some p) : s.package? p.name = some p := by
  obtain ⟨_, name, _, _, hname⟩ := packageOf?_eq_some.1 hp
  rwa [hs name p hname]

theorem Named.changes_of_resolveNamed (hs : s.Named) {named : Reference} {origin : Option ModuleId}
    {r : Except SessionError ModuleId} (h : s.resolveNamed named origin = (r, t)) :
    Changes s t := by
  obtain ⟨result, u, hload, ⟨_, -, -, rfl⟩ | ⟨p, rfl, hmodule⟩⟩ := resolveNamed_cases h
  · exact changes_of_loadPackage hload
  · obtain ⟨hp, hname⟩ := hs.package?_of_loadPackage hload
    exact (changes_of_loadPackage hload).trans (changes_of_loadModule (by rwa [hname]) hmodule)

theorem Named.changes_of_resolve (hs : s.Named) {observer : Option (Observer μ)}
    {reference : String} {origin : Option ModuleId} {r : Except SessionError ModuleId}
    (h : s.resolve observer reference origin = (r, t)) : Changes s t := by
  obtain ⟨_, memory, -, rfl⟩ | ⟨m, p, path, -, -, hp, -, -, hmodule⟩ |
    ⟨named, memory, -, -, -, -, hnamed⟩ := resolve_cases h
  · exact .single (.memory s memory)
  · exact changes_of_loadModule (hs.package?_of_packageOf? hp) hmodule
  · have hmemory : Change s { s with memory } := .memory s memory
    have hs' : Named { s with memory } := hs
    exact .head hmemory (hs'.changes_of_resolveNamed hnamed)

theorem package?_of_loadPackage (hs : s.Coherent) {name : String} {selector : Option Selector}
    {p : Package} (h : s.loadPackage name selector = (.ok p, t)) :
    t.package? name = some p ∧ p.name = name :=
  Named.package?_of_loadPackage hs.named h

theorem Coherent.package?_of_packageOf? (hs : s.Coherent) {m : ModuleId} {p : Package}
    (hp : s.packageOf? m = some p) : s.package? p.name = some p :=
  Named.package?_of_packageOf? hs.named hp

theorem changes_of_resolve (hs : s.Coherent) {observer : Option (Observer μ)} {reference : String}
    {origin : Option ModuleId} {r : Except SessionError ModuleId}
    (h : s.resolve observer reference origin = (r, t)) : Changes s t :=
  Named.changes_of_resolve hs.named h

end Changes

section Registered

variable {s t : Session μ} {other : String}

theorem registered_of_addPackage {manifest : Manifest} {r : Except SessionError Package}
    (h : s.addPackage manifest = (r, t)) (hother : (t.package? other).isSome) :
    (s.package? other).isSome ∨ ∃ name, manifest.name = .ok name ∧ other = name.fullName := by
  obtain ⟨_, _, -, rfl⟩ | ⟨p, cache, warnings, -, hgenuine, rfl, -, -, rfl⟩ := addPackage_cases h
  · exact .inl hother
  · rw [package?_register] at hother
    by_cases hp : p.name = other
    · obtain ⟨name, hname, hfull⟩ := hgenuine.name
      exact .inr ⟨name, hname, hp.symm.trans hfull.symm⟩
    · exact .inl (by simpa [hp] using hother)

theorem registered_of_loadPackage {name : String} {selector : Option Selector}
    {r : Except SessionError Package} (h : s.loadPackage name selector = (r, t))
    (hother : (t.package? other).isSome) : (s.package? other).isSome ∨ other = name := by
  obtain ⟨_, -, rfl⟩ | ⟨_, _, _, -, rfl⟩ | ⟨_, -, -, rfl, -⟩ | ⟨_, found, -, hfound, rfl, hadd⟩ :=
    loadPackage_cases h
  · exact .inl hother
  · exact .inl hother
  · exact .inl hother
  · exact (registered_of_addPackage hadd hother).imp_right fun ⟨name, hname, hother⟩ ↦ by
      rw [hfound] at hname
      cases hname
      exact hother

theorem registered_of_loadModule {p : Package} (registered : s.package? p.name = some p)
    {path : Option String} {r : Except SessionError ModuleId} (h : s.loadModule p path = (r, t))
    (hother : (t.package? other).isSome) : (s.package? other).isSome := by
  obtain ⟨_, -, -, rfl⟩ | ⟨name, -, ⟨_, -, -, rfl⟩ | ⟨-, -, rfl⟩⟩ := loadModule_cases h
  · exact hother
  · exact hother
  · rw [package?_create] at hother
    by_cases hp : p.name = other
    · rw [← hp, registered]
      rfl
    · simpa [hp] using hother

/-- Resolving a reference registers no package but the one that the reference names, and asks the
observer before. -/
theorem registered_of_resolve (hs : s.Named) {observer : Option (Observer μ)}
    {reference : String} {origin : Option ModuleId} {r : Except SessionError ModuleId}
    (h : s.resolve observer reference origin = (r, t)) (hother : (t.package? other).isSome) :
    (s.package? other).isSome ∨
      ∃ named memory, Reference.parse reference = .ok named ∧ other = named.package.fullName ∧
        ∀ observe, observer = some observe → observe s origin other = (.ok (), memory) := by
  obtain ⟨_, memory, -, rfl⟩ | ⟨m, p, path, -, -, hp, -, -, hmodule⟩ |
    ⟨named, memory, -, hparse, -, haccepts, hnamed⟩ := resolve_cases h
  · exact .inl hother
  · exact .inl (registered_of_loadModule (hs.package?_of_packageOf? hp) hmodule hother)
  · have hs' : Named { s with memory } := hs
    obtain ⟨result, u, hload, hrest⟩ := resolveNamed_cases hnamed
    have hother' : (u.package? other).isSome := by
      obtain ⟨_, -, -, rfl⟩ | ⟨p, rfl, hmodule⟩ := hrest
      · exact hother
      · obtain ⟨hp, hname⟩ := hs'.package?_of_loadPackage hload
        exact registered_of_loadModule (by rwa [hname]) hmodule hother
    obtain hold | rfl := registered_of_loadPackage hload hother'
    · exact .inl hold
    · exact .inr ⟨named, memory, hparse, rfl, haccepts⟩

end Registered

/-- The package and the path that a reference stands for in a session, whatever versions its origin
asks for. -/
inductive Denotes (s : Session μ) (origin : Option ModuleId) (reference : String) :
    Package → Option String → Prop
  | relative {m : ModuleId} {p : Package} {path : String} (hr : isRelative reference)
      (ho : origin = some m) (hp : s.packageOf? m = some p) (hc : ':' ∉ reference.toList)
      (hj : ModulePath.join (ModulePath.directory (s.nameOf m)) reference = some path) :
      Denotes s origin reference p (some path)
  | named {r : Reference} {p : Package} (hr : ¬isRelative reference)
      (hparse : Reference.parse reference = .ok r) (hv : ¬(r.selector.isSome ∨ r.member.isSome))
      (hp : s.package? r.package.fullName = some p) : Denotes s origin reference p r.module

def Names (s : Session μ) (origin : Option ModuleId) (reference : String) (m : ModuleId) : Prop :=
  ∃ p path name, s.Denotes origin reference p path ∧ p.target path = .ok name ∧
    p.modules.get? name = some m

section Names

variable {s t : Session μ} {origin : Option ModuleId} {reference : String}

theorem Denotes.registered {p : Package} {path : Option String} (hs : s.Coherent)
    (h : s.Denotes origin reference p path) : s.package? p.name = some p := by
  cases h with
  | relative _ _ hp _ _ => exact hs.package?_of_packageOf? hp
  | named _ _ _ hp => rwa [hs.named _ p hp]

theorem Denotes.extends {p : Package} {path : Option String} (he : Extends s t)
    (h : s.Denotes origin reference p path) :
    ∃ q, t.Denotes origin reference q path ∧ p.Grows q := by
  cases h with
  | relative hr ho hp hc hj =>
    obtain ⟨q, hq, hpq⟩ := he.packageOf? hp
    rw [← he.nameOf_eq (knows_of_packageOf? hp)] at hj
    exact ⟨q, .relative hr ho hq hc hj, hpq⟩
  | named hr hparse hv hp =>
    obtain ⟨q, hq, hpq⟩ := he.packages _ _ hp
    exact ⟨q, .named hr hparse hv hq, hpq⟩

theorem Names.extends {m : ModuleId} (he : Extends s t) (h : s.Names origin reference m) :
    t.Names origin reference m := by
  obtain ⟨p, path, name, hd, htarget, hm⟩ := h
  obtain ⟨q, hq, hpq⟩ := hd.extends he
  exact ⟨q, path, name, hq, (hpq.target_eq path).trans htarget, hpq.modules name m hm⟩

theorem Names.knows {m : ModuleId} (hs : s.Coherent) (h : s.Names origin reference m) :
    s.Knows m := by
  obtain ⟨p, path, name, hd, -, hm⟩ := h
  obtain ⟨module, hmodule, -⟩ := hs.cached _ p name m (hd.registered hs) hm
  exact ⟨module, hmodule⟩

theorem Denotes.names {p : Package} {path : Option String} {m : ModuleId} (hs : s.Coherent)
    (hd : s.Denotes origin reference p path) (h : s.loadModule p path = (.ok m, t)) :
    t.Names origin reference m := by
  have registered := hd.registered hs
  obtain ⟨_, -, hr, -⟩ | ⟨name, htarget, ⟨m', hm', hr, rfl⟩ | ⟨hfresh, hr, rfl⟩⟩ :=
    loadModule_cases h
  · cases hr
  · cases hr
    exact ⟨p, path, name, hd, htarget, hm'⟩
  · cases hr
    have hcreate := Change.create registered hfresh (Package.isName_of_target htarget)
    obtain ⟨q, hd', hpq⟩ := hd.extends hcreate.quiet.toExtends
    have hq := hd'.registered (hcreate.coherent hs)
    rw [hpq.name_eq, package?_create, if_pos rfl] at hq
    cases hq
    exact ⟨_, path, name, hd', htarget, by rw [Entries.get?_put, if_pos rfl]⟩

theorem names_of_resolve {observer : Option (Observer μ)} {m : ModuleId} (hs : s.Coherent)
    (h : s.resolve observer reference origin = (.ok m, t)) : t.Names origin reference m := by
  obtain ⟨_, _, hr, -⟩ | ⟨m', p, path, hr, ho, hp, hc, hj, hmodule⟩ |
    ⟨named, memory, hr, hparse, hplain, -, hnamed⟩ := resolve_cases h
  · cases hr
  · exact (Denotes.relative hr ho hp hc hj).names hs hmodule
  · have hs' : Coherent { s with memory } := (Change.memory s memory).coherent hs
    obtain ⟨result, u, hload, ⟨_, -, herror, -⟩ | ⟨p, rfl, hmodule⟩⟩ := resolveNamed_cases hnamed
    · cases herror
    · obtain ⟨hp, -⟩ := package?_of_loadPackage hs' hload
      exact (Denotes.named hr hparse hplain hp).names
        ((changes_of_loadPackage hload).coherent hs') hmodule

theorem knows_of_resolve {observer : Option (Observer μ)} {m : ModuleId} (hs : s.Coherent)
    (h : s.resolve observer reference origin = (.ok m, t)) : t.Knows m :=
  (names_of_resolve hs h).knows ((changes_of_resolve hs h).coherent hs)

end Names

/-- The module that a reference in the file of a module means. No version is asked for, so a
package that is loaded is taken as it is. -/
def referent? (s : Session μ) (m : ModuleId) (reference : String) : Option ModuleId :=
  (s.resolve none reference (if isRelative reference then some m else none)).1.toOption

theorem Names.referent? {s : Session μ} {m n : ModuleId} {reference : String}
    (h : s.Names (some m) reference n) : s.referent? m reference = some n := by
  obtain ⟨p, path, name, hd, htarget, hn⟩ := h
  have hload : s.loadModule p path = (.ok n, s) := by simp [loadModule, htarget, hn]
  cases hd with
  | relative hr ho hp hc hj =>
    cases ho
    simp [Session.referent?, resolve, resolveRelative, hr, hp, hc, hj, hload, Except.toOption]
  | named hr hparse hv hp =>
    simp [Session.referent?, resolve, resolveNamed, loadPackage, hr, hparse, hv, hp, hload,
      Except.toOption]

end Session

end Lading
