import Lading.Proofs.Manifest.Caching
import Lading.Proofs.Session.Loading

namespace Lading

variable {μ : Type}

theorem Package.ofManifest_cache {cache cache' : PredicateCache} (hcache : cache.Genuine)
    (hcache' : cache'.Genuine) (manifest : Manifest) (c : Context) :
    (ofManifest manifest ⟨cache, c⟩).1 = (ofManifest manifest ⟨cache', c⟩).1 ∧
      (ofManifest manifest ⟨cache, c⟩).2.context = (ofManifest manifest ⟨cache', c⟩).2.context := by
  have heffective := Manifest.outcome_effective hcache hcache' c manifest.document
  unfold ofManifest
  split
  · exact ⟨rfl, rfl⟩
  · exact ⟨rfl, rfl⟩
  · generalize Manifest.effective manifest.document ⟨cache, c⟩ = run at heffective
    generalize Manifest.effective manifest.document ⟨cache', c⟩ = run' at heffective
    obtain ⟨fields, e⟩ := run
    obtain ⟨fields', e'⟩ := run'
    obtain ⟨rfl, hcontext⟩ := Prod.mk.inj heffective
    cases fields with
    | error error => exact ⟨rfl, hcontext⟩
    | ok fields =>
      dsimp only
      split <;> exact ⟨rfl, hcontext⟩

namespace Session

def grown (s : Session μ) (cache : PredicateCache) (added : Entries Package) (told : History) :
    Session μ :=
  { s with cache, packages := s.packages ++ added, journal := s.journal ++ told }

structure Agree (s t : Session μ) (name : String) : Prop where
  config : t.config = s.config
  files : t.files = s.files
  finders : t.finders = s.finders
  package : t.package? name = s.package? name

structure Brings (s : Session μ) (call : String × Option Selector)
    (r : Except SessionError Package) (added : Entries Package) (told : History) : Prop where
  named : added = [] ∨ ∃ p, added = [(call.1, p)]
  loads : ∃ cache : PredicateCache, cache.Genuine ∧
    s.loadPackage call.1 call.2 = (r, s.grown cache added told)

theorem grown_nil (s : Session μ) : s.grown s.cache [] [] = s := by simp [grown]

theorem register_eq_grown {s : Session μ} {p : Package} (hfree : s.package? p.name = none)
    (cache : PredicateCache) (warnings : List EvalError) :
    s.register p cache warnings = s.grown cache [(p.name, p)]
      (warnings.map (.unanswered p.identifier) ++ [.loaded p.name]) := by
  simp [register, grown, Entries.put_of_notMem (Entries.notMem_keys.2 hfree)]

/-- What adding a package gives and adds is the same in all sessions with the same configuration in
which there is no package of its name. -/
theorem brings_addPackage (c : Config) {manifest : Manifest} {name : PackageName}
    (hname : manifest.name = .ok name) :
    ∃ r added told, (added = [] ∨ ∃ p, added = [(name.fullName, p)]) ∧
      ∀ s : Session μ, s.config = c → s.cache.Genuine → s.package? name.fullName = none →
        ∃ cache : PredicateCache, cache.Genuine ∧
          s.addPackage manifest = (r, s.grown cache added told) := by
  cases hrun : Package.ofManifest manifest ⟨.empty, c.context⟩ with
  | mk r e =>
    -- Every genuine cache does as well as the empty one.
    have hsame (cache : PredicateCache) (hcache : cache.Genuine) :
        ∃ e' : Evaluator, e'.cache.Genuine ∧ e'.context = e.context ∧
          Package.ofManifest manifest ⟨cache, c.context⟩ = (r, e') := by
      obtain ⟨hr, hcontext⟩ :=
        Package.ofManifest_cache hcache PredicateCache.genuine_empty manifest c.context
      rw [hrun] at hr hcontext
      exact ⟨_, Package.genuine_ofManifest manifest hcache, hcontext, Prod.ext hr rfl⟩
    cases r with
    | error error =>
      refine ⟨.error (.manifest error), [], [], .inl rfl, ?_⟩
      rintro s rfl hs hfree
      obtain ⟨e', hcache, -, hrun'⟩ := hsame s.cache hs
      refine ⟨e'.cache, hcache, ?_⟩
      rw [addPackage_of_free hname hfree, hrun']
      simp [grown]
    | ok p =>
      obtain ⟨hgenuine, rfl, -⟩ := Package.of_ofManifest hrun
      refine ⟨.ok p, _, e.context.errors.map (.unanswered p.identifier) ++ [.loaded p.name],
        .inr ⟨p, rfl⟩, ?_⟩
      rintro s rfl hs hfree
      obtain ⟨e', hcache, hcontext, hrun'⟩ := hsame s.cache hs
      refine ⟨e'.cache, hcache, ?_⟩
      rw [addPackage_of_free hname hfree, hrun']
      rw [hgenuine.fullName_eq hname] at hfree ⊢
      rw [← hcontext, ← register_eq_grown hfree]

theorem brings_of_agree (s : Session μ) (call : String × Option Selector) :
    ∃ r added told, ∀ t : Session μ, Agree s t call.1 → t.cache.Genuine →
      t.Brings call r added told := by
  obtain ⟨name, selector⟩ := call
  have nothing (r : Except SessionError Package)
      (h : ∀ t : Session μ, Agree s t name → t.loadPackage name selector = (r, t)) :
      ∃ r added told, ∀ t : Session μ, Agree s t name → t.cache.Genuine →
        t.Brings (name, selector) r added told :=
    ⟨r, [], [], fun t ht hcache ↦ ⟨.inl rfl, t.cache, hcache, by rw [h t ht, grown_nil]⟩⟩
  cases hp : s.package? name with
  | some p =>
    cases selector with
    | none => exact nothing (.ok p) fun t ht ↦ by simp [loadPackage, ht.package, hp]
    | some wanted =>
      by_cases haccepts : wanted.accepts p.version
      · exact nothing (.ok p) fun t ht ↦ by simp [loadPackage, ht.package, hp, haccepts]
      · refine ⟨.error (.dependencyMismatch name p.version wanted), [],
          [.mismatch name p.version wanted], fun t ht hcache ↦ ⟨.inl rfl, t.cache, hcache, ?_⟩⟩
        simp [loadPackage, ht.package, hp, haccepts, grown, record]
  | none =>
    have hload (t : Session μ) (ht : Agree s t name) :
        t.loadPackage name selector = t.findPackage name (selector.getD .any) := by
      rw [loadPackage, ht.package, hp]
    cases hfind : Finder.findFirst s.files name (selector.getD .any) s.finders with
    | error error =>
      refine nothing (.error error) fun t ht ↦ ?_
      simp only [hload t ht, findPackage, ht.files, ht.finders, hfind]
    | ok manifest =>
      cases hname : manifest.name with
      | error error =>
        refine nothing (.error (.manifest error)) fun t ht ↦ ?_
        simp only [hload t ht, findPackage, ht.files, ht.finders, hfind, hname]
      | ok found =>
        by_cases hforeign : found.fullName = name
        · subst hforeign
          obtain ⟨r, added, told, hadded, hadd⟩ := brings_addPackage (μ := μ) s.config hname
          refine ⟨r, added, told, fun t ht hcache ↦ ⟨hadded, ?_⟩⟩
          have hfound : t.loadPackage found.fullName selector = t.addPackage manifest := by
            simp [hload t ht, findPackage, ht.files, ht.finders, hfind, hname]
          rw [hfound]
          exact hadd t ht.config hcache (ht.package.trans hp)
        · refine nothing (.error (.misuse (.foreignManifest found.fullName name))) fun t ht ↦ ?_
          simp [hload t ht, findPackage, ht.files, ht.finders, hfind, hname, hforeign]

/-- What a call to load a package gives, and the packages and the events that it adds. -/
def answer (s : Session μ) (call : String × Option Selector) : Except SessionError Package :=
  (s.loadPackage call.1 call.2).1

def arrivals (s : Session μ) (call : String × Option Selector) : Entries Package :=
  (s.loadPackage call.1 call.2).2.packages.drop s.packages.length

def notices (s : Session μ) (call : String × Option Selector) : History :=
  (s.loadPackage call.1 call.2).2.journal.drop s.journal.length

def loadAll (s : Session μ) :
    List (String × Option Selector) → List (Except SessionError Package) × Session μ
  | [] => ([], s)
  | call :: calls =>
    let (result, t) := s.loadPackage call.1 call.2
    let (results, u) := t.loadAll calls
    (result :: results, u)

section Load

variable {s t : Session μ} {call : String × Option Selector}
  {calls : List (String × Option Selector)}

theorem Brings.eq {r : Except SessionError Package} {added : Entries Package} {told : History}
    (h : s.Brings call r added told) :
    s.answer call = r ∧ s.arrivals call = added ∧ s.notices call = told := by
  obtain ⟨-, cache, -, hload⟩ := h
  simp [answer, arrivals, notices, hload, grown]

theorem brings (hs : s.cache.Genuine) (call : String × Option Selector) :
    s.Brings call (s.answer call) (s.arrivals call) (s.notices call) := by
  obtain ⟨r, added, told, h⟩ := s.brings_of_agree call
  have hs := h s ⟨rfl, rfl, rfl, rfl⟩ hs
  obtain ⟨rfl, rfl, rfl⟩ := hs.eq
  exact hs

theorem Agree.eq (h : Agree s t call.1) (hs : s.cache.Genuine) (ht : t.cache.Genuine) :
    t.answer call = s.answer call ∧ t.arrivals call = s.arrivals call ∧
      t.notices call = s.notices call := by
  obtain ⟨r, added, told, hbrings⟩ := s.brings_of_agree call
  obtain ⟨rfl, rfl, rfl⟩ := (hbrings s ⟨rfl, rfl, rfl, rfl⟩ hs).eq
  exact (hbrings t h ht).eq

theorem keys_arrivals (hs : s.cache.Genuine) (call : String × Option Selector) :
    (s.arrivals call).keys.Sublist [call.1] := by
  obtain hnone | ⟨p, hp⟩ := (brings hs call).named
  · rw [hnone]
    exact List.nil_sublist _
  · rw [hp]
    exact .refl _

theorem nodup_arrivals (hs : s.cache.Genuine) (hnames : (calls.map (·.1)).Nodup) :
    (Entries.keys (calls.flatMap s.arrivals)).Nodup := by
  have hkeys : (Entries.keys (calls.flatMap s.arrivals)).Sublist (calls.map (·.1)) := by
    clear hnames
    induction calls with
    | nil => exact .refl _
    | cons call calls ih =>
      rw [List.flatMap_cons, Entries.keys, List.map_append]
      exact (keys_arrivals hs call).append ih
  exact hnames.sublist hkeys

theorem agree_grown (cache : PredicateCache) {added : Entries Package} (told : History)
    {name : String} (hname : name ∉ added.keys) : Agree s (s.grown cache added told) name := by
  refine ⟨rfl, rfl, rfl, ?_⟩
  rw [package?, grown, Entries.get?_append, Entries.notMem_keys.1 hname, Option.or_none]
  rfl

theorem loadAll_eq (hs : s.cache.Genuine) (hnames : (calls.map (·.1)).Nodup) :
    ∃ cache, s.loadAll calls = (calls.map s.answer,
      s.grown cache (calls.flatMap s.arrivals) (calls.flatMap s.notices)) := by
  induction calls generalizing s with
  | nil => exact ⟨s.cache, by simp [loadAll, grown_nil]⟩
  | cons call calls ih =>
    obtain ⟨hcall, hnames⟩ := List.nodup_cons.1 hnames
    obtain ⟨cache, hcache, hload⟩ := (brings hs call).loads
    -- The first call adds no package that a later one asks for, so each is answered as before.
    have hsame : ∀ call' ∈ calls,
        (s.grown cache (s.arrivals call) (s.notices call)).answer call' = s.answer call' ∧
        (s.grown cache (s.arrivals call) (s.notices call)).arrivals call' = s.arrivals call' ∧
        (s.grown cache (s.arrivals call) (s.notices call)).notices call' = s.notices call' := by
      intro call' hmem
      have hname : call'.1 ∉ (s.arrivals call).keys := by
        intro hkey
        have hname := List.mem_singleton.1 ((keys_arrivals hs call).subset hkey)
        exact hcall (List.mem_map.2 ⟨call', hmem, hname⟩)
      exact (agree_grown cache _ hname).eq hs hcache
    obtain ⟨cache', hrest⟩ := ih (s := s.grown cache (s.arrivals call) (s.notices call)) hcache
      hnames
    rw [List.map_congr_left fun call' h ↦ (hsame call' h).1,
      List.flatMap_congr fun call' h ↦ (hsame call' h).2.1,
      List.flatMap_congr fun call' h ↦ (hsame call' h).2.2] at hrest
    refine ⟨cache', ?_⟩
    rw [loadAll, hload]
    dsimp only
    rw [hrest]
    simp [grown]

end Load

structure Independent (s : Session μ) (calls : List (String × Option Selector)) : Prop where
  answers : ∀ order, calls.Perm order →
    (s.loadAll order).1 = order.map fun call ↦ (s.loadPackage call.1 call.2).1
  registry : ∀ order, calls.Perm order →
    (s.loadAll order).2.packages.Perm (s.loadAll calls).2.packages ∧
      ∀ name, (s.loadAll order).2.package? name = (s.loadAll calls).2.package? name
  events : ∀ order, calls.Perm order → ∃ told told' : History,
    (s.loadAll order).2.journal = s.journal ++ told ∧
      (s.loadAll calls).2.journal = s.journal ++ told' ∧ told.Perm told'
  modules : ∀ order, calls.Perm order → (s.loadAll order).2.modules = s.modules

/-- What a session answers when it is asked for a package does not depend on the other packages or
on what the cache holds that they share, so that packages of different names can be loaded in any
order. -/
theorem independent_of_nodup {s : Session μ} (hs : s.cache.Genuine)
    {calls : List (String × Option Selector)} (hnames : (calls.map (·.1)).Nodup) :
    Independent s calls := by
  have hload (order : List (String × Option Selector)) (horder : calls.Perm order) :
      ∃ cache, s.loadAll order = (order.map s.answer,
        s.grown cache (order.flatMap s.arrivals) (order.flatMap s.notices)) :=
    loadAll_eq hs ((horder.map _).nodup_iff.1 hnames)
  obtain ⟨_, hcalls⟩ := hload calls (.refl _)
  constructor
  case answers =>
    intro order horder
    obtain ⟨_, h⟩ := hload order horder
    rw [h]
    rfl
  case registry =>
    intro order horder
    obtain ⟨_, h⟩ := hload order horder
    have harrivals := horder.symm.flatMap_right s.arrivals
    rw [h, hcalls]
    refine ⟨harrivals.append_left _, fun name ↦ ?_⟩
    simp only [package?, grown, Entries.get?_append]
    rw [Entries.get?_perm harrivals.symm (nodup_arrivals hs hnames) name]
  case events =>
    intro order horder
    obtain ⟨_, h⟩ := hload order horder
    rw [h, hcalls]
    exact ⟨_, _, rfl, rfl, horder.symm.flatMap_right s.notices⟩
  case modules =>
    intro order horder
    obtain ⟨_, h⟩ := hload order horder
    rw [h]
    rfl

def twoPackages : Session Unit :=
  start (Config.standard "/work" "/home")
    (.ofTexts
      [("/r/a/nnp.json",
          "\x7b\"name\":\"a\",\"version\":\"1.0.0\",\"cfg( dev ).main\":\"m\"\x7d"),
        ("/r/b/nnp.json",
          "\x7b\"name\":\"b\",\"version\":\"1.0.0\"," ++
            "\"cfg(dev or level > 2).main\":\"m\"\x7d")])
    [.directory "/r"] ()

def errands : List (String × Option Selector) := [("a", none), ("c", none), ("b", none)]

theorem independent_errands :
    Independent twoPackages errands ∧ (twoPackages.loadAll errands).2.packages.keys = ["a", "b"] ∧
      (twoPackages.loadAll errands.reverse).2.packages.keys = ["b", "a"] ∧
      (twoPackages.loadAll errands.reverse).2.package? "b" =
        (twoPackages.loadAll errands).2.package? "b" := by
  have hnames : (errands.map (·.1)).Nodup := by decide
  have hindependent := independent_of_nodup (s := twoPackages) PredicateCache.genuine_empty hnames
  have hregistry := (hindependent.registry _ (List.reverse_perm _).symm).2 "b"
  have hkeys : (twoPackages.loadAll errands).2.packages.keys = ["a", "b"] ∧
      (twoPackages.loadAll errands.reverse).2.packages.keys = ["b", "a"] := by
    decide +kernel
  exact ⟨hindependent, hkeys.1, hkeys.2, hregistry⟩

end Session

end Lading
