import Lading.Proofs.DataModule.Closure
import Lading.Proofs.Results
import Lading.Proofs.Session.Containment

namespace Lading

variable {μ : Type} {observer : Option (Observer μ)} {roots : List String} {files : FileTree}
  {s t : Session μ} {m : ModuleId}

namespace DataModule

theorem contained_of_pathOf? (hs : s.Coherent) {path : String} (h : s.pathOf? m = some path) :
    s.Contained roots (path ++ ".json") := by
  simp only [Session.pathOf?, Option.bind_eq_bind, Option.bind_eq_some_iff, Option.pure_def,
    Option.some.injEq] at h
  obtain ⟨p, hp, directory, hdirectory, rfl⟩ := h
  have hname := hs.isName_nameOf (Session.knows_of_packageOf? hp)
  refine .module (hs.package?_of_packageOf? hp) hdirectory ?_ ?_
  · rw [ne_eq, List.map_eq_nil_iff]
    exact List.splitOn_ne_nil '/' (s.nameOf m).toList
  · intro step hstep
    obtain ⟨segment, hsegment, rfl⟩ := List.mem_map.1 hstep
    rw [String.toList_ofList]
    exact hname segment hsegment

theorem body_withFiles (hs : s.Coherent) (h : s.Agrees roots files) :
    body (s.withFiles files) m = body s m := by
  have hpath : (s.withFiles files).pathOf? m = s.pathOf? m := rfl
  have hidentifier : (s.withFiles files).identifier m = s.identifier m := rfl
  unfold body
  rw [hpath, hidentifier]
  cases hlocated : s.pathOf? m with
  | none => rfl
  | some path =>
    have hread : (s.withFiles files).files.read (path ++ ".json") =
        s.files.read (path ++ ".json") :=
      FileTree.read_congr (h.find _ (contained_of_pathOf? hs hlocated))
    dsimp only
    rw [hread]

theorem sound_withFiles (hs : s.Sound) (files : FileTree) : (s.withFiles files).Sound :=
  ⟨hs.coherent.congr rfl rfl, hs.faithful.congr rfl (fun _ ↦ rfl) rfl⟩

theorem meetCycle_withFiles (s : Session μ) (m : ModuleId) (files : FileTree) :
    (s.withFiles files).meetCycle m =
      ((s.meetCycle m).1, (s.meetCycle m).2.withFiles files) := by
  have hconfig : (s.withFiles files).config = s.config := rfl
  unfold Session.meetCycle
  dsimp only
  rw [hconfig]
  split <;> rfl

theorem settle_withFiles (s : Session μ) (m : ModuleId) (result : Except SessionError Unit)
    (files : FileTree) :
    (s.withFiles files).settle m result =
      ((s.settle m result).1, (s.settle m result).2.withFiles files) := by
  cases result <;> rfl

theorem later_of_run {depth : Nat} {b : Body μ} {r : Except SessionError Unit} (hs : s.Sound)
    (hlast : s.stack.getLast? = some m)
    (h : b.run observer (Session.execute (hooks observer) depth) m s = some (r, t)) :
    s.Later t := by
  have hrun : b.run (hooks observer).observer (Session.execute (hooks observer) depth) m s =
      some (r, t) := h
  exact (Session.run_sound hs hlast hrun).2.2

def Ignores (observer : Option (Observer μ)) (depth : Nat) (roots : List String) (files : FileTree)
    (m : ModuleId) (b : Body μ) : Prop :=
  ∀ s t r, s.Sound → s.stack.getLast? = some m → s.finders = roots.map .directory →
    b.run observer (Session.execute (hooks observer) depth) m s = some (r, t) →
    t.Agrees roots files →
    b.run observer (Session.execute (hooks observer) depth) m (s.withFiles files) =
      some (r, t.withFiles files)

section Run

variable (hblind : ∀ observe, observer = some observe → observe.Blind)

include hblind

theorem ignores_body {depth : Nat}
    (hexecute : ∀ s t n r, s.Sound → s.Knows n → s.finders = roots.map .directory →
      Session.execute (hooks observer) depth s n = some (r, t) → t.Agrees roots files →
      Session.execute (hooks observer) depth (s.withFiles files) n =
        some (r, t.withFiles files)) (s : Session μ) :
    Ignores observer depth roots files m (body s m) := by
  refine body_shape (P := Ignores observer depth roots files m) ?finish ?fail ?assign ?require s
  case finish =>
    intro s t r _ _ _ h _
    cases h
    rfl
  case fail =>
    intro error s t r _ _ _ h _
    cases h
    rfl
  case assign =>
    intro key value next ih s t r hs hlast hfinders h ht
    exact ih _ t r (hs.setExport m key value) hlast hfinders h ht
  case require =>
    intro reference next ih s t r hs hlast hfinders h ht
    have hlater := later_of_run hs hlast h
    have hresolve := Session.resolve_withFiles hblind hfinders (ht.extends hlater.toExtends)
      reference (some m)
    obtain ⟨error, u, hr, h⟩ | ⟨n, u, result, v, hr, hv, h⟩ := Body.run_require_cases h
    · rw [hr] at hresolve
      rw [Body.run_refuse hresolve]
      cases h
      rfl
    · rw [hr] at hresolve
      have hc := Session.changes_of_resolve hs.coherent hr
      have hu := hs.changes hc
      have hn := Session.knows_of_resolve hs.coherent hr
      have hfinders' : u.finders = roots.map .directory := hc.quiet.finders.trans hfinders
      rw [Body.run_call hresolve]
      cases result with
      | error error =>
        cases h
        rw [hexecute u t n _ hu hn hfinders' hv ht]
        rfl
      | ok =>
        obtain ⟨hv', hstack, hlater'⟩ := Session.execute_sound hu hn hv
        have hlast' : v.stack.getLast? = some m := by rwa [hstack, hc.quiet.stack]
        have hrest := later_of_run hv' hlast' h
        rw [hexecute u v n _ hu hn hfinders' hv (ht.extends hrest.toExtends)]
        exact ih v t r hv' hlast' (hlater'.finders.trans hfinders') h ht

theorem execute_withFiles {depth : Nat} {r : Except SessionError Unit} (hs : s.Sound)
    (hm : s.Knows m) (hfinders : s.finders = roots.map .directory)
    (h : Session.execute (hooks observer) depth s m = some (r, t)) (ht : t.Agrees roots files) :
    Session.execute (hooks observer) depth (s.withFiles files) m = some (r, t.withFiles files) := by
  induction depth using Nat.strongRecOn generalizing s t m r with
  | ind depth ih =>
    obtain ⟨hm', rfl, rfl⟩ | ⟨hm', hcycle⟩ | ⟨hm', d, result, u, rfl, hu, hsettle⟩ :=
      Session.execute_cases h
    · exact Session.execute_executed hm'
    · rw [Session.execute_executing (s := s.withFiles files) hm', meetCycle_withFiles, hcycle]
    · have hbegin : (s.begin m).Sound := hs.begin hm hm'
      have hlast : (s.begin m).stack.getLast? = some m := by simp [Session.stack_begin]
      have hlater := later_of_run hbegin hlast hu
      have hextends : u.Extends t := by
        have hext := u.extends_settle m result
        rwa [hsettle] at hext
      have hagrees := ht.extends hextends
      have hrun := ignores_body hblind
        (fun s t n r hs hn hf h ht ↦ ih d (Nat.lt_succ_self d) hs hn hf h ht) (s.begin m)
        (s.begin m) u result hbegin hlast hfinders hu hagrees
      -- Files that are contained stay so, and thus the trees agree on the file of the module here.
      have hbody : (hooks observer).body ((s.withFiles files).begin m) m = body (s.begin m) m :=
        body_withFiles hbegin.coherent (hagrees.extends hlater.toExtends)
      rw [Session.execute_unexecuted (s := s.withFiles files) hm', hbody]
      change ((body (s.begin m) m).run observer _ m ((s.begin m).withFiles files)).map _ = _
      have hend : (u.withFiles files).settle m result = (r, t.withFiles files) := by
        rw [settle_withFiles, hsettle]
      rw [hrun]
      exact congrArg some hend

theorem executeModule_withFiles {r : Except SessionError Unit} (hs : s.Sound)
    (hstack : s.stack = []) (hm : s.Knows m) (hfinders : s.finders = roots.map .directory)
    (h : s.executeModule (hooks observer) m = some (r, t)) (ht : t.Agrees roots files) :
    (s.withFiles files).executeModule (hooks observer) m = some (r, t.withFiles files) := by
  obtain ⟨r', t', h'⟩ := returns_executeModule (sound_withFiles hs files) hstack observer hm
  have hsame := execute_withFiles hblind hs hm hfinders h ht
  -- The depths depend on all files and may differ, but either of them is enough.
  have hdeep := Session.execute_mono hsame (Nat.le_max_left _ (depth (s.withFiles files)))
  have hdeep' := Session.execute_mono h' (Nat.le_max_right (depth s) _)
  rw [h', ← hdeep, ← hdeep']
  rfl

theorem require_withFiles {r : Except SessionError ModuleId} {reference : String}
    {origin : Option ModuleId} {run : Bool} (hs : Settled s)
    (hfinders : s.finders = roots.map .directory)
    (h : s.require (hooks observer) reference origin run = some (r, t))
    (ht : t.Agrees roots files) :
    (s.withFiles files).require (hooks observer) reference origin run =
      some (r, t.withFiles files) := by
  have hresolve := Session.resolve_withFiles hblind hfinders
    (ht.extends (hs.require h).2.toExtends) reference origin
  have hobserver : (hooks observer).observer = observer := rfl
  obtain ⟨error, hr, rfl⟩ | ⟨m, u, hr, ⟨rfl, rfl, rfl⟩ | ⟨rfl, result, hu, rfl⟩⟩ :=
    Session.require_cases h
  · rw [hobserver] at hr
    rw [Session.require, hobserver, hresolve, hr]
  · rw [hobserver] at hr
    rw [Session.require, hobserver, hresolve, hr]
    rfl
  · rw [hobserver] at hr
    have hc := Session.changes_of_resolve hs.coherent hr
    have hexecute := executeModule_withFiles hblind (hs.toSound.changes hc)
      (hc.quiet.stack.trans hs.stack) (Session.knows_of_resolve hs.coherent hr)
      (hc.quiet.finders.trans hfinders) hu ht
    rw [hr] at hresolve
    rw [Session.require_of_resolve hresolve, hexecute]
    rfl

end Run

end DataModule

def Session.requireAll (hooks : Hooks μ) :
    List (String × Option ModuleId × Bool) → Session μ →
      Option (List (Except SessionError ModuleId) × Session μ)
  | [], s => some ([], s)
  | (reference, origin, run) :: requests, s =>
    match s.require hooks reference origin run with
    | none => none
    | some (answer, t) =>
      (requireAll hooks requests t).map fun (answers, u) ↦ (answer :: answers, u)

/-- What a session has looked for lies below the roots of its finders. -/
structure Session.Confined (roots : List String) (s : Session μ) : Prop where
  packages : ∀ name p, s.package? name = some p → ∃ root ∈ roots, ∃ n : PackageName, n.IsPlain ∧
    Manifest.load s.files (n.manifestPath root) = .ok p.manifest ∧
    p.manifest.directory = some (s.files.containingDirectory (n.manifestPath root))
  modules : ∀ m path, s.pathOf? m = some path → s.Contained roots (path ++ ".json")
  inside : ∀ path, s.Contained roots path → ∃ root ∈ roots, FilePath.Inside root path ∨
    FilePath.Inside (FilePath.join s.files.workingDirectory root) path

namespace DataModule

theorem requireAll_withFiles (requests : List (String × Option ModuleId × Bool)) (hs : Settled s)
    (hfinders : s.finders = roots.map .directory) (hlocated : s.Located roots) :
    ∃ answers t, s.requireAll (hooks observer) requests = some (answers, t) ∧ s.Later t ∧
      Settled t ∧ t.Located roots ∧
      ((∀ observe, observer = some observe → observe.Blind) →
        ∀ files, t.Agrees roots files →
          (s.withFiles files).requireAll (hooks observer) requests =
            some (answers, t.withFiles files)) := by
  induction requests generalizing s with
  | nil => exact ⟨[], s, rfl, .refl s, hs, hlocated, fun _ _ _ ↦ rfl⟩
  | cons request requests ih =>
    obtain ⟨reference, origin, run⟩ := request
    obtain ⟨answer, u, hu⟩ := returns_require hs.toSound hs.stack observer reference origin run
    obtain ⟨hsettled, hlater⟩ := hs.require hu
    have hloads := Session.loads_of_require hs.toSound hu
    obtain ⟨answers, t, ht, hrest, hsettled', hlocated', hsame⟩ := ih hsettled
      (hlater.finders.trans hfinders) (hloads.located hfinders hlocated)
    refine ⟨answer :: answers, t, ?_, hlater.trans hrest, hsettled', hlocated', ?_⟩
    · rw [Session.requireAll, hu]
      dsimp only
      rw [ht]
      rfl
    · intro hblind files hfiles
      have hrequire :=
        require_withFiles hblind hs hfinders hu (hfiles.extends hrest.toExtends)
      rw [Session.requireAll, hrequire]
      dsimp only
      rw [hsame hblind files hfiles]
      rfl

/-- Requires return. Their packages and modules are confined to the roots, and unless the host looks
at other files itself, with other files elsewhere all answers are the same. -/
theorem requireAll_contained (observer : Option (Observer μ)) (config : Config) (files : FileTree)
    (roots : List String) (memory : μ) (requests : List (String × Option ModuleId × Bool)) :
    ∃ answers s,
      Session.requireAll (hooks observer) requests
        (.start config files (roots.map .directory) memory) = some (answers, s) ∧
      s.Confined roots ∧
      ((∀ observe, observer = some observe → observe.Blind) →
        ∀ files', files'.workingDirectory = files.workingDirectory →
          (∀ path, s.Contained roots path → files'.find path = files.find path) →
          Session.requireAll (hooks observer) requests
            (.start config files' (roots.map .directory) memory) =
              some (answers, s.withFiles files')) := by
  obtain ⟨answers, s, hs, hlater, hsettled, hlocated, hsame⟩ := requireAll_withFiles requests
    (settled_start config files (roots.map .directory) memory) rfl
    (Session.located_start config files (roots.map .directory) memory)
  have hfiles : s.files = files := hlater.files
  refine ⟨answers, s, hs, ?confined, ?same⟩
  case confined =>
    constructor
    case packages =>
      intro name p hp
      obtain ⟨root, hroot, n, hn, hload⟩ := hlocated name p hp
      exact ⟨root, hroot, n, hn, hload, Manifest.directory_of_load hload⟩
    case modules => exact fun m path ↦ contained_of_pathOf? hsettled.coherent
    case inside => exact fun path ↦ Session.Contained.inside hlocated
  case same =>
    intro hblind files' hdirectory hfind
    exact hsame hblind files' ⟨hfiles ▸ hdirectory, hfiles ▸ hfind⟩

/-- A package whose main module and one reference lead to a file outside. -/
def prying : FileTree :=
  .ofTexts
    [("/r/p/nnp.json", "\x7b\"name\":\"p\",\"version\":\"1.0.0\",\"main\":\"../x\"\x7d"),
      ("/r/p/a.json", "\x7b\"require\":[\"./b\",\"../../x\"]\x7d"),
      ("/r/p/b.json", "\x7b\"k\":1\x7d")]

def pryingAt (secret : String) : FileTree := prying.add "/x.json" (.file secret.toUTF8.toList)

theorem requireAll_contained_prying :
    ∃ answers, ∃ s : Session Unit,
      answers.map error? =
        [some (.execution "p@1.0.0/a" (.misuse (.escapingReference "../../x" "p"))),
          some (.misuse (.invalidMain "p" "../x")), none] ∧
      s.Confined ["/r"] ∧
      ∀ secret,
        Session.requireAll (hooks none)
          [("p/a", none, true), ("p", none, true), ("p/b", none, true)]
          (.start (Config.standard "/work" "/home") (pryingAt secret) [.directory "/r"] ()) =
            some (answers, s.withFiles (pryingAt secret)) := by
  have hrun : (Session.requireAll (hooks none)
      [("p/a", none, true), ("p", none, true), ("p/b", none, true)]
      (.start (Config.standard "/work" "/home") (pryingAt "") [.directory "/r"] ())).any
        fun (answers, _) ↦ answers.map error? =
          [some (.execution "p@1.0.0/a" (.misuse (.escapingReference "../../x" "p"))),
            some (.misuse (.invalidMain "p" "../x")), none] := by
    decide +kernel
  obtain ⟨answers, s, hs, hconfined, hsame⟩ := requireAll_contained none
    (Config.standard "/work" "/home") (pryingAt "") ["/r"] ()
    [("p/a", none, true), ("p", none, true), ("p/b", none, true)]
  have hfind {path : String} (h : s.Contained ["/r"] path) (secret : String) :
      (pryingAt secret).find path = (pryingAt "").find path := by
    obtain ⟨root, hroot, hinside⟩ := hconfined.inside path h
    cases List.mem_singleton.1 hroot
    rw [FilePath.join_absolute _ (by decide), or_self] at hinside
    refine prying.find_add (fun hlanding ↦ ?_) ..
    have hbelow : prying.landing "/r" <+: prying.landing path := FileTree.landing_inside hinside
    rw [hlanding] at hbelow
    revert hbelow
    decide
  rw [show [Finder.directory "/r"] = ["/r"].map .directory from rfl, hs] at hrun
  exact ⟨answers, s, by simpa using hrun, hconfined,
    fun secret ↦ hsame nofun (pryingAt secret) rfl fun _ h ↦ hfind h secret⟩

end DataModule

end Lading
