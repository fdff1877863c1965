import Lading.Config.Basic
import Lading.Files.ModulePath
import Lading.Manifest.Fields
import Lading.Session.Finder

namespace Lading

structure ModuleId where
  index : Nat
deriving DecidableEq, Repr

inductive ModuleState
  | unexecuted | executing | executed
deriving DecidableEq, Repr

/-- A module. Its package is named as long as the session of that package lasts. -/
structure Module where
  name : String
  package : Option String
  state : ModuleState
  exports : Json.Fields

structure Package where
  name : String
  version : Version
  manifest : Manifest
  effective : Json.Fields
  dependencies : List (String × Requirement)
  modules : Entries ModuleId

namespace Package

def ofManifest (manifest : Manifest) (e : Evaluator) : Except ManifestError Package × Evaluator :=
  match manifest.name, manifest.version with
  | .error error, _ => (.error error, e)
  | .ok _, .error error => (.error error, e)
  | .ok name, .ok version =>
    match Manifest.effective manifest.document e with
    | (.error error, e) => (.error (.predicate error), e)
    | (.ok effective, e) =>
      match Manifest.dependencies effective with
      | .error error => (.error error, e)
      | .ok dependencies =>
        (.ok { name := name.fullName, version, manifest, effective, dependencies, modules := [] },
          e)

def identifier (p : Package) : String := p.name ++ "@" ++ toString p.version

def main (p : Package) : String := Manifest.mainOf p.effective

def dependency? (p : Package) (name : String) : Option Requirement :=
  (p.dependencies.find? (·.1 == name)).map (·.2)

def selectorFor? (p : Package) (name : String) : Option Selector :=
  (p.dependency? name).bind Requirement.selector?

/-- The name of the module that a path means. Without a path and at the package root that is the
main module. -/
def target (p : Package) (path : Option String) : Except Misuse String :=
  match ModulePath.normalize (path.getD "") with
  | none => .error (.escapingPath (path.getD "") p.name)
  | some name =>
    if name ≠ "" then .ok name
    else
      match ModulePath.normalize p.main with
      | none => .error (.invalidMain p.name p.main)
      | some main => if main = "" then .error (.invalidMain p.name p.main) else .ok main

end Package

inductive Event
  | loaded (package : String)
  | mismatch (package : String) (loaded : Version) (selector : Selector)
  | unanswered (package : String) (error : EvalError)
  | cycle (module : ModuleId) (identifier : String) (source : Option String)
  | started (module : ModuleId)
  | finished (module : ModuleId)
  | failed (module : ModuleId)
deriving DecidableEq, Repr

/-- A session. The last module of the stack is the one that runs; `memory` belongs to the code that
runs modules. -/
structure Session (μ : Type) where
  config : Config
  files : FileTree
  finders : List Finder
  cache : PredicateCache
  packages : Entries Package
  modules : List Module
  stack : List ModuleId
  hostPaths : List String
  journal : List Event
  memory : μ

namespace Session

variable {μ : Type}

def start (config : Config) (files : FileTree) (finders : List Finder) (memory : μ) : Session μ :=
  { config, files, finders, cache := .empty, packages := [], modules := [], stack := [],
    hostPaths := [], journal := [], memory }

def configuredFinders (config : Config) : List Finder := config.packagePath.map .directory

/-- A new session that takes over the modules of an old one. They lose their packages. -/
def succeed (new old : Session μ) : Session μ :=
  { new with modules := old.modules.map fun m ↦ { m with package := none } }

def record (s : Session μ) (e : Event) : Session μ := { s with journal := s.journal ++ [e] }

def module? (s : Session μ) (m : ModuleId) : Option Module := s.modules[m.index]?

def package? (s : Session μ) (name : String) : Option Package := s.packages.get? name

def packageOf? (s : Session μ) (m : ModuleId) : Option Package := do
  let module ← s.module? m
  let name ← module.package
  s.package? name

def stateOf (s : Session μ) (m : ModuleId) : ModuleState :=
  ((s.module? m).map (·.state)).getD .unexecuted

def nameOf (s : Session μ) (m : ModuleId) : String := ((s.module? m).map (·.name)).getD ""

def identifier (s : Session μ) (m : ModuleId) : String :=
  match s.packageOf? m with
  | some package => package.identifier ++ "/" ++ s.nameOf m
  | none => s.nameOf m

def pathOf? (s : Session μ) (m : ModuleId) : Option String := do
  let package ← s.packageOf? m
  let directory ← package.manifest.directory
  let segments := (ModulePath.segments (s.nameOf m).toList).map String.ofList
  return segments.foldl FilePath.join directory

def current? (s : Session μ) : Option ModuleId := s.stack.getLast?

def update (s : Session μ) (m : ModuleId) (f : Module → Module) : Session μ :=
  { s with modules := s.modules.modify m.index f }

def setState (s : Session μ) (m : ModuleId) (state : ModuleState) : Session μ :=
  s.update m fun module ↦ { module with state }

def setExport (s : Session μ) (m : ModuleId) (key : String) (value : Json) : Session μ :=
  s.update m fun module ↦ { module with exports := Entries.put module.exports key value }

def clearExports (s : Session μ) (m : ModuleId) : Session μ :=
  s.update m fun module ↦ { module with exports := [] }

def exports (s : Session μ) (m : ModuleId) : Json.Fields :=
  ((s.module? m).map (·.exports)).getD []

def export? (s : Session μ) (m : ModuleId) (key : String) : Option Json :=
  (s.exports m).get? key

def enter (s : Session μ) : Nat × Session μ :=
  (s.config.hostPath.length, { s with hostPaths := s.config.hostPath ++ s.hostPaths })

def leave (s : Session μ) (count : Nat) : Session μ :=
  { s with hostPaths := s.hostPaths.drop count }

end Session

end Lading
