import Lading.Package.Reference
import Lading.Session.Basic

namespace Lading

variable {μ : Type}

/-- Is asked before a package is required by name, and may refuse. It sees the session, the module
that requires and the name of the package, and may remember something. -/
abbrev Observer (μ : Type) : Type :=
  Session μ → Option ModuleId → String → Except SessionError Unit × μ

namespace Session

def addPackage (s : Session μ) (manifest : Manifest) : Except SessionError Package × Session μ :=
  match manifest.name with
  | .error error => (.error (.manifest error), s)
  | .ok name =>
    if (s.package? name.fullName).isSome then
      (.error (.misuse (.alreadyLoaded name.fullName)), s)
    else
      match Package.ofManifest manifest ⟨s.cache, s.config.context⟩ with
      | (.error error, e) => (.error (.manifest error), { s with cache := e.cache })
      | (.ok package, e) =>
        let warnings := e.context.errors.map (.unanswered package.identifier)
        (.ok package,
          { s with
            cache := e.cache
            packages := Entries.put s.packages name.fullName package
            journal := s.journal ++ warnings ++ [.loaded package.name] })

def findPackage (s : Session μ) (name : String) (selector : Selector) :
    Except SessionError Package × Session μ :=
  match Finder.findFirst s.files name selector s.finders with
  | .error error => (.error error, s)
  | .ok manifest =>
    match manifest.name with
    | .error error => (.error (.manifest error), s)
    | .ok found =>
      if found.fullName ≠ name then
        (.error (.misuse (.foreignManifest found.fullName name)), s)
      else s.addPackage manifest

/-- Loads a package unless it is registered. A registered one has to satisfy the selector. -/
def loadPackage (s : Session μ) (name : String) (selector : Option Selector) :
    Except SessionError Package × Session μ :=
  match s.package? name with
  | none => s.findPackage name (selector.getD .any)
  | some package =>
    match selector with
    | none => (.ok package, s)
    | some selector =>
      if selector.accepts package.version then (.ok package, s)
      else
        (.error (.dependencyMismatch name package.version selector),
          s.record (.mismatch name package.version selector))

/-- The module of a registered package that a path means. A module is made when it is first asked
for, and stays the same from then on. -/
def loadModule (s : Session μ) (package : Package) (path : Option String) :
    Except SessionError ModuleId × Session μ :=
  match package.target path with
  | .error misuse => (.error (.misuse misuse), s)
  | .ok name =>
    match package.modules.get? name with
    | some m => (.ok m, s)
    | none =>
      let m : ModuleId := ⟨s.modules.length⟩
      let package := { package with modules := Entries.put package.modules name m }
      (.ok m,
        { s with
          modules := s.modules ++ [⟨name, some package.name, .unexecuted, []⟩]
          packages := Entries.put s.packages package.name package })

def isRelative (reference : String) : Bool :=
  "./".toList.isPrefixOf reference.toList || "../".toList.isPrefixOf reference.toList

def resolveRelative (s : Session μ) (reference : String) (origin : Option ModuleId) :
    Except SessionError ModuleId × Session μ :=
  match origin with
  | none => (.error (.misuse (.relativeWithoutModule reference)), s)
  | some m =>
    match s.packageOf? m with
    | none => (.error (.misuse (.orphan (s.nameOf m))), s)
    | some package =>
      if reference.toList.contains ':' then
        (.error (.reference (.reference reference .relativeMember)), s)
      else
        match ModulePath.join (ModulePath.directory (s.nameOf m)) reference with
        | none => (.error (.misuse (.escapingReference reference package.name)), s)
        | some path => s.loadModule package (some path)

def resolveNamed (s : Session μ) (r : Reference) (origin : Option ModuleId) :
    Except SessionError ModuleId × Session μ :=
  let name := r.package.fullName
  let selector := (origin.bind s.packageOf?).bind (·.selectorFor? name)
  match s.loadPackage name selector with
  | (.error error, s) => (.error error, s)
  | (.ok package, s) => s.loadModule package r.module

def resolve (observer : Option (Observer μ)) (s : Session μ) (reference : String)
    (origin : Option ModuleId) : Except SessionError ModuleId × Session μ :=
  if isRelative reference then s.resolveRelative reference origin
  else
    match Reference.parse reference with
    | .error error => (.error (.reference error), s)
    | .ok r =>
      if r.selector.isSome ∨ r.member.isSome then
        (.error (.reference (.reference reference .versionOrMember)), s)
      else
        match observer with
        | none => s.resolveNamed r origin
        | some observe =>
          match observe s origin r.package.fullName with
          | (.error error, memory) => (.error error, { s with memory })
          | (.ok (), memory) => Session.resolveNamed { s with memory } r origin

end Session

end Lading
