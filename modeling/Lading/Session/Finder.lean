import Lading.Session.Error

namespace Lading

structure ShelfEntry where
  name : String
  version : Version
  manifest : Manifest

structure Shelf where
  entries : List ShelfEntry

namespace Shelf

def empty : Shelf := ⟨[]⟩

def size (shelf : Shelf) : Nat := shelf.entries.length

def add (shelf : Shelf) (manifest : Manifest) : Except ManifestError Shelf := do
  let name ← manifest.name
  let version ← manifest.version
  return ⟨shelf.entries ++ [⟨name.fullName, version, manifest⟩]⟩

def find? (shelf : Shelf) (name : String) (selector : Selector) : Option Manifest :=
  let candidates := shelf.entries.filter (·.name == name)
  match selector.best? (candidates.map (·.version)) with
  | none => none
  | some best => (candidates.find? (·.version == best)).map (·.manifest)

end Shelf

def PackageName.directory (root : String) (name : PackageName) : String :=
  match name.scope with
  | none => FilePath.join root name.name
  | some scope => FilePath.join (FilePath.join root ("@" ++ scope)) name.name

/-- A place to look for packages. A finder of one's own is a function; it says that it has no such
package by `packageNotFound`. -/
inductive Finder
  | directory (root : String)
  | memory (shelf : Shelf)
  | custom (find : String → Selector → Except SessionError Manifest)

namespace Finder

def findInstalled (files : FileTree) (root name : String) (selector : Selector) :
    Except SessionError Manifest := do
  let parsed ← (PackageName.parse name).mapError .reference
  let path := FilePath.join (parsed.directory root) Manifest.fileName
  if !files.isFile path then throw (.packageNotFound name selector)
  let manifest ← (Manifest.load files path).mapError .manifest
  let found ← manifest.name.mapError .manifest
  if found.fullName ≠ name then throw (.misuse (.misplacedManifest path found.fullName name))
  let version ← manifest.version.mapError .manifest
  if !selector.accepts version then throw (.packageNotFound name selector)
  return manifest

def find (files : FileTree) (finder : Finder) (name : String) (selector : Selector) :
    Except SessionError Manifest :=
  match finder with
  | .directory root => findInstalled files root name selector
  | .memory shelf =>
    match shelf.find? name selector with
    | some manifest => .ok manifest
    | none => .error (.packageNotFound name selector)
  | .custom find => find name selector

/-- Asks finders in order. One that does not have the package leaves it to the next; any other
error ends the search. -/
def findFirst (files : FileTree) (name : String) (selector : Selector) :
    List Finder → Except SessionError Manifest
  | [] => .error (.packageNotFound name selector)
  | finder :: finders =>
    match finder.find files name selector with
    | .error (.packageNotFound ..) => findFirst files name selector finders
    | result => result

end Finder

end Lading
