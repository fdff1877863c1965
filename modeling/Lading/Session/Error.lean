import Lading.Manifest.Basic
import Lading.Selector.Basic

namespace Lading

inductive Misuse
  | alreadyLoaded (package : String)
  | foreignManifest (found package : String)
  | misplacedManifest (path found package : String)
  | relativeWithoutModule (reference : String)
  | orphan (module : String)
  | escapingReference (reference package : String)
  | escapingPath (path package : String)
  | invalidMain (package main : String)
  | refused (text : String)
deriving DecidableEq, Repr

def Misuse.message : Misuse → String
  | .alreadyLoaded package => s!"package \"{package}\" is already loaded"
  | .foreignManifest found package => s!"finder returned package \"{found}\" for \"{package}\""
  | .misplacedManifest path found package =>
    s!"{path} declares package \"{found}\", expected \"{package}\""
  | .relativeWithoutModule reference => s!"relative require \"{reference}\" outside of a module"
  | .orphan module => s!"module \"{module}\" no longer belongs to a session"
  | .escapingReference reference package => s!"\"{reference}\" escapes package \"{package}\""
  | .escapingPath path package => s!"module path \"{path}\" escapes package \"{package}\""
  | .invalidMain package main => s!"package \"{package}\" has an invalid main \"{main}\""
  | .refused text => text

/-- An error of a session. Modules are told by their identifiers. An `execution` error wraps the
error that the body of a module ended with, and `failure` is a body's own complaint. -/
inductive SessionError
  | packageNotFound (name : String) (selector : Selector)
  | dependencyMismatch (name : String) (loaded : Version) (selector : Selector)
  | misuse (cause : Misuse)
  | reference (error : PackageError)
  | manifest (error : ManifestError)
  | cyclicRequire (module : String)
  | execution (module : String) (cause : SessionError)
  | failure (text : String)
deriving DecidableEq, Repr

namespace SessionError

def message : SessionError → String
  | .packageNotFound name selector =>
    s!"package \"{name}\" not found (selector \"{toString selector}\")"
  | .dependencyMismatch name loaded selector =>
    s!"\"{name}@{toString loaded}\" is already loaded but \"{toString selector}\" was required"
  | .misuse cause => cause.message
  | .reference error => error.display
  | .manifest error => error.message
  | .cyclicRequire module => s!"cyclic require of \"{module}\""
  | .execution module cause => s!"executing \"{module}\" failed: {cause.message}"
  | .failure text => text

def wrap (module : String) : SessionError → SessionError
  | .cyclicRequire m => .cyclicRequire m
  | e => .execution module e

end SessionError

end Lading
