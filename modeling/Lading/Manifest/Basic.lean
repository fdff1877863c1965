import Lading.Files.Tree
import Lading.Json.Reader
import Lading.Package.Name
import Lading.Predicate.Cache
import Lading.Version.Reader

namespace Lading

inductive ManifestError
  | package (error : PackageError)
  | predicate (error : PredicateError)
  | unreadable (path : String) (fault : FileFault)
  | malformed (path : String)
deriving DecidableEq, Repr

namespace ManifestError

def message : ManifestError → String
  | .package error => error.display
  | .predicate error => error.message
  | .unreadable path fault => s!"Failed to read manifest at {path}: {fault.message}"
  | .malformed path => s!"Failed to parse manifest at {path}: <json>"

def code : ManifestError → String
  | .package error => error.code
  | _ => "PKG_MANIFEST_INVALID"

end ManifestError

structure Manifest where
  document : Json.Fields
  directory : Option String

namespace Manifest

def fileName : String := "nnp.json"

def defaultMain : String := "index"

def ofJson (value : Json) (directory : Option String) : Except ManifestError Manifest :=
  match value with
  | .object document => .ok { document, directory }
  | other => .error (.package (.manifest (.notObject other.kind)))

def parse (text : String) (directory : Option String) : Except ManifestError Manifest :=
  match Json.read? text with
  | some value => ofJson value directory
  | none => .error (.package (.manifest .invalidJson))

/-- Reads a manifest file. Its directory is recorded by the absolute path. -/
def load (files : FileTree) (path : String) : Except ManifestError Manifest :=
  if !files.isFile path then .error (.package (.manifestNotFound path))
  else
    match files.read path with
    | .error fault => .error (.unreadable path fault)
    | .ok text =>
      match Json.read? text with
      | some value => ofJson value (some (files.containingDirectory path))
      | none => .error (.malformed path)

def loadDirectory (files : FileTree) (directory : String) : Except ManifestError Manifest :=
  load files (FilePath.join directory fileName)

def get? (m : Manifest) (field : String) : Option Json := m.document.get? field

def requiredString (m : Manifest) (field : String) : Except ManifestError String :=
  match m.document.get? field with
  | some (.string s) => .ok s
  | some other => .error (.package (.manifest (.fieldNotString field other.kind)))
  | none => .error (.package (.manifest (.missingField field)))

def name (m : Manifest) : Except ManifestError PackageName := do
  let text ← m.requiredString "name"
  (PackageName.parse text).mapError .package

def version (m : Manifest) : Except ManifestError Version := do
  let text ← m.requiredString "version"
  (Version.parse text).mapError .package

def identifier (m : Manifest) : Except ManifestError String := do
  let name ← m.name
  let version ← m.version
  return name.fullName ++ "@" ++ toString version

def mainOf (fields : Json.Fields) : String :=
  ((fields.get? "main").bind Json.string?).getD defaultMain

def main (m : Manifest) : String := mainOf m.document

end Manifest

end Lading
