import Lading.Session.Execute

namespace Lading.DataModule

variable {μ : Type}

def requireAll (path : String) (next : Body μ) : List Json → Body μ
  | [] => next
  | .string reference :: rest =>
    .require reference fun
      | .ok _ => requireAll path next rest
      | .error error => .fail error
  | _ :: _ => .fail (.failure s!"{path}: require entries must be strings")

def exportAll (m : ModuleId) : Json.Fields → Body μ
  | [] => .finish
  | (key, value) :: fields => .assign m key value (exportAll m fields)

/-- What a module does whose file has these fields: it requires the references under `require` and
then exports all other fields. -/
def ofFields (m : ModuleId) (path : String) (fields : Json.Fields) : Body μ :=
  let exported := exportAll m (fields.filter (·.1 != "require"))
  match fields.get? "require" with
  | none => exported
  | some (.array references) => requireAll path exported references
  | some _ => .fail (.failure s!"{path}: 'require' must be an array")

def ofText (m : ModuleId) (path text : String) : Body μ :=
  match Json.read? text with
  | none => .fail (.failure "<json>")
  | some (.object fields) => ofFields m path fields
  | some _ => .fail (.failure s!"{path}: module body must be an object")

def body (s : Session μ) (m : ModuleId) : Body μ :=
  match s.pathOf? m with
  | none => .fail (.failure s!"module \"{s.identifier m}\" has no location")
  | some path =>
    let path := path ++ ".json"
    match s.files.read path with
    | .error fault => .fail (.failure s!"{path}: {fault.message}")
    | .ok text => ofText m path text

def fieldsOf? (text : String) : Option Json.Fields :=
  match Json.read? text with
  | some (.object fields) => some fields
  | _ => none

def requirements (fields : Json.Fields) : List String :=
  match fields.get? "require" with
  | some (.array references) => references.filterMap Json.string?
  | _ => []

def referencesOf : FileNode → List String
  | .file bytes => ((fieldsOf? (Text.decodeUtf8 bytes)).map requirements).getD []
  | .directory => []

def references (files : FileTree) : List String :=
  files.nodes.flatMap fun (_, node) ↦ referencesOf node

/-- More than the modules that can run inside each other: a package has at most one module for a
file, and every package is loaded already or named in a file. -/
def depth (s : Session μ) : Nat :=
  (s.packages.length + (references s.files).length) * s.files.nodes.length + 1

def hooks (observer : Option (Observer μ)) : Hooks μ := { body, observer, depth }

end Lading.DataModule
