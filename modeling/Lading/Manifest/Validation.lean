import Lading.Manifest.Fields
import Lading.Package.External

namespace Lading

inductive Issue
  | warning (text : String)
  | error (text : String)
deriving DecidableEq, Repr

abbrev Validator := Json → List Issue

structure FieldReport where
  entry : FieldEntry
  issues : List Issue

namespace FieldReport

def warnings (r : FieldReport) : List String :=
  r.issues.filterMap fun | .warning text => some text | .error _ => none

def errors (r : FieldReport) : List String :=
  r.issues.filterMap fun | .error text => some text | .warning _ => none

def hasErrors (r : FieldReport) : Bool := !r.errors.isEmpty

/-- Where the field stands: `name`, `cfg(P)>name` or `cfg(P).name`. -/
def location (r : FieldReport) : String :=
  match r.entry.condition with
  | none => r.entry.name
  | some condition =>
    if FieldEntry.endsInDot condition then condition ++ r.entry.name
    else condition ++ ">" ++ r.entry.name

end FieldReport

namespace Validator

def ofString (check : String → List Issue) : Validator
  | .string s => check s
  | other => [.error s!"expected a string, got {other.kind}"]

def ofStrings (check : List String → List Issue) : Validator := fun value ↦
  match value.array?.bind fun items ↦ items.mapM Json.string? with
  | some items => check items
  | none => [.error s!"expected an array of strings, got {value.kind}"]

def ofObject (check : String → Json → List Issue) : Validator
  | .object fields => fields.flatMap fun (name, value) ↦ check name value
  | other => [.error s!"expected an object, got {other.kind}"]

def ofResult {α : Type} : Except PackageError α → List Issue
  | .ok _ => []
  | .error e => [.error e.display]

def errorIf (condition : Prop) [Decidable condition] (text : String) : List Issue :=
  if condition then [.error text] else []

def name : Validator := ofString fun s ↦ ofResult (PackageName.parse s)

def version : Validator := ofString fun s ↦ ofResult (Version.parse s)

def knownCategories : List String :=
  ["CLI", "Library", "Framework", "Application", "System", "Networking", "GUI"]

def categories : Validator := ofStrings fun items ↦
  let unknown := items.filter fun item ↦ !knownCategories.contains item
  errorIf (unknown ≠ []) ("Unsupported categories: " ++ ", ".intercalate unknown) ++
    errorIf (5 < items.length) "Packages can only have up to 5 categories."

def keywords : Validator := ofStrings fun items ↦
  errorIf (∃ item ∈ items, item.length < 3 ∨ 30 < item.length)
      "Keywords must be between 3 and 30 characters." ++
    errorIf (15 < items.length) "Packages can only have up to 15 keywords."

def dependencies : Validator := ofObject fun name line ↦
  match line with
  | .string line => ofResult (Requirement.parseNamed name line)
  | other => [.error s!"dependency '{name}' must be a string, got {other.kind}"]

def externalDependencies : Validator := ofObject fun name specifier ↦
  match specifier with
  | .string specifier => ofResult (ExternalRequirement.parse (name ++ specifier))
  | other => [.error s!"pip dependency '{name}' must be a string, got {other.kind}"]

end Validator

abbrev ValidatorRegistry := Entries (List Validator)

namespace ValidatorRegistry

def validators (registry : ValidatorRegistry) (field : String) : List Validator :=
  (registry.get? field).getD []

def register (registry : ValidatorRegistry) (field : String) (validator : Validator) :
    ValidatorRegistry :=
  Entries.put registry field (registry.validators field ++ [validator])

def standard : ValidatorRegistry :=
  [("name", [Validator.name]), ("version", [Validator.version]),
    ("categories", [Validator.categories]), ("keywords", [Validator.keywords]),
    ("dependencies", [Validator.dependencies]),
    ("pip_dependencies", [Validator.externalDependencies])]

end ValidatorRegistry

def Manifest.validate (document : Json.Fields) (registry : ValidatorRegistry) : List FieldReport :=
  ((FieldEntry.all document).map fun entry ↦
    ⟨entry, (registry.validators entry.name).flatMap (· entry.value)⟩).filter (!·.issues.isEmpty)

end Lading
