import Lading.Manifest.Basic
import Lading.Package.Requirement
import Lading.Predicate.Key

namespace Lading

/-- One occurrence of a field. For a field in a block `condition` is the key `cfg(P)` of the block,
for a field with a predicate of its own it is `cfg(P).`. -/
structure FieldEntry where
  condition : Option String
  name : String
  value : Json

namespace FieldEntry

def endsInDot (condition : String) : Bool := condition.toList.getLast? == some '.'

def isInline (entry : FieldEntry) : Bool := entry.condition.any endsInDot

def predicate? (entry : FieldEntry) : Option String := do
  let condition ← entry.condition
  let key := if endsInDot condition then String.ofList condition.toList.dropLast else condition
  (ConditionKey.recognize key).map (·.predicate)

def ofField (key : String) (value : Json) : List FieldEntry :=
  match ConditionKey.recognize key, value with
  | some (.block _), .object fields => fields.map fun (name, value) ↦ ⟨some key, name, value⟩
  | some (.inline _ field), value =>
    let condition := key.toList.take (key.length - field.length)
    [⟨some (String.ofList condition), field, value⟩]
  -- A block whose value is no object is a plain field.
  | _, value => [⟨none, key, value⟩]

def all (document : Json.Fields) : List FieldEntry :=
  document.flatMap fun (key, value) ↦ ofField key value

def named (document : Json.Fields) (name : String) : List (Option String × Json) :=
  ((all document).filter (·.name == name)).map fun entry ↦ (entry.condition, entry.value)

end FieldEntry

/-- Applies one more value of a field. An object is merged into an object key by key; any other
value takes the place of the one before. -/
def Json.Fields.merge (fields : Json.Fields) (name : String) (value : Json) : Json.Fields :=
  match fields.get? name, value with
  | some (.object existing), .object incoming =>
    Entries.put fields name (.object (Entries.putAll existing incoming))
  | _, value => Entries.put fields name value

namespace Manifest

def effectiveFrom (fields : Json.Fields) (e : Evaluator) :
    List FieldEntry → Except PredicateError Json.Fields × Evaluator
  | [] => (.ok fields, e)
  | entry :: entries =>
    match entry.predicate? with
    | none => effectiveFrom (fields.merge entry.name entry.value) e entries
    | some predicate =>
      match e.evaluate predicate with
      | (.error error, e) => (.error error, e)
      | (.ok true, e) => effectiveFrom (fields.merge entry.name entry.value) e entries
      | (.ok false, e) => effectiveFrom fields e entries

def effective (document : Json.Fields) (e : Evaluator) :
    Except PredicateError Json.Fields × Evaluator :=
  effectiveFrom [] e (FieldEntry.all document)

def dependency (name : String) (line : Json) : Except ManifestError (String × Requirement) :=
  match line with
  | .string line =>
    match Requirement.parseNamed name line with
    | .ok requirement => .ok (name, requirement)
    | .error error => .error (.package error)
  | other => .error (.package (.manifest (.dependencyNotString name other.kind)))

def dependencies (fields : Json.Fields) : Except ManifestError (List (String × Requirement)) :=
  match fields.get? "dependencies" with
  | none => .ok []
  | some (.object lines) => lines.mapM fun (name, line) ↦ dependency name line
  | some other => .error (.package (.manifest (.dependenciesNotObject other.kind)))

def effectiveDependencies (document : Json.Fields) (e : Evaluator) :
    Except ManifestError (List (String × Requirement)) × Evaluator :=
  match effective document e with
  | (.error error, e) => (.error (.predicate error), e)
  | (.ok fields, e) => (dependencies fields, e)

end Manifest

end Lading
