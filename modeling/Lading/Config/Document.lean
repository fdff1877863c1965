import Lading.Config.Basic
import Lading.Files.Tree
import Lading.Json.Reader

namespace Lading.Config

abbrev FieldReader := Config → Json.Raw → Option Config

def string? : Json.Raw → Option String
  | .string value => value
  | _ => none

def bool? : Json.Raw → Option Bool
  | .bool value => some value
  | _ => none

def strings? : Json.Raw → Option (List String)
  | .array items => items.mapM string?
  | _ => none

def nullable {α : Type} (read : Json.Raw → Option α) : Json.Raw → Option (Option α)
  | .null => some none
  | value => (read value).map some

def verbosity? : Json.Raw → Option Nat
  | .number literal =>
    match literal.value? with
    | some (.integer n) => if 0 ≤ n ∧ n ≤ 255 then some n.toNat else none
    | _ => none
  | _ => none

def environmentNamed? (name : String) : Option Environment :=
  [Environment.development, .production].find? (·.name == name)

def environment? : Json.Raw → Option Environment
  | .string (some name) => environmentNamed? name
  | .object [(some name, .null)] => environmentNamed? name
  | _ => none

/-- A variable is a boolean, a number or a string. Integers beyond 64 bits with sign are taken as
doubles. -/
def var? : Json.Raw → Option ConfigVar
  | .bool value => some (.bool value)
  | .string value => value.map .str
  | .number literal =>
    match literal.value? with
    | some (.integer n) =>
      if n ≤ Decimal.maxInteger then some (.int n) else some (.float (Decimal.nearest n.toNat 1))
    | some (.float x) => some (.float x)
    | _ => none
  | _ => none

def varField? (field : Option String × Json.Raw) : Option (String × ConfigVar) := do
  let name ← field.1
  let var ← var? field.2
  return (name, var)

def vars? : Json.Raw → Option (Entries ConfigVar)
  | .object fields => (fields.mapM varField?).map Entries.ofList
  | _ => none

def fieldReaders : List (String × FieldReader) :=
  [("cwd", fun c raw ↦ (string? raw).map ({ c with workingDirectory := · })),
    ("prefix", fun c raw ↦ (string? raw).map ({ c with installRoot := · })),
    ("local_packages", fun c raw ↦ (nullable string? raw).map ({ c with localPackages := · })),
    ("path", fun c raw ↦ (nullable strings? raw).map ({ c with searchPath := · })),
    ("host_paths", fun c raw ↦ (nullable strings? raw).map ({ c with hostPaths := · })),
    ("environment", fun c raw ↦ (environment? raw).map ({ c with environment := · })),
    ("strict_eval", fun c raw ↦ (bool? raw).map ({ c with strictEval := · })),
    ("strict_cycles", fun c raw ↦ (bool? raw).map ({ c with strictCycles := · })),
    ("verbosity", fun c raw ↦ (verbosity? raw).map ({ c with verbosity := · })),
    ("json_logs", fun c raw ↦ (bool? raw).map ({ c with jsonLogs := · })),
    ("vars", fun c raw ↦ (vars? raw).map ({ c with vars := · }))]

/-- Reads fields by their names. No known field may stand twice; `seen` holds those that were
read. -/
def readNamed (c : Config) (seen : List String) :
    List (Option String × Json.Raw) → Option Config
  | [] => some c
  | (none, _) :: _ => none
  | (some key, raw) :: fields =>
    match fieldReaders.find? (·.1 == key) with
    | none => readNamed c seen fields
    | some (_, read) =>
      if seen.contains key then none
      else (read c raw).bind fun c ↦ readNamed c (key :: seen) fields

def readPlaced (c : Config) : List FieldReader → List Json.Raw → Option Config
  | _, [] => some c
  | [], _ :: _ => none
  | read :: readers, raw :: rest => (read c raw).bind fun c ↦ readPlaced c readers rest

/-- Reads a document, which names its fields or lists them in order. What it leaves out is taken
from a given configuration. -/
def read? (standard : Config) (text : String) : Option Config :=
  match Json.Raw.read text.toList with
  | some (.object fields) => readNamed standard [] fields
  | some (.array items) => readPlaced standard (fieldReaders.map (·.2)) items
  | _ => none

def load (files : FileTree) (standard : Config) (path : String) : Except ConfigError Config :=
  match files.read path with
  | .error fault => .error (.unreadable path fault.message)
  | .ok text =>
    match read? standard text with
    | some c => .ok c
    | none => .error (.malformed path)

def discover (files : FileTree) (home start : String) : Config :=
  standard ((files.projectRoot start).getD start) home

def varDocument : ConfigVar → Json
  | .bool b => .bool b
  | .int n => .integer n
  | .float x => .float x
  | .str s => .string s

def paths (list : List String) : Json := .array (list.map .string)

def document (c : Config) : Json :=
  .object [
    ("cwd", .string c.workingDirectory),
    ("prefix", .string c.installRoot),
    ("local_packages", (c.localPackages.map .string).getD .null),
    ("path", (c.searchPath.map paths).getD .null),
    ("host_paths", (c.hostPaths.map paths).getD .null),
    ("environment", .string c.environment.name),
    ("strict_eval", .bool c.strictEval),
    ("strict_cycles", .bool c.strictCycles),
    ("verbosity", .integer c.verbosity),
    ("json_logs", .bool c.jsonLogs),
    ("vars", .object (c.vars.sorted.map fun (name, var) ↦ (name, varDocument var)))]

end Lading.Config
