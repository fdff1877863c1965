import Lading.Files.FilePath
import Lading.Predicate.Context
import Lading.Text.Blank

namespace Lading

def programName : String := "nnp"

def programVersion : Version := .release 0 2 0

def versionLine : String := programName ++ " " ++ toString programVersion

inductive Environment
  | development | production
deriving DecidableEq, Repr

namespace Environment

def name : Environment → String
  | .development => "development"
  | .production => "production"

def parse? (s : String) : Option Environment :=
  let word := String.ofList ((Text.trim s.toList).map Char.toLower)
  if word = "dev" ∨ word = "development" then some .development
  else if word = "prod" ∨ word = "production" then some .production
  else none

end Environment

inductive ConfigVar
  | bool (value : Bool)
  | int (value : Int)
  | float (value : Float)
  | str (value : String)

def ConfigVar.value : ConfigVar → Value
  | .bool b => .bool b
  | .int n => .int n
  | .float x => .float x
  | .str s => .str s

/-- A configuration. An explicit search path takes the place of the computed one. -/
structure Config where
  workingDirectory : String
  installRoot : String
  localPackages : Option String
  searchPath : Option (List String)
  hostPaths : Option (List String)
  environment : Environment
  strictEval : Bool
  strictCycles : Bool
  verbosity : Nat
  jsonLogs : Bool
  vars : Entries ConfigVar

namespace Config

def localPackagesName : String := "nnp_packages"

def defaultRoot (home : String) : String := FilePath.join home ".nnp"

def packagesIn (root : String) : String := FilePath.join root "packages"

def modulesIn (root : String) : String := FilePath.join root "modules"

def standard (workingDirectory home : String) : Config :=
  { workingDirectory
    installRoot := defaultRoot home
    localPackages := some localPackagesName
    searchPath := none
    hostPaths := none
    environment := .development
    strictEval := false
    strictCycles := false
    verbosity := 0
    jsonLogs := false
    vars := [] }

def localDirectory (c : Config) : Option String :=
  c.localPackages.map (FilePath.join c.workingDirectory)

def packagePath (c : Config) : List String :=
  c.searchPath.getD (c.localDirectory.toList ++ [packagesIn c.installRoot])

def hostPath (c : Config) : List String :=
  c.hostPaths.getD
    ((c.localDirectory.map fun d ↦ FilePath.join d ".modules").toList ++ [modulesIn c.installRoot])

/-- The context of predicates. Configured variables hide those of the same name. -/
def context (c : Config) : Context :=
  let base := ((Context.standard.withStrict c.strictEval).set "dev"
    (.bool (c.environment = .development))).set "prod" (.bool (c.environment = .production))
  c.vars.sorted.foldl (fun context (name, var) ↦ context.set name var.value)
    (base.set programName (.version programVersion))

end Config

inductive ConfigError
  | unreadable (path : String) (message : String)
  | malformed (path : String)
  | invalidEnvironment (value : String)
deriving DecidableEq, Repr

def environmentVariable : String := "NNP_ENV"

def rootVariable : String := "NNP_PREFIX"

def ConfigError.message : ConfigError → String
  | .unreadable path message => s!"Failed to read config at {path}: {message}"
  | .malformed path => s!"Failed to parse config at {path}: <json>"
  | .invalidEnvironment value =>
    s!"Invalid value '{value}' for {environmentVariable}: expected dev, development, prod or "
      ++ "production"

def nonBlank (value : String) : Option String :=
  if Text.trim value.toList = [] then none else some value

/-- Applies the variables of a process. A blank value counts as none. -/
def Config.applyVariables (c : Config) (lookup : String → Option String) :
    Except ConfigError Config := do
  let c ← match (lookup environmentVariable).bind nonBlank with
    | none => .ok c
    | some value =>
      match Environment.parse? value with
      | some environment => .ok { c with environment }
      | none => .error (.invalidEnvironment value)
  match (lookup rootVariable).bind nonBlank with
  | none => return c
  | some installRoot => return { c with installRoot }

end Lading
