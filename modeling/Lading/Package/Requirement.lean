import Lading.Package.Name
import Lading.Selector.Reader

namespace Lading.Requirement

inductive Flag
  | pure | internal | link | optional | recursive
deriving DecidableEq, Repr

namespace Flag

def all : List Flag := [.pure, .internal, .link, .optional, .recursive]

def name : Flag → String
  | .pure => "pure"
  | .internal => "internal"
  | .link => "link"
  | .optional => "optional"
  | .recursive => "recursive"

def ofName? (name : String) : Option Flag := all.find? (·.name == name)

end Flag

structure Flags where
  pure : Option Bool := none
  internal : Option Bool := none
  link : Option Bool := none
  optional : Option Bool := none
  recursive : Option Bool := none
deriving DecidableEq, Repr

namespace Flags

def get (flags : Flags) : Flag → Option Bool
  | .pure => flags.pure
  | .internal => flags.internal
  | .link => flags.link
  | .optional => flags.optional
  | .recursive => flags.recursive

def set (flags : Flags) (flag : Flag) (value : Option Bool) : Flags :=
  match flag with
  | .pure => { flags with pure := value }
  | .internal => { flags with internal := value }
  | .link => { flags with link := value }
  | .optional => { flags with optional := value }
  | .recursive => { flags with recursive := value }

def inherit (flags parent : Flags) : Flags where
  pure := flags.pure <|> parent.pure
  internal := flags.internal <|> parent.internal
  link := flags.link <|> parent.link
  optional := flags.optional <|> parent.optional
  recursive := flags.recursive <|> parent.recursive

def isSet (flags : Flags) (name : String) : Bool :=
  (Flag.ofName? name).any fun flag ↦ flags.get flag == some true

end Flags

inductive Source
  | registry (selector : Selector) (registry : Option String)
  | path (path : String)
  | git (url : String)
deriving DecidableEq, Repr

end Requirement

/-- A line `[--flag ...] [--registry=URL] [name@](selector | path | git+URL)`. -/
structure Requirement where
  name : Option String
  source : Requirement.Source
  flags : Requirement.Flags
deriving DecidableEq, Repr

namespace Requirement

def selector? (r : Requirement) : Option Selector :=
  match r.source with
  | .registry selector _ => some selector
  | _ => none

def isRegistry (r : Requirement) : Bool := r.selector?.isSome

def inherit (r parent : Requirement) : Requirement :=
  { r with flags := r.flags.inherit parent.flags }

def flagText (flags : Flags) (flag : Flag) : List Char :=
  if flags.get flag = some true then ['-', '-'] ++ flag.name.toList ++ [' '] else []

def registryText : Source → List Char
  | .registry _ (some registry) => "--registry=".toList ++ registry.toList ++ [' ']
  | _ => []

def Source.text : Source → List Char
  | .registry selector _ => selector.text
  | .path target => target.toList
  | .git url => "git+".toList ++ url.toList

/-- The line of a requirement. Flags that are switched off or not said are left out. -/
def text (r : Requirement) : List Char :=
  Flag.all.flatMap (flagText r.flags) ++ registryText r.source ++
    (match r.name with | none => [] | some name => name.toList ++ ['@']) ++ r.source.text

instance : ToString Requirement := ⟨fun r ↦ String.ofList r.text⟩

structure Options where
  flags : Flags := {}
  registry : Option String := none

def Options.add (options : Options) (token : List Char) : Except Fault Options :=
  match Text.cut '=' token with
  | some (option, value) =>
    if option = "registry".toList ∧ value ≠ [] then
      .ok { options with registry := some (String.ofList value) }
    else .error (.invalidOption (String.ofList option))
  | none =>
    match Flag.ofName? (String.ofList token) with
    | some flag => .ok { options with flags := options.flags.set flag (some true) }
    | none => .error (.invalidFlag (String.ofList token))

def readOptions (options : Options) : List Char → Except Fault (Options × List Char)
  | '-' :: '-' :: s =>
    let token := s.takeWhile (!Text.isBlank ·)
    let rest := s.dropWhile (!Text.isBlank ·)
    if rest = [] then .error .danglingFlag
    else
      match options.add token with
      | .error fault => .error fault
      | .ok options => readOptions options (Text.trimStart rest)
  | s => .ok (options, s)
termination_by s => s.length
decreasing_by
  have h₁ := (List.dropWhile_suffix (l := s.dropWhile (!Text.isBlank ·)) Text.isBlank).length_le
  have h₂ := (List.dropWhile_suffix (l := s) (!Text.isBlank ·)).length_le
  simp only [Text.trimStart, List.length_cons]
  omega

/-- Splits `name@rest`. The `@` of a scope is passed over and a git URL has no name. -/
def splitName (s : List Char) : Option (List Char × List Char) :=
  if "git+".toList.isPrefixOf s then none
  else
    match s with
    | '@' :: body => (Text.cut '@' body).map fun (name, rest) ↦ ('@' :: name, rest)
    | s => Text.cut '@' s

/-- A path starts with `/`, `./` or `../`, or with a backslash in the place of the last two. -/
def isPath (s : List Char) : Bool :=
  [['.', '/'], ['.', '\\'], ['.', '.', '/'], ['.', '.', '\\'], ['/']].any (·.isPrefixOf s)

def readLocation (s : List Char) : Except Fault (Option Source) :=
  match Text.after? "git+".toList s with
  | some url => if url = [] then .error .emptyGitUrl else .ok (some (.git (String.ofList url)))
  | none => .ok (if isPath s then some (.path (String.ofList s)) else none)

def readSource (registry : Option String) (s : List Char) : Except Fault Source :=
  match readLocation s with
  | .error fault => .error fault
  | .ok (some source) => if registry.isSome then .error .misplacedRegistry else .ok source
  | .ok none =>
    match Selector.read s with
    | .ok selector => .ok (.registry selector registry)
    | .error fault => .error (.selector (String.ofList s) fault)

def readName (known : Option String) (s : List Char) :
    Except Fault (Option String × List Char) :=
  match known, splitName s with
  | none, some (left, right) =>
    match PackageName.read (Text.trim left) with
    | .ok name => .ok (some name.fullName, Text.trimEnd right)
    | .error fault => .error (.name (String.ofList left) fault)
  | _, _ => .ok (known, s)

def read (known : Option String) (s : List Char) : Except Fault Requirement := do
  let (options, s) ← readOptions {} (Text.trim s)
  let (name, s) ← readName known s
  if s = [] then throw .missingTarget
  let source ← readSource options.registry s
  return { name, source, flags := options.flags }

def parse (line : String) : Except PackageError Requirement :=
  (read none line.toList).mapError (.requirement line)

def parseNamed (name line : String) : Except PackageError Requirement :=
  (read (some name) line.toList).mapError (.requirement line)

end Requirement

end Lading
