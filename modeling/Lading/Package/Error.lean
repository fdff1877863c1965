import Lading.Text.Quoted

namespace Lading

inductive Version.Part
  | major | minor | patch | preRelease | build
deriving DecidableEq, Repr

def Version.Part.name : Version.Part → String
  | .major => "major version number"
  | .minor => "minor version number"
  | .patch => "patch version number"
  | .preRelease => "pre-release identifier"
  | .build => "build metadata"

inductive Version.Fault
  | empty
  | unexpectedEnd (part : Version.Part)
  | unexpectedChar (c : Char) (part : Version.Part)
  | unexpectedAfter (c : Char) (part : Version.Part)
  | leadingZero (part : Version.Part)
  | tooLarge (part : Version.Part)
  | emptySegment (part : Version.Part)
deriving DecidableEq, Repr

def Version.Fault.message : Version.Fault → String
  | .empty => "empty string, expected a semver version"
  | .unexpectedEnd part => s!"unexpected end of input while parsing {part.name}"
  | .unexpectedChar c part => s!"unexpected character {Text.quoteChar c} while parsing {part.name}"
  | .unexpectedAfter c part => s!"unexpected character {Text.quoteChar c} after {part.name}"
  | .leadingZero part => s!"invalid leading zero in {part.name}"
  | .tooLarge part => s!"value of {part.name} exceeds u64::MAX"
  | .emptySegment part => s!"empty identifier segment in {part.name}"

inductive Selector.Fault
  | empty
  | emptyAlternative
  | clause (token : String) (fault : Version.Fault)
  | danglingOperator (operator : String)
deriving DecidableEq, Repr

def Selector.Fault.message : Selector.Fault → String
  | .empty => "empty selector"
  | .emptyAlternative => "empty alternative"
  | .clause token fault => s!"'{token}': {fault.message}"
  | .danglingOperator operator => s!"operator '{operator}' without a version"

inductive PackageName.Fault
  | emptyReference
  | bareScope
  | emptyScope
  | invalidScope (scope : String)
  | missingName
  | invalidName (name : String)
deriving DecidableEq, Repr

def PackageName.Fault.message : PackageName.Fault → String
  | .emptyReference => "empty reference"
  | .bareScope => "scope without '/name'"
  | .emptyScope => "empty scope"
  | .invalidScope scope => s!"invalid scope '{scope}'"
  | .missingName => "missing package name"
  | .invalidName name => s!"invalid package name '{name}'"

def Selector.Fault.sentence (input : String) (fault : Selector.Fault) : String :=
  s!"Invalid version selector '{input}': {fault.message}"

def PackageName.Fault.sentence (input : String) (fault : PackageName.Fault) : String :=
  s!"Invalid package name '{input}': {fault.message}"

inductive Reference.Fault
  | name (fault : PackageName.Fault)
  | emptySelector
  | selector (input : String) (fault : Selector.Fault)
  | emptyModule
  | scopedModule (path : String)
  | invalidModule (path : String)
  | invalidMember (member : String)
  | stray (rest : String)
  | relativeMember
  | versionOrMember
deriving DecidableEq, Repr

def Reference.Fault.message : Reference.Fault → String
  | .name fault => fault.message
  | .emptySelector => "empty version selector"
  | .selector input fault => fault.sentence input
  | .emptyModule => "empty module path"
  | .scopedModule path => s!"module path '{path}' must not start with '@'"
  | .invalidModule path => s!"invalid module path '{path}'"
  | .invalidMember member => s!"invalid member '{member}'"
  | .stray rest => s!"unexpected '{rest}' after reference"
  | .relativeMember => "relative references cannot name a member"
  | .versionOrMember => "require() accepts no version or member"

inductive Requirement.Fault
  | danglingFlag
  | invalidOption (option : String)
  | invalidFlag (flag : String)
  | name (input : String) (fault : PackageName.Fault)
  | missingTarget
  | emptyGitUrl
  | selector (input : String) (fault : Selector.Fault)
  | misplacedRegistry
deriving DecidableEq, Repr

def Requirement.Fault.message : Requirement.Fault → String
  | .danglingFlag => "flag without a requirement"
  | .invalidOption option => s!"invalid option \"{option}\""
  | .invalidFlag flag => s!"invalid flag \"{flag}\""
  | .name input fault => fault.sentence input
  | .missingTarget => "missing selector, path or git URL"
  | .emptyGitUrl => "empty git URL"
  | .selector input fault => fault.sentence input
  | .misplacedRegistry =>
    "--registry can only be specified for dependencies resolved in a registry"

inductive ExternalRequirement.Fault
  | missingName
  | unclosedExtras
  | invalidExtra (extra : String)
  | missingOperator (clause : String)
  | invalidVersion (clause : String)
deriving DecidableEq, Repr

def ExternalRequirement.Fault.message : ExternalRequirement.Fault → String
  | .missingName => "missing package name"
  | .unclosedExtras => "unclosed extras list"
  | .invalidExtra extra => s!"invalid extra '{extra}'"
  | .missingOperator clause => s!"specifier clause '{clause}' has no operator"
  | .invalidVersion clause => s!"invalid version in specifier clause '{clause}'"

inductive Manifest.Fault
  | invalidJson
  | notObject (kind : String)
  | missingField (field : String)
  | fieldNotString (field kind : String)
  | dependenciesNotObject (kind : String)
  | dependencyNotString (name kind : String)
deriving DecidableEq, Repr

def Manifest.Fault.message : Manifest.Fault → String
  | .invalidJson => "Invalid JSON: <json>"
  | .notObject kind => s!"manifest must be a JSON object, got {kind}"
  | .missingField field => s!"missing '{field}' field"
  | .fieldNotString field kind => s!"'{field}' must be a string, got {kind}"
  | .dependenciesNotObject kind => s!"'dependencies' must be an object, got {kind}"
  | .dependencyNotString name kind => s!"dependency '{name}' must be a string, got {kind}"

/-- A fault tells the cause within one text; an error adds the text itself. -/
inductive PackageError
  | version (input : String) (fault : Version.Fault)
  | selector (input : String) (fault : Selector.Fault)
  | reference (input : String) (fault : Reference.Fault)
  | name (input : String) (fault : PackageName.Fault)
  | requirement (input : String) (fault : Requirement.Fault)
  | external (input : String) (fault : ExternalRequirement.Fault)
  | manifest (fault : Manifest.Fault)
  | manifestNotFound (path : String)
deriving DecidableEq, Repr

namespace PackageError

def code : PackageError → String
  | .version .. => "PKG_VERSION_INVALID"
  | .selector .. => "PKG_SELECTOR_INVALID"
  | .reference .. => "PKG_REF_INVALID"
  | .name .. => "PKG_NAME_INVALID"
  | .requirement .. | .external .. => "PKG_REQUIREMENT_INVALID"
  | .manifest _ => "PKG_MANIFEST_INVALID"
  | .manifestNotFound _ => "PKG_MANIFEST_NOT_FOUND"

def message : PackageError → String
  | .version input fault => s!"Invalid version '{input}': {fault.message}"
  | .selector input fault => fault.sentence input
  | .reference input fault => s!"Invalid reference '{input}': {fault.message}"
  | .name input fault => fault.sentence input
  | .requirement input fault => s!"Invalid requirement '{input}': {fault.message}"
  | .external input fault => s!"Invalid requirement '{input}': {fault.message}"
  | .manifest fault => fault.message
  | .manifestNotFound path => s!"Manifest not found: {path}"

def display (e : PackageError) : String := s!"{e.code}: {e.message}"

end PackageError

end Lading
