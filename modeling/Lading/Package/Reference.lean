import Lading.Package.Name
import Lading.Selector.Reader

namespace Lading

/-- A reference `[@scope/]name[@selector][/module][:member]` to a package, a module of it or a
member of that module. -/
structure Reference where
  package : PackageName
  selector : Option Selector
  module : Option String
  member : Option String
deriving DecidableEq, Repr

namespace Reference

def text (r : Reference) : List Char :=
  r.package.text ++
    (match r.selector with | none => [] | some s => '@' :: s.text) ++
    (match r.module with | none => [] | some m => '/' :: m.toList) ++
    (match r.member with | none => [] | some m => ':' :: m.toList)

instance : ToString Reference := ⟨fun r ↦ String.ofList r.text⟩

def readSelector : List Char → Except Fault (Option Selector × List Char)
  | '@' :: body =>
    let goesOn := fun c ↦ c != '/' && c != ':'
    let s := body.takeWhile goesOn
    if Text.trim s = [] then .error .emptySelector
    else
      match Selector.read s with
      | .ok selector => .ok (some selector, body.dropWhile goesOn)
      | .error fault => .error (.selector (String.ofList s) fault)
  | s => .ok (none, s)

def isModuleSegment (s : List Char) : Bool :=
  s != ['.'] && s != ['.', '.'] && PackageName.isWord s

def readModule : List Char → Except Fault (Option String × List Char)
  | '/' :: body =>
    let path := body.takeWhile (· != ':')
    if path = [] then .error .emptyModule
    else if path.head? = some '@' then .error (.scopedModule (String.ofList path))
    else if (path.splitOn '/').all isModuleSegment then
      .ok (some (String.ofList path), body.dropWhile (· != ':'))
    else .error (.invalidModule (String.ofList path))
  | s => .ok (none, s)

def isMember : List Char → Bool
  | [] => false
  | c :: cs => (c.isAlpha || c == '_') && cs.all fun c ↦ c.isAlphanum || c == '_'

def readMember : List Char → Except Fault (Option String)
  | [] => .ok none
  | ':' :: body =>
    if isMember body then .ok (some (String.ofList body))
    else .error (.invalidMember (String.ofList body))
  | s => .error (.stray (String.ofList s))

def read (s : List Char) : Except Fault Reference := do
  let (scope, s) ← (PackageName.splitScope s).mapError .name
  let goesOn := fun c ↦ c != '@' && c != '/' && c != ':'
  let name ← (PackageName.checkName (s.takeWhile goesOn)).mapError .name
  let (selector, s) ← readSelector (s.dropWhile goesOn)
  let (module, s) ← readModule s
  let member ← readMember s
  return { package := { scope, name }, selector, module, member }

def parse (input : String) : Except PackageError Reference :=
  (read (Text.trim input.toList)).mapError (.reference input)

end Reference

end Lading
