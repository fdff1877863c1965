import Lading.Session.Execute

namespace Lading

inductive Action
  | assign (key text : String)
  | require (reference : String)
  | resolve (reference : String)
  | attempt (reference : String)
  | wrap (reference : String)
  | peek (reference key : String)
  | hosts
  | origin
  | fail (text : String)
  | failOnce (text : String)
deriving DecidableEq, Repr

abbrev Script := Entries (List Action)

structure Transcript where
  lines : List String
  runs : Entries Nat

namespace Transcript

def empty : Transcript := ⟨[], []⟩

def write (t : Transcript) (line : String) : Transcript := { t with lines := t.lines ++ [line] }

def runsOf (t : Transcript) (key : String) : Nat := (t.runs.get? key).getD 0

def count (t : Transcript) (key : String) : Transcript :=
  { t with runs := Entries.put t.runs key (t.runsOf key + 1) }

end Transcript

def ModuleState.name : ModuleState → String
  | .unexecuted => "Unexecuted"
  | .executing => "Executing"
  | .executed => "Executed"

namespace Script

def keyOf (s : Session Transcript) (m : ModuleId) : String :=
  ((s.packageOf? m).map (·.name)).getD "" ++ "/" ++ s.nameOf m

def note (line : String) (next : Body Transcript) : Body Transcript :=
  .remember (·.write line) next

def noteModule (verb : String) (m : ModuleId) (next : Body Transcript) : Body Transcript :=
  .inspect fun s ↦ note s!"{verb} {s.identifier m} {(s.stateOf m).name}" next

def perform (m : ModuleId) (action : Action) (next : Body Transcript) : Body Transcript :=
  match action with
  | .assign key text =>
    match Json.read? text with
    | some value => .assign m key value next
    | none => .fail (.failure "<json>")
  | .require reference =>
    .require reference fun
      | .ok found => noteModule "required" found next
      | .error error => .fail error
  | .resolve reference =>
    .resolve reference fun
      | .ok found => noteModule "resolved" found next
      | .error error => .fail error
  | .attempt reference =>
    .require reference fun
      | .ok found => noteModule "tried" found next
      | .error error => note s!"caught {error.message}" next
  | .wrap reference =>
    .require reference fun
      | .ok _ => next
      | .error error => .fail (.failure s!"wrapped: {error.message}")
  | .peek reference key =>
    .resolve reference fun
      | .ok found => .inspect fun s ↦
        let value := ((s.export? found key).map Json.compact).getD "none"
        note s!"peek {s.identifier found} {key} {value}" next
      | .error error => .fail error
  | .hosts => .inspect fun s ↦ note ("hosts " ++ " ".intercalate s.hostPaths) next
  | .origin => noteModule "origin" m next
  | .fail text => .fail (.failure text)
  | .failOnce text => .inspect fun s ↦
    if s.memory.runsOf (keyOf s m) = 1 then .fail (.failure text) else next

def body (script : Script) (s : Session Transcript) (m : ModuleId) : Body Transcript :=
  let key := keyOf s m
  .remember (fun t ↦ (t.write s!"run {key}").count key)
    (((script.get? key).getD []).foldr (perform m) .finish)

def observer (declaredOnly : Bool) (denied : List String) : Observer Transcript :=
  fun s origin package ↦
    let requester := (origin.map s.identifier).getD "-"
    let answer : Except SessionError Unit :=
      if denied.contains package then .error (.misuse (.refused s!"denied {package}"))
      else
        match declaredOnly, origin.bind s.packageOf? with
        | true, some p =>
          if (p.dependency? package).isSome then .ok ()
          else .error (.misuse (.refused s!"\"{p.name}\" does not depend on \"{package}\""))
        | _, _ => .ok ()
    (answer, s.memory.write s!"observe {requester} {package}")

/-- Modules follow a script. Those that it does not name do nothing, so no more of them run inside
each other than it names, and two. -/
def hooks (script : Script) (observer : Option (Observer Transcript)) : Hooks Transcript :=
  { body := body script, observer, depth := fun _ ↦ script.length + 2 }

def idle {μ : Type} (observer : Option (Observer μ)) : Hooks μ :=
  { body := fun _ _ ↦ .finish, observer, depth := fun _ ↦ 1 }

end Script

end Lading
