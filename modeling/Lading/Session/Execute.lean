import Lading.Session.Resolve

namespace Lading

variable {μ : Type}

/-- What running a module does from some point on: a tree of steps, each of which asks the session
for something, where the answer selects what comes next. -/
inductive Body (μ : Type) : Type
  | finish
  | fail (error : SessionError)
  | assign (module : ModuleId) (key : String) (value : Json) (next : Body μ)
  | remember (change : μ → μ) (next : Body μ)
  | inspect (next : Session μ → Body μ)
  | resolve (reference : String) (next : Except SessionError ModuleId → Body μ)
  | require (reference : String) (next : Except SessionError ModuleId → Body μ)

/-- The code around a session: what modules do, who watches over requires, and how deep modules may
run inside each other. -/
structure Hooks (μ : Type) where
  body : Session μ → ModuleId → Body μ
  observer : Option (Observer μ)
  depth : Session μ → Nat

abbrev Run (μ α : Type) : Type := Option (Except SessionError α × Session μ)

def Body.run (observer : Option (Observer μ)) (execute : Session μ → ModuleId → Run μ Unit)
    (origin : ModuleId) : Body μ → Session μ → Run μ Unit
  | .finish, s => some (.ok (), s)
  | .fail error, s => some (.error error, s)
  | .assign m key value next, s => next.run observer execute origin (s.setExport m key value)
  | .remember change next, s =>
    next.run observer execute origin { s with memory := change s.memory }
  | .inspect next, s => (next s).run observer execute origin s
  | .resolve reference next, s =>
    match s.resolve observer reference (some origin) with
    | (result, s) => (next result).run observer execute origin s
  | .require reference next, s =>
    match s.resolve observer reference (some origin) with
    | (.error error, s) => (next (.error error)).run observer execute origin s
    | (.ok m, s) =>
      match execute s m with
      | none => none
      | some (.error error, s) => (next (.error error)).run observer execute origin s
      | some (.ok (), s) => (next (.ok m)).run observer execute origin s

namespace Session

def meetCycle (s : Session μ) (m : ModuleId) : Except SessionError Unit × Session μ :=
  let identifier := s.identifier m
  if s.config.strictCycles then (.error (.cyclicRequire identifier), s)
  else (.ok (), s.record (.cycle m identifier (s.current?.map s.identifier)))

def begin (s : Session μ) (m : ModuleId) : Session μ :=
  Session.record
    { s.setState m .executing with stack := s.stack ++ [m] } (.started m)

/-- Takes the module that ran off the stack and settles what became of it. A failed module is as
if it had never run. -/
def settle (s : Session μ) (m : ModuleId) (result : Except SessionError Unit) :
    Except SessionError Unit × Session μ :=
  let s := { s with stack := s.stack.dropLast }
  match result with
  | .ok () => (.ok (), (s.setState m .executed).record (.finished m))
  | .error error =>
    (.error (error.wrap (s.identifier m)),
      ((s.setState m .unexecuted).clearExports m).record (.failed m))

def execute (hooks : Hooks μ) : Nat → Session μ → ModuleId → Run μ Unit
  | depth, s, m =>
    match s.stateOf m with
    | .executed => some (.ok (), s)
    | .executing => some (s.meetCycle m)
    | .unexecuted =>
      match depth with
      | 0 => none
      | depth + 1 =>
        let s := s.begin m
        match (hooks.body s m).run hooks.observer (execute hooks depth) m s with
        | none => none
        | some (result, s) => some (s.settle m result)

def executeModule (hooks : Hooks μ) (s : Session μ) (m : ModuleId) : Run μ Unit :=
  execute hooks (hooks.depth s) s m

def require (hooks : Hooks μ) (s : Session μ) (reference : String) (origin : Option ModuleId)
    (run : Bool) : Run μ ModuleId :=
  match s.resolve hooks.observer reference origin with
  | (.error error, s) => some (.error error, s)
  | (.ok m, s) =>
    if run then
      match s.executeModule hooks m with
      | none => none
      | some (.error error, s) => some (.error error, s)
      | some (.ok (), s) => some (.ok m, s)
    else some (.ok m, s)

end Session

end Lading
