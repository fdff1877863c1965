import Lading.Entries
import Lading.Decimal.Literal
import Lading.Predicate.Value
import Lading.Version.Reader

namespace Lading

inductive EvalReason
  | notSet (name : String)
  | noCoercion (kind : ValueKind)
  | coercion (literal : String) (kind : ValueKind) (reason : String)
  | incomparable (left right : ValueKind)
deriving DecidableEq, Repr

def EvalReason.message : EvalReason → String
  | .notSet name => s!"variable '{name}' is not set"
  | .noCoercion kind => s!"coercion to {kind.name} is not available"
  | .coercion literal kind reason => s!"cannot coerce '{literal}' to {kind.name}: {reason}"
  | .incomparable left right => s!"{left.name} and {right.name} values are not comparable"

structure EvalError where
  node : String
  reason : EvalReason
deriving DecidableEq, Repr

def EvalError.message (e : EvalError) : String :=
  s!"evaluation failed at \"{e.node}\": {e.reason.message}"

abbrev Coercion := String → Except String Value

namespace Coercion

def toStr : Coercion := fun s ↦ .ok (.str s)

def toInt : Coercion := fun s ↦
  match Decimal.readInteger s.toList with
  | .ok n => .ok (.int n)
  | .error fault => .error fault.message

def toFloat : Coercion := fun s ↦
  match Decimal.readFloat s.toList with
  | .ok x => .ok (.float x)
  | .error fault => .error fault.message

def toVersion : Coercion := fun s ↦
  match Version.read s.toList with
  | .ok v => .ok (.version v)
  | .error fault => .error fault.message

end Coercion

/-- A strict context stops at the first comparison without an answer. Any other one records it in
`errors` and takes it for false. -/
structure Context where
  vars : Entries Value
  coercions : ValueKind → Option Coercion
  strict : Bool
  errors : List EvalError

namespace Context

def register (c : Context) (kind : ValueKind) (coercion : Coercion) : Context :=
  { c with coercions := fun k ↦ if k = kind then some coercion else c.coercions k }

def empty : Context :=
  { vars := []
    coercions := fun kind ↦ if kind = .str then some Coercion.toStr else none
    strict := false
    errors := [] }

def standard : Context :=
  ((empty.register .int .toInt).register .float .toFloat).register .version .toVersion

def withStrict (c : Context) (strict : Bool) : Context := { c with strict }

def set (c : Context) (name : String) (value : Value) : Context :=
  { c with vars := c.vars.put name value }

def unset (c : Context) (name : String) : Option Value × Context :=
  (c.vars.get? name, { c with vars := c.vars.erase name })

def isSet (c : Context) (name : String) : Bool := (c.vars.get? name).any Value.isTruthy

def get (c : Context) (name : String) : Except EvalError Value :=
  match c.vars.get? name with
  | some value => .ok value
  | none => .error ⟨name, .notSet name⟩

def coerce (c : Context) (kind : ValueKind) (literal : String) : Except EvalReason Value :=
  match c.coercions kind with
  | none => .error (.noCoercion kind)
  | some coercion => (coercion literal).mapError (.coercion literal kind)

def takeErrors (c : Context) : List EvalError × Context := (c.errors, { c with errors := [] })

end Context

end Lading
