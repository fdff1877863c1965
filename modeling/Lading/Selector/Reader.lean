import Lading.Selector.Basic
import Lading.Version.Reader

namespace Lading

def Operator.split (token : List Char) : Option (Operator × List Char) :=
  spellings.findSome? fun (spelling, operator) ↦
    (Text.after? spelling token).map fun rest ↦ (operator, rest)

def Comparator.read (token : List Char) : Except Selector.Fault Comparator :=
  let (operator, rest) := (Operator.split token).getD (.exact, token)
  match Version.read rest with
  | .ok version => .ok ⟨operator, version⟩
  | .error fault => .error (.clause (String.ofList token) fault)

namespace Selector

def isBareOperator (token : List Char) : Bool :=
  Operator.spellings.any fun (spelling, _) ↦ spelling == token

/-- Reads the clauses of a group. A bare operator belongs to the token after it, and `*` adds no
clause. -/
def readClauses : List (List Char) → Except Fault Group
  | [] => .ok []
  | token :: tokens =>
    if token = ['*'] then readClauses tokens
    else if isBareOperator token then
      match tokens with
      | [] => .error (.danglingOperator (String.ofList token))
      | version :: tokens => do
        let clause ← Comparator.read (token ++ version)
        let clauses ← readClauses tokens
        return clause :: clauses
    else do
      let clause ← Comparator.read token
      let clauses ← readClauses tokens
      return clause :: clauses

def tokens (group : List Char) : List (List Char) :=
  (group.splitOnP fun c ↦ Text.isBlank c || c == ',').filter (!·.isEmpty)

def readGroup (group : List Char) : Except Fault Group :=
  let group := Text.trim group
  if group = [] then .error .emptyAlternative else readClauses (tokens group)

def read (s : List Char) : Except Fault Selector :=
  let s := Text.trim s
  if s = [] then .error .empty
  else do
    let alternatives ← (Text.splitBars s).mapM readGroup
    return ⟨alternatives⟩

def parse (input : String) : Except PackageError Selector :=
  (read input.toList).mapError (.selector input)

end Selector

end Lading
