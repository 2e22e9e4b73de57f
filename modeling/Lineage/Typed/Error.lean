import Lineage.Micheline.Identifier

/-!
# What may go wrong with typed values
-/

namespace Lineage

/-- Why a type, a value or a form was refused, or could not be shown. -/
inductive NodeError where
  /-- a primitive that has no meaning where it stands -/
  | unknownConstructor (name : String)
  /-- a wrong number of children -/
  | arity (context : String) (expected got : Nat)
  /-- two things of types without a common order or difference -/
  | notComparable (left right : String)
  /-- a value that does not fit its type -/
  | mismatch (prim expected : String)
  /-- a form field that is missing or malformed -/
  | invalidForm (field reason : String)
  /-- a node that has no value -/
  | unsettled (path : String)
  /-- wire data that cannot be read -/
  | decode (error : DecodeError)
  deriving DecidableEq, Repr

namespace NodeError

def message : NodeError → String
  | unknownConstructor name => s!"unknown constructor '{name}'"
  | arity context expected got => s!"arity mismatch at {context}: expected {expected}, got {got}"
  | notComparable left right => s!"values of type '{left}' and '{right}' are not comparable"
  | mismatch prim expected => s!"invalid value for '{prim}': expected {expected}"
  | invalidForm field reason => s!"invalid form value for '{field}': {reason}"
  | unsettled path => s!"node at {path} has no value"
  | decode error => error.message

end NodeError

/-- Passes a decoding error on. -/
def liftDecode {α : Type} : Except DecodeError α → Except NodeError α
  | .ok a => .ok a
  | .error e => .error (.decode e)

end Lineage
