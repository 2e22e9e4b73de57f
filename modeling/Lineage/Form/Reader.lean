import Lineage.Form.Schema
import Lineage.Micheline.Json
import Lineage.Typed.Binding

/-!
# Reading forms

`Node.ofForm` takes the values that were entered in the form of a type and builds the expression
they stand for. The fields of a pair are read from the object that the pair itself is read from.
-/

namespace Lineage.Form

/-- The values entered in a form, by the names of the fields. -/
abbrev Values := Dictionary String Json

/-- The complaint about a field. -/
def refuse {α : Type} (field reason : String) : Except NodeError α :=
  .error (.invalidForm field reason)

def valueOf (name : String) (values : Values) : Except NodeError Json :=
  match Dictionary.find? name values with
  | some value => .ok value
  | none => refuse name "missing"

def textOf (name : String) (values : Values) : Except NodeError String := do
  match ← valueOf name values with
  | .text s => return s
  | _ => refuse name "expected a string"

/-- The numeral of a field, which may hold a JSON integer or a numeral as text. -/
def numeralOf (name : String) (values : Values) : Except NodeError String := do
  match ← valueOf name values with
  | .integer n => return toString n
  | .text s => if Decimal.isNumeral true s then return s else refuse name "expected an integer"
  | _ => refuse name "expected an integer"

def boolOf (name : String) (values : Values) : Except NodeError Bool := do
  match ← valueOf name values with
  | .bool b => return b
  | _ => refuse name "expected a boolean"

def objectOf (name : String) (values : Values) : Except NodeError Values := do
  match (← valueOf name values).object? with
  | some fields => return fields
  | none => refuse name "expected an object"

def itemsOf (name : String) (values : Values) : Except NodeError (List Json) := do
  match ← valueOf name values with
  | .array items => return items
  | _ => refuse name "expected an array"

/-- The constant in the object of a choice. -/
def choiceOf (name : String) (chosen : Values) : Except NodeError String :=
  match (Dictionary.find? Schema.choiceKey chosen).bind Json.text? with
  | some key => .ok key
  | none => refuse name "missing schemaKey"

/-- The code of a field, given as JSON text or as JSON. -/
def codeOf (name : String) (values : Values) : Except NodeError Micheline := do
  let code ←
    match ← valueOf name values with
    | .text s => pure (Micheline.ofText? s)
    | value => pure (Micheline.ofJson? value)
  match code with
  | some m => return m
  | none => refuse name DecodeError.invalidJson.message

def scalarOf (type : Scalar) (name : String) (values : Values) : Except NodeError Micheline :=
  match type with
  | .unit => .ok (.data .unit [])
  | .int | .nat | .mutez => return .int (← numeralOf name values)
  | .bool => return .data (if ← boolOf name values then .true else .false) []
  | .bytes | .bls12381Fr | .bls12381G1 | .bls12381G2 => return .bytes (← textOf name values)
  | _ => return .string (← textOf name values)

end Lineage.Form

namespace Lineage.Node

open Form

/-- The expression that the values entered in the form of a node stand for. -/
def ofForm : Node → Values → Except NodeError Micheline
  | n@(scalar _ type _ _), values => scalarOf type n.displayName values
  | n@(contract ..), values => return .string (← textOf n.displayName values)
  | n@(lambda ..), values => codeOf n.displayName values
  | ticket _ inner, values => inner.ofForm values
  | pair _ l r, values => return .data .pair [← l.ofForm values, ← r.ofForm values]
  | n@(or _ l r _), values => do
    let chosen ← objectOf n.displayName values
    let key ← choiceOf n.displayName chosen
    if key = sideKey .left then return .data .left [← l.ofForm chosen]
    else if key = sideKey .right then return .data .right [← r.ofForm chosen]
    else refuse n.displayName s!"unknown alternative '{key}'"
  | n@(option _ inner _), values => do
    let chosen ← objectOf n.displayName values
    let key ← choiceOf n.displayName chosen
    if key = presenceKey false then return .data .none []
    else if key = presenceKey true then return .data .some [← inner.ofForm chosen]
    else refuse n.displayName s!"unknown alternative '{key}'"
  | n@(collection _ _ elem _), values => do
    let items ← itemsOf n.displayName values
    return .seq (← items.mapM fun item =>
      match item.object? with
      | some fields => elem.ofForm fields
      | none => refuse n.displayName "list items must be objects")
  | n@(map _ key value _), values => do
    let entries ← itemsOf n.displayName values
    return .seq (← entries.mapM fun entry =>
      match entry.object? with
      | some fields => do
        let k ← objectOf "key" fields
        let v ← objectOf "value" fields
        return .data .elt [← key.ofForm k, ← value.ofForm v]
      | none => refuse n.displayName "map entries must be objects")
  | n@(bigMap ..), values => return .int (← numeralOf n.displayName values)

def bindForm (n : Node) (values : Values) : Attempt Node :=
  match n.ofForm values with
  | .ok value => n.bind value
  | .error e => .stopped n e

end Lineage.Node
