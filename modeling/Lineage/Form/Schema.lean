import Lineage.Text.Dictionary
import Lineage.Typed.Node

/-!
# Forms

A form asks for a value of a type. The parts of a pair are asked for in the same place as the pair,
each under its display name; an `or` and an option become a choice between objects, told apart by a
constant under `Schema.choiceKey`.
-/

namespace Lineage.Form

/-- A part of a form. -/
inductive Schema where
  /-- a text that has to be this one -/
  | constant (key : String)
  /-- a text, perhaps in a format that has a name -/
  | text (title : String) (format : Option String)
  /-- an integer, perhaps a non-negative one -/
  | integer (title : String) (nonNegative : Bool)
  | boolean (title : String)
  /-- an object with all of these properties -/
  | object (title : Option String) (properties : List (String × Schema))
  /-- one of several objects -/
  | choice (title : String) (alternatives : List Schema)
  /-- any number of objects -/
  | array (title : String) (item : Schema)
  deriving Inhabited

namespace Schema

/-- The key of the constant that tells the objects of a choice apart. -/
def choiceKey : String := "schemaKey"

/-- The property that holds the constant of a choice. -/
def constantFor (key : String) : Dictionary String Schema := [(choiceKey, .constant key)]

/-- The field of a scalar; `unit` has none. -/
def ofScalar? (type : Scalar) (title : String) : Option Schema :=
  match type with
  | .unit => none
  | .int => some (integer title false)
  | .nat | .mutez => some (integer title true)
  | .bool => some (boolean title)
  | .timestamp => some (text title (some "date-time"))
  | _ => some (text title none)

end Schema

end Lineage.Form

namespace Lineage.Node

open Form (Schema)

/-- The constants of the two objects of an `or`. -/
def sideKey : Side → String
  | .left => "0"
  | .right => "1"

/-- The constants of the two objects of an option. -/
def presenceKey : Bool → String
  | false => "none"
  | true => "some"

/-- Adds the fields of a node to those already there; a field replaces one of the same name. -/
def addFields (props : Dictionary String Schema) : Node → Dictionary String Schema
  | n@(scalar _ type _ _) =>
    match Schema.ofScalar? type n.displayName with
    | some field => Dictionary.insert n.displayName field props
    | none => props
  | n@(contract ..) => Dictionary.insert n.displayName (.text n.displayName none) props
  | n@(lambda ..) => Dictionary.insert n.displayName (.text n.displayName (some "micheline")) props
  | ticket _ inner => inner.addFields props
  | pair _ l r => r.addFields (l.addFields props)
  | n@(or _ l r _) =>
    let left := .object (some l.displayName) (l.addFields (Schema.constantFor (sideKey .left)))
    let right := .object (some r.displayName) (r.addFields (Schema.constantFor (sideKey .right)))
    Dictionary.insert n.displayName (.choice n.displayName [left, right]) props
  | n@(option _ inner _) =>
    let absent := .object (some "None") (Schema.constantFor (presenceKey false))
    let there := .object (some "Some") (inner.addFields (Schema.constantFor (presenceKey true)))
    Dictionary.insert n.displayName (.choice n.displayName [absent, there]) props
  | n@(collection _ _ elem _) =>
    Dictionary.insert n.displayName (.array n.displayName (.object none (elem.addFields []))) props
  | n@(map _ key value _) =>
    let entry :=
      [("key", .object (some "key") (key.addFields [])),
        ("value", .object (some "value") (value.addFields []))]
    Dictionary.insert n.displayName (.array n.displayName (.object none entry)) props
  | n@(bigMap ..) =>
    Dictionary.insert n.displayName (.integer (n.displayName ++ " (ptr)") true) props

/-- The fields of the form for a value of a type; `unit` needs no form. -/
def formFields? (n : Node) : Option (Dictionary String Schema) :=
  if n.isUnit then none else some (n.addFields [])

end Lineage.Node
