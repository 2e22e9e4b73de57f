import Lineage.Text.Dictionary
import Lineage.Text.Decimal

/-!
# JSON values

An object keeps its fields as they stand in the text, repeated keys included. Where a field is
looked up, the last of a key counts. A number is an `integer` when it is written without fraction
and exponent, is not minus zero and fits 64 bits; every other number keeps its text.
-/

namespace Lineage

inductive Json where
  | null
  | bool (b : Bool)
  | integer (n : Int)
  | decimal (literal : String)
  | text (s : String)
  | array (items : List Json)
  | object (fields : List (String × Json))
  deriving Repr, Inhabited

namespace Json

/-- The value of a key among fields: the last one given. -/
def lookup (key : String) (fields : List (String × Json)) : Option Json :=
  (fields.reverse.find? (fun field => field.1 == key)).map Prod.snd

/-- All values given to a key among fields. -/
def valuesOf {α : Type} (key : String) (fields : List (String × α)) : List α :=
  (fields.filter (fun field => field.1 == key)).map Prod.snd

/-- The value of a field of an object; other values have no fields. -/
def field? (key : String) : Json → Option Json
  | object fields => lookup key fields
  | _ => none

def text? : Json → Option String
  | text s => some s
  | _ => none

def array? : Json → Option (List Json)
  | array items => some items
  | _ => none

/-- The fields of an object, in ascending order of the keys, the last value of each. -/
def object? : Json → Option (Dictionary String Json)
  | object fields => some (Dictionary.ofList fields)
  | _ => none

def bool? : Json → Option Bool
  | bool b => some b
  | _ => none

/-- The value of an integer within a signed 64-bit word. -/
def int64? : Json → Option Int
  | integer n => Decimal.int64? n
  | _ => none

/-- An index into an array: digits without leading zero. -/
def arrayIndex? (segment : String) : Option Nat :=
  let cs := segment.toList
  if Decimal.isDigits cs && (cs.length == 1 || cs.head? != some '0') then some (Decimal.valueOf cs)
  else none

/-- The value reached by following field names, and indices where the value is an array. -/
def at? : List String → Json → Option Json
  | [], value => some value
  | segment :: path, value =>
    match value with
    | object fields => (lookup segment fields).bind (at? path)
    | array items => ((arrayIndex? segment).bind (items[·]?)).bind (at? path)
    | _ => none

/-- A text, or null for none. -/
def ofText? : Option String → Json
  | some s => text s
  | none => null

mutual
/-- The value with the fields of every object in ascending order of the keys, the last value of each
key. -/
def sorted : Json → Json
  | array items => array (sortedItems items)
  | object fields => object (Dictionary.ofList (sortedFields fields))
  | value => value

/-- The items of an array, with their fields in order. -/
def sortedItems : List Json → List Json
  | [] => []
  | item :: items => item.sorted :: sortedItems items

/-- The fields of an object, with the fields of their values in order. -/
def sortedFields : List (String × Json) → List (String × Json)
  | [] => []
  | (key, value) :: fields => (key, value.sorted) :: sortedFields fields
end

end Json

end Lineage
