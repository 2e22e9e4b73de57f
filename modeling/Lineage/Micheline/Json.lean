import Lineage.Json.Printer
import Lineage.Json.Reader
import Lineage.Micheline.Basic

/-!
# Micheline as JSON

Writing is canonical: `Micheline.toJson` leaves out empty lists of arguments and annotations, and
puts the keys in ascending order. Reading is by trial: an array is a sequence if all its items are
expressions, and else the fields of an application; an object is an integer, a string, bytes or an
application, whichever fits first. A key that a trial needs may stand in the object only once.
-/

namespace Lineage.Micheline

/-! ### Writing -/

mutual
/-- The JSON form of an expression. -/
def toJson : Micheline → Json
  | seq items => .array (listToJson items)
  | int literal => .object [("int", .text literal)]
  | string s => .object [("string", .text s)]
  | bytes hex => .object [("bytes", .text hex)]
  | prim name args annots =>
    .object <|
      (if annots.isEmpty then [] else [("annots", .array (annots.map .text))]) ++
      (if args.isEmpty then [] else [("args", .array (listToJson args))]) ++
      [("prim", .text name)]

def listToJson : List Micheline → List Json
  | [] => []
  | m :: ms => toJson m :: listToJson ms
end

/-- The compact JSON text of an expression. -/
def text (m : Micheline) : String := m.toJson.render

/-! ### Reading -/

/-- All that a JSON value may stand for in the place where it is found. -/
structure Reading where
  /-- an expression -/
  node : Option Micheline
  /-- a text -/
  text : Option String
  /-- a list of expressions -/
  nodes : Option (List Micheline)
  /-- a list of texts -/
  texts : Option (List String)

namespace Reading

/-- A value that stands for nothing. -/
def nothing : Reading := ⟨none, none, none, none⟩

/-- The application whose name, arguments and annotations are the items of an array. The last two
may be missing. -/
def application? : List Reading → Option Micheline
  | [name] => do return prim (← name.text) [] []
  | [name, args] => do return prim (← name.text) (← args.nodes) []
  | [name, args, annots] => do return prim (← name.text) (← args.nodes) (← annots.texts)
  | _ => none

/-- The text given to a key, which must stand there once. -/
def textOf? (key : String) (fields : List (String × Reading)) : Option String :=
  match Json.valuesOf key fields with
  | [r] => r.text
  | _ => none

/-- The list given to a key: empty when the key is missing, and none when it is repeated. -/
def listOf? {α : Type} (get : Reading → Option (List α)) (key : String)
    (fields : List (String × Reading)) : Option (List α) :=
  match Json.valuesOf key fields with
  | [] => some []
  | [r] => get r
  | _ => none

/-- The application the fields of an object stand for. -/
def applicationOf? (fields : List (String × Reading)) : Option Micheline := do
  let name ← textOf? "prim" fields
  let args ← listOf? nodes "args" fields
  let annots ← listOf? texts "annots" fields
  return prim name args annots

/-- The expression the fields of an object stand for. -/
def expression? (fields : List (String × Reading)) : Option Micheline :=
  ((textOf? "int" fields).map int) <|>
  ((textOf? "string" fields).map string) <|>
  ((textOf? "bytes" fields).map bytes) <|>
  applicationOf? fields

mutual
/-- All that a JSON value may stand for. -/
def ofJson : Json → Reading
  | .text s => { nothing with text := some s }
  | .array items =>
    let readings := ofItems items
    let nodes := readings.mapM (·.node)
    { node := (nodes.map seq) <|> application? readings
      text := none
      nodes
      texts := readings.mapM (·.text) }
  | .object fields => { nothing with node := expression? (ofFields fields) }
  | .null | .bool _ | .integer _ | .decimal _ => nothing

def ofItems : List Json → List Reading
  | [] => []
  | item :: items => ofJson item :: ofItems items

def ofFields : List (String × Json) → List (String × Reading)
  | [] => []
  | (key, value) :: fields => (key, ofJson value) :: ofFields fields
end

end Reading

/-- The expression a JSON value stands for. -/
def ofJson? (value : Json) : Option Micheline := (Reading.ofJson value).node

/-- The expression a JSON text stands for. -/
def ofText? (s : String) : Option Micheline := (Json.parse? s).bind ofJson?

end Lineage.Micheline
