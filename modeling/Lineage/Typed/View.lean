import Lineage.Calendar.Timestamp
import Lineage.Micheline.Identifier
import Lineage.Micheline.Json
import Lineage.Typed.Encoding
import Lineage.Typed.Shape

/-!
# Views of values

`Node.render` shows a bound node as a tree of named values, with fields and alternatives flattened,
packed identifiers and timestamps as text, and the entries of maps named by their keys.
`Node.strings` gathers the texts that a search looks through.
-/

namespace Lineage

/-- What a difference says of a part of a value. -/
inductive Change where
  | created
  | updated
  | deleted
  deriving DecidableEq, Repr

def Change.name : Change → String
  | created => "created"
  | updated => "updated"
  | deleted => "deleted"

structure View where
  /-- the primitive of the type -/
  prim : String
  /-- the shape of a pair or an `or`, else the primitive -/
  kind : String
  name : Option String
  value : Option Json
  /-- the value before a change -/
  previous : Option Json
  change : Option Change
  children : List View

namespace View

mutual
/-- Marks a view and all it contains. -/
def tag (c : Change) : View → View
  | ⟨prim, kind, name, value, previous, _, children⟩ =>
    ⟨prim, kind, name, value, previous, some c, tagAll c children⟩

def tagAll (c : Change) : List View → List View
  | [] => []
  | v :: vs => v.tag c :: tagAll c vs
end

mutual
/-- Is anything in the view marked? -/
def hasChanges : View → Bool
  | ⟨_, _, _, _, _, change, children⟩ => change.isSome || anyChanges children

def anyChanges : List View → Bool
  | [] => false
  | v :: vs => v.hasChanges || anyChanges vs
end

def named (v : View) (name : String) : View := { v with name := some name }

def unnamed (v : View) : View := { v with name := none }

end View

namespace Scalar

/-- The kind of identifier the packed values of a type are. -/
def identifier? : Scalar → Option Identifier.Kind
  | address => some .address
  | key => some .key
  | keyHash => some .keyHash
  | signature => some .signature
  | chainId => some .chainId
  | _ => none

/-- A timestamp text in the form in which timestamps are written; a text that is none stays. -/
def timestampText (s : String) : String :=
  match Timestamp.parse? s with
  | some t => t.render
  | none => s

def text (type : Scalar) (value : Micheline) : Except NodeError String :=
  match value with
  | .int n => .ok (if type = timestamp then Timestamp.textOfNumeral n else n)
  | .string s => .ok (if type = timestamp then timestampText s else s)
  | .bytes hex =>
    match type.identifier? with
    | some kind => liftDecode (Identifier.decode kind hex)
    | none => .ok hex
  | _ => .ok value.text

/-- What a value is shown as, which is nothing for `unit`. -/
def shown (type : Scalar) (value : Micheline) : Except NodeError (Option Json) :=
  match type with
  | unit => .ok none
  | bool => .ok (some (.bool (value.isPrim Constructor.true.name)))
  | operation | never | saplingState | saplingTransaction => .ok (some value.toJson)
  | _ => return some (.text (← type.text value))

end Scalar

namespace Node

/-- The view of a node before anything is known of its value. -/
def blank (n : Node) (kind : String) : View :=
  { prim := n.prim, kind, name := some n.displayName, value := none, previous := none
    change := none, children := [] }

/-- The name of a map entry, made of its key and the view of its key: the text that is shown, else
the shown value as JSON, else the encoded key as JSON. -/
def labelOf (key : Node) (view : View) : Except NodeError String :=
  match view.value, key with
  | some (.text s), _ => .ok s
  | none, scalar _ _ _ (some value) | some .null, scalar _ _ _ (some value) => .ok value.text
  | none, _ | some .null, _ => return (← key.toWire false).text
  | some value, _ => .ok value.render

mutual
def render (n : Node) : Except NodeError View :=
  match n with
  | scalar s type _ value => do
    return { n.blank n.prim with value := ← type.shown (← required s.path value) }
  | contract s _ value => do
    let address ← Scalar.address.text (← required s.path value)
    return { n.blank n.prim with value := some (.text address) }
  | ticket _ inner => return { n.blank n.prim with children := (← inner.render).children }
  | option s inner present => do
    if ← required s.path present then return (← inner.render).named n.displayName
    else return n.blank n.prim
  | pair s l r => do
    let fields ← (pair s l r).pairFields.attach.mapM fun ⟨field, _⟩ => field.render
    return { n.blank ((n.shape?.map Shape.name).getD n.prim) with children := fields }
  | or s l r side =>
    match _h : (or s l r side).chosenAlternative? with
    | none => .error (.unsettled s.path)
    | some chosen =>
      let shown := n.blank ((n.shape?.map Shape.name).getD n.prim)
      if (n.shape?.map Shape.isEnumeration).getD false then
        return { shown with value := some (.text chosen.alternativeName) }
      else do
        let view ← chosen.render
        return { shown with children := [{ view with name := chosen.entryName?.or view.name }] }
  | collection s _ _ items =>
    match items with
    | some items => return { n.blank n.prim with children := ← renderItems items }
    | none => .error (.unsettled s.path)
  | map s _ _ entries =>
    match entries with
    | some entries => return { n.blank n.prim with children := ← renderEntries entries }
    | none => .error (.unsettled s.path)
  | bigMap s _ _ pointer entries =>
    let shown := { n.blank n.prim with value := pointer.map .integer }
    match pointer, entries with
    | none, none => .error (.unsettled s.path)
    | some _, none => return shown
    | _, some entries => return { shown with children := ← renderEntries entries }
  | lambda s _ _ code => do
    return { n.blank n.prim with value := some (← required s.path code).toJson }
termination_by sizeOf n
decreasing_by
  all_goals first
    | (simp only [ticket.sizeOf_spec, option.sizeOf_spec, collection.sizeOf_spec, map.sizeOf_spec,
        bigMap.sizeOf_spec, Option.some.sizeOf_spec]; omega)
    | exact sizeOf_lt_of_mem_pairFields ‹_›
    | exact sizeOf_lt_of_chosenAlternative ‹_›

def renderItems (items : List Node) : Except NodeError (List View) :=
  match items with
  | [] => return []
  | item :: items => return (← item.render).unnamed :: (← renderItems items)
termination_by sizeOf items

/-- Shows the values of a map, named by their keys. -/
def renderEntries (entries : List (Node × Node)) : Except NodeError (List View) :=
  match entries with
  | [] => return []
  | (key, value) :: entries => do
    let view ← value.render
    let label ← key.labelOf (← key.render)
    return view.named label :: (← renderEntries entries)
termination_by sizeOf entries
end

/-- The name of a map entry with this key. -/
def label (key : Node) : Except NodeError String := do key.labelOf (← key.render)

/-! ### Texts to search -/

mutual
/-- The texts in the value bound to a node, in the order in which they are encountered. Code is not
searched, and what is not bound has no texts. -/
def strings : Node → Except NodeError (List String)
  | scalar _ type _ (some value) =>
    if type.isStringLike then return [← type.text value] else return []
  | contract _ _ (some value) => return [← Scalar.address.text value]
  | ticket _ inner => inner.strings
  | option _ inner (some true) => inner.strings
  | pair _ l r => return (← l.strings) ++ (← r.strings)
  | or _ l _ (some .left) => l.strings
  | or _ _ r (some .right) => r.strings
  | collection _ _ _ (some items) => itemStrings items
  | map _ _ _ (some entries) => entryStrings entries
  | bigMap _ _ _ _ (some entries) => entryStrings entries
  | _ => return []

def itemStrings : List Node → Except NodeError (List String)
  | [] => return []
  | item :: items => return (← item.strings) ++ (← itemStrings items)

def entryStrings : List (Node × Node) → Except NodeError (List String)
  | [] => return []
  | (k, v) :: entries => return (← k.strings) ++ (← v.strings) ++ (← entryStrings entries)
end

end Node

end Lineage
