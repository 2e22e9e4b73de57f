import Lineage.Typed.Binding
import Lineage.Typed.Encoding

/-!
# Laying changes over big maps

A storage value refers to its big maps by pointers. `Node.overlay` fills the big maps in with the
entries that a list of changes leaves: of the changes to a key the last one counts. It goes wherever
the value goes: into the content of an option that is there, into the arm that was chosen, into
items and into the values of maps, but not into keys.
-/

namespace Lineage

/-- A change to one key of a big map: a new value, or none when the key is removed. -/
structure EntryChange where
  pointer : Int
  key : Micheline
  value : Option Micheline

namespace Node

/-! ### One big map -/

def hasKey (wanted : Micheline) (entry : Node × Node) : Bool :=
  match entry.1.toWire false with
  | .ok key => decide (key = wanted)
  | .error _ => false

/-- Binds a value to a key among entries: in place if the key is there, and else at the end. -/
def putEntry (key value : Node) (wanted : Micheline) : List (Node × Node) → List (Node × Node)
  | [] => [(key, value)]
  | entry :: entries =>
    if hasKey wanted entry then (entry.1, value) :: entries
    else entry :: putEntry key value wanted entries

def removeEntry (wanted : Micheline) (entries : List (Node × Node)) : List (Node × Node) :=
  entries.eraseP (hasKey wanted)

/-- Makes one change to the entries of a big map with given types of keys and values. -/
def applyChange (keyType valueType : Node) (entries : List (Node × Node)) (change : EntryChange) :
    Except NodeError (List (Node × Node)) := do
  let key ← keyType.settle change.key
  let wanted ← key.toWire false
  match change.value with
  | some value => return putEntry key (← valueType.settle value) wanted entries
  | none => return removeEntry wanted entries

/-- Makes changes to the entries of a big map in turn, up to the first that does not fit. -/
def applyChanges (keyType valueType : Node) :
    List (Node × Node) → List EntryChange → Attempt (List (Node × Node))
  | entries, [] => .done entries
  | entries, change :: changes =>
    match applyChange keyType valueType entries change with
    | .ok entries => applyChanges keyType valueType entries changes
    | .error e => .stopped entries e

/-! ### All big maps of a value -/

mutual
/-- Makes the changes to every big map of a value whose pointer they name. A big map with a pointer
has entries afterwards, if only an empty list of them. -/
def overlay (changes : List EntryChange) : Node → Attempt Node
  | bigMap s key value (some p) entries =>
    (applyChanges key value (entries.getD []) (changes.filter (·.pointer == p))).map
      fun entries => bigMap s key value (some p) (some entries)
  | ticket s inner => (inner.overlay changes).map (ticket s)
  | option s inner (some true) => (inner.overlay changes).map (option s · (some true))
  | pair s l r =>
    (l.overlay changes).andThen (pair s · r) fun l' => (r.overlay changes).map (pair s l')
  | or s l r (some .left) => (l.overlay changes).map (or s · r (some .left))
  | or s l r (some .right) => (r.overlay changes).map (or s l · (some .right))
  | collection s kind elem (some items) =>
    (overlayItems changes items).map fun items => collection s kind elem (some items)
  | map s key value (some entries) =>
    (overlayValues changes entries).map fun entries => map s key value (some entries)
  | n => .done n

def overlayItems (changes : List EntryChange) : List Node → Attempt (List Node)
  | [] => .done []
  | item :: items =>
    (item.overlay changes).andThen (· :: items) fun item =>
      (overlayItems changes items).map (item :: ·)

def overlayValues (changes : List EntryChange) : List (Node × Node) → Attempt (List (Node × Node))
  | [] => .done []
  | (key, value) :: entries =>
    (value.overlay changes).andThen (fun value => (key, value) :: entries) fun value =>
      (overlayValues changes entries).map ((key, value) :: ·)
end

end Node

end Lineage
