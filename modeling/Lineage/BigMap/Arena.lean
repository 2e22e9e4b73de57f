import Lineage.Ledger.Record
import Lineage.Text.Dictionary
import Lineage.Typed.Node

/-!
# Arenas

While the operations of a group are resolved, an arena remembers of each pointer where it came from
and which records it has been given. Slots are handed out to pointers in the order in which they are
first written to, and are never taken back.
-/

namespace Lineage

/-- Where a pointer came from. -/
structure Link where
  /-- the pointer it was copied from; none for a new big map -/
  source : Option Int
  /-- the path of the big map in a storage type -/
  path : Option String
  /-- the types of the keys and of the values -/
  types : Option (Node × Node)

/-- What is known of a pointer. -/
structure Slot where
  link : Option Link
  /-- the records given to the pointer, unless it has never been opened or was discarded -/
  records : Option (List Diff)

def Slot.empty : Slot := ⟨none, none⟩

/-- The slots of pointers. -/
structure Arena where
  slots : List Slot
  /-- the positions of the slots that pointers have -/
  index : Dictionary Int Nat

namespace Arena

def empty : Arena := ⟨[], []⟩

/-! ### Reading -/

def slot? (a : Arena) (pointer : Int) : Option Slot :=
  (Dictionary.find? pointer a.index).bind (a.slots[·]?)

/-- Where a pointer came from. -/
def link? (a : Arena) (pointer : Int) : Option Link := (a.slot? pointer).bind Slot.link

def records? (a : Arena) (pointer : Int) : Option (List Diff) := (a.slot? pointer).bind Slot.records

/-! ### Writing -/

/-- The position of a pointer, with the index that it stands in. A pointer that has no position is
given the next one. -/
def assign (a : Arena) (pointer : Int) : Nat × Dictionary Int Nat :=
  match Dictionary.find? pointer a.index with
  | some i => (i, a.index)
  | none => (a.slots.length, Dictionary.insert pointer a.slots.length a.index)

/-- Changes the slot of a pointer. At the next position there is no slot yet, so one is made. -/
def modify (a : Arena) (pointer : Int) (f : Slot → Slot) : Arena :=
  let (i, index) := a.assign pointer
  let slots := if i = a.slots.length then a.slots ++ [.empty] else a.slots
  ⟨slots.modify i f, index⟩

/-- Opens a pointer that has no records yet. -/
def openAt (a : Arena) (pointer : Int) (link : Link) : Arena :=
  a.modify pointer fun _ => ⟨some link, some []⟩

def setLink (a : Arena) (pointer : Int) (link : Link) : Arena :=
  a.modify pointer fun s => { s with link := some link }

/-- Says at which path the big map of a pointer is, if it is known where the pointer came from. -/
def setPath (a : Arena) (pointer : Int) (path : String) : Arena :=
  a.modify pointer fun s =>
    { s with link := s.link.map fun link => { link with path := some path } }

/-- Says at which path the big map of a pointer is, if a path is given. -/
def keepPath (a : Arena) (pointer : Int) : Option String → Arena
  | some path => a.setPath pointer path
  | none => a

def push (a : Arena) (pointer : Int) (record : Diff) : Arena :=
  a.modify pointer fun s => { s with records := some (s.records.getD [] ++ [record]) }

/-- Says that a pointer has records, if only an empty list of them. -/
def touch (a : Arena) (pointer : Int) : Arena :=
  a.modify pointer fun s => { s with records := some (s.records.getD []) }

def discard (a : Arena) (pointer : Int) : Arena :=
  match Dictionary.find? pointer a.index with
  | some i => { a with slots := a.slots.modify i fun s => { s with records := none } }
  | none => a

end Arena

end Lineage
