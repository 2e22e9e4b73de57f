import Lineage.Micheline.Basic

/-!
# Records

The ledger keeps two kinds of records of big maps: diffs, which say what became of one key, and
actions, which say that a big map was allocated, copied or removed. Records are never changed; that
a key is gone is a diff without a value.
-/

namespace Lineage

/-- The operation a record comes from. -/
structure Provenance where
  operationId : String
  level : Int
  timestamp : String
  network : String
  protocol : String
  deriving DecidableEq, Repr

/-- What became of one key of a big map. -/
structure Diff where
  id : String
  pointer : Int
  key : Micheline
  keyHash : String
  keyStrings : List String
  /-- the new value, or none when the key was deleted -/
  value : Option Micheline
  valueStrings : List String
  /-- the path of the big map in the storage type of its contract -/
  path : String
  /-- the contract that owns the big map -/
  address : String
  provenance : Provenance
  deriving DecidableEq, Repr

def Diff.isRemoved (d : Diff) : Bool := d.value.isNone

/-- What can happen to a big map as a whole. -/
inductive ActionKind where
  | alloc
  | copy
  | remove
  deriving DecidableEq, Repr

namespace ActionKind

def name : ActionKind → String
  | alloc => "alloc"
  | copy => "copy"
  | remove => "remove"

def ofName? (s : String) : Option ActionKind := [alloc, copy, remove].find? (·.name == s)

end ActionKind

/-- What happened to a big map as a whole. -/
structure Action where
  id : String
  kind : ActionKind
  source : Option Int
  destination : Option Int
  address : String
  provenance : Provenance
  deriving DecidableEq, Repr

/-- Is the pointer on either side of the action? -/
def Action.touches (pointer : Int) (a : Action) : Bool :=
  a.source == some pointer || a.destination == some pointer

/-- The types of a contract, as they were published. -/
structure ScriptRecord where
  address : String
  parameter : Micheline
  storage : Micheline
  deriving DecidableEq, Repr

end Lineage
