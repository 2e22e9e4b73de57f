import Lineage.Ledger.Repository
import Lineage.Text.Dictionary

/-!
# Stores

A store is a repository in memory: the records in the order in which they were committed, the
identifiers of all of them, and the types of contracts. `Store.commit` writes a snapshot unless one
of its identifiers occurs twice in it or is in the store already. Reading puts records in the order
of their levels, those of equal levels in the order of their commits.
-/

namespace Lineage

/-- The records of a snapshot. -/
structure Staged where
  diffs : List Diff
  actions : List Action
  deriving DecidableEq, Repr

namespace Staged

def empty : Staged := ⟨[], []⟩

/-- The identifiers of all records, those of diffs first. -/
def ids (s : Staged) : List String := s.diffs.map Diff.id ++ s.actions.map Action.id

end Staged

/-- Records in memory. -/
structure Store where
  diffs : List Diff
  actions : List Action
  /-- the identifiers of all records -/
  ids : List String
  scripts : Dictionary String ScriptRecord
  deriving DecidableEq, Repr

namespace Store

def empty : Store := ⟨[], [], [], []⟩

/-! ### Writing -/

/-- The first identifier that occurs earlier in the list or has been seen before it. -/
def firstClash? (seen : List String) : List String → Option String
  | [] => none
  | id :: ids => if seen.contains id then some id else firstClash? (id :: seen) ids

/-- Writes the records of a snapshot, if all of their identifiers are new. -/
def commit (staged : Staged) (s : Store) : Except LedgerError Unit × Store :=
  match firstClash? s.ids staged.ids with
  | some id => (.error (.duplicate id), s)
  | none =>
    (.ok (), { s with
      diffs := s.diffs ++ staged.diffs
      actions := s.actions ++ staged.actions
      ids := s.ids ++ staged.ids })

/-- Makes the types of a contract known, in place of those known before. -/
def addScript (record : ScriptRecord) (s : Store) : Store :=
  { s with scripts := Dictionary.insert record.address record s.scripts }

/-! ### Reading -/

/-- Puts records in the order of their levels; records of equal levels stay in their order. -/
def byLevel {α : Type} (level : α → Int) (records : List α) : List α :=
  records.mergeSort fun a b => decide (level a ≤ level b)

/-- Does a diff belong to a big map? -/
def isAbout (place : Place) (d : Diff) : Bool :=
  d.pointer == place.pointer && d.address == place.address &&
    d.provenance.network == place.network

/-- All diffs of a big map. -/
def history (s : Store) (place : Place) : List Diff :=
  byLevel (·.provenance.level) (s.diffs.filter (isAbout place))

/-- Takes a diff into account, in place of an earlier one of the same key. -/
def supersede (rows : List Diff) (d : Diff) : List Diff :=
  rows.filter (fun row => row.keyHash != d.keyHash) ++ [d]

/-- The last diff of each key. -/
def latest (rows : List Diff) : List Diff := rows.foldl supersede []

/-- The last diff of each key of a big map, deleted keys left out. -/
def live (s : Store) (place : Place) : List Diff :=
  (latest (s.history place)).filter fun d => !d.isRemoved

/-- The actions a big map has a part in. -/
def actionsOf (s : Store) (place : Place) : List Action :=
  byLevel (·.provenance.level) <| s.actions.filter fun a =>
    a.touches place.pointer && a.address == place.address && a.provenance.network == place.network

def script (s : Store) (address : String) : Except LedgerError ScriptRecord :=
  match Dictionary.find? address s.scripts with
  | some record => .ok record
  | none => .error (.unknownScript address)

/-! ### The repository -/

def repository : Repository Store Staged where
  start s := (.ok .empty, s)
  stageDiffs records staged s := (.ok (), { staged with diffs := staged.diffs ++ records }, s)
  stageActions records staged s := (.ok (), { staged with actions := staged.actions ++ records }, s)
  commit := commit
  abort _ s := (.ok (), s)
  live s place := .ok (s.live place)
  history s place := .ok (s.history place)
  actions s place := .ok (s.actionsOf place)

end Store

end Lineage
