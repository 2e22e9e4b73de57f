import Lineage.Ledger.Record

/-!
# Repositories

A repository keeps records for good. They are written in snapshots: what is staged in one becomes
visible when it is committed, all at once or not at all, and is forgotten when it is aborted.

Nothing is said here about how a repository keeps its records, so its operations are given for any
states `σ` and any snapshots `τ`. An operation that fails may still have changed the state.
-/

namespace Lineage

/-- Why a repository refused an operation. -/
inductive LedgerError where
  /-- a record of this identifier is there already -/
  | duplicate (id : String)
  /-- no types are known of the contract -/
  | unknownScript (address : String)
  /-- something else went wrong -/
  | backend (reason : String)
  deriving DecidableEq, Repr

def LedgerError.message : LedgerError → String
  | duplicate id => s!"duplicate record id: {id}"
  | unknownScript address => s!"schema not found for contract {address}"
  | backend reason => s!"storage backend error: {reason}"

/-- A big map: its pointer, and the contract and the network it belongs to. -/
structure Place where
  address : String
  network : String
  pointer : Int
  deriving DecidableEq, Repr

/-- The operations of a repository with states `σ` and snapshots `τ`. -/
structure Repository (σ τ : Type) where
  /-- opens a snapshot -/
  start : σ → Except LedgerError τ × σ
  /-- stages diffs in a snapshot -/
  stageDiffs : List Diff → τ → σ → Except LedgerError Unit × τ × σ
  /-- stages actions in a snapshot -/
  stageActions : List Action → τ → σ → Except LedgerError Unit × τ × σ
  /-- writes what is staged in a snapshot -/
  commit : τ → σ → Except LedgerError Unit × σ
  /-- forgets what is staged in a snapshot -/
  abort : τ → σ → Except LedgerError Unit × σ
  /-- the last diff of each key of a big map, deleted keys left out -/
  live : σ → Place → Except LedgerError (List Diff)
  /-- all diffs of a big map -/
  history : σ → Place → Except LedgerError (List Diff)
  /-- the actions a big map has a part in -/
  actions : σ → Place → Except LedgerError (List Action)

end Lineage
