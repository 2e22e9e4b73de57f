import Lineage.BigMap.Resolution
import Lineage.Ledger.Repository

/-!
# Persistence

The records of a group of operations are written in one snapshot. When they cannot be staged the
snapshot is aborted.
-/

namespace Lineage

variable {σ τ : Type}

namespace Repository

/-- Stages the records of a resolution, diffs first. -/
def stage (r : Repository σ τ) (records : Resolution) (snapshot : τ) (s : σ) :
    Except LedgerError Unit × τ × σ :=
  match r.stageDiffs records.diffs snapshot s with
  | (.ok (), snapshot, s) => r.stageActions records.actions snapshot s
  | (.error e, snapshot, s) => (.error e, snapshot, s)

/-- Writes the records of a resolution in a snapshot of their own. Nothing is done for no records.
An error of the abort replaces the one that led to it. -/
def persist (r : Repository σ τ) (records : Resolution) (s : σ) : Except LedgerError Unit × σ :=
  if records.isEmpty then (.ok (), s)
  else
    match r.start s with
    | (.error e, s) => (.error e, s)
    | (.ok snapshot, s) =>
      match r.stage records snapshot s with
      | (.ok (), snapshot, s) => r.commit snapshot s
      | (.error e, snapshot, s) =>
        match r.abort snapshot s with
        | (.ok (), s) => (.error e, s)
        | (.error e, s) => (.error e, s)

end Repository

end Lineage
