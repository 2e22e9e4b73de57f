import Lineage.Ledger.Repository

/-!
# Faults

Repositories that do not keep their promises, for trying out those who rely on them.
-/

namespace Lineage

/-- An operation of a repository. -/
inductive RepositoryMethod where
  | start
  | commit
  | abort
  | stageDiffs
  | stageActions
  | live
  | history
  | actions
  deriving DecidableEq, Repr

namespace RepositoryMethod

def all : List RepositoryMethod :=
  [start, commit, abort, stageDiffs, stageActions, live, history, actions]

def name : RepositoryMethod → String
  | start => "begin_snapshot"
  | commit => "commit_snapshot"
  | abort => "abort_snapshot"
  | stageDiffs => "insert_diffs"
  | stageActions => "insert_actions"
  | live => "get_by_pointer"
  | history => "history"
  | actions => "actions"

end RepositoryMethod

/-- A way not to keep a promise. -/
inductive Fault where
  /-- an operation always fails -/
  | refuses (method : RepositoryMethod)
  /-- diffs are committed when they are staged, in a snapshot of their own -/
  | leak
  /-- a commit succeeds and writes nothing -/
  | lossyCommit
  /-- a commit that fails is reported as done -/
  | swallowDuplicates
  /-- a commit that fails is reported with another error -/
  | wrongError
  /-- a commit that fails is reported with another identifier -/
  | wrongId
  /-- the live records are the whole history -/
  | allRows
  /-- the live records are the first of the history -/
  | oldest
  /-- the live records are followed by those of the next pointer -/
  | neighbour
  /-- the history is reversed -/
  | reverse
  /-- the history is repeated -/
  | double
  /-- the actions are reversed -/
  | reverseActions
  /-- a single action is left out -/
  | dropSingleAction
  deriving DecidableEq, Repr

namespace Fault

def all : List Fault :=
  RepositoryMethod.all.map refuses ++
    [leak, lossyCommit, swallowDuplicates, wrongError, wrongId, allRows, oldest, neighbour, reverse,
      double, reverseActions, dropSingleAction]

def name : Fault → String
  | refuses method => method.name
  | leak => "leak"
  | lossyCommit => "lossy_commit"
  | swallowDuplicates => "swallow_duplicates"
  | wrongError => "wrong_error"
  | wrongId => "wrong_id"
  | allRows => "all_rows"
  | oldest => "oldest"
  | neighbour => "neighbour"
  | reverse => "reverse"
  | double => "double"
  | reverseActions => "reverse_actions"
  | dropSingleAction => "drop_single_action"

/-- The faults whose names are in a list. -/
def named (names : List String) : List Fault := all.filter fun f => names.contains f.name

end Fault

namespace Repository

variable {σ τ : Type}

/-- Fails if the operation is one that refuses. -/
def refusal (faults : List Fault) (method : RepositoryMethod) : Except LedgerError Unit :=
  if faults.contains (.refuses method) then .error (.backend (method.name ++ " refused"))
  else .ok ()

/-- Writes diffs in a snapshot of their own. -/
def writeDiffs (r : Repository σ τ) (records : List Diff) (s : σ) : Except LedgerError Unit × σ :=
  match r.start s with
  | (.error e, s) => (.error e, s)
  | (.ok snapshot, s) =>
    match r.stageDiffs records snapshot s with
    | (.error e, _, s) => (.error e, s)
    | (.ok (), snapshot, s) => r.commit snapshot s

/-- What a commit that failed is reported as. -/
def reported (faults : List Fault) (e : LedgerError) : Except LedgerError Unit :=
  if faults.contains .swallowDuplicates then .ok ()
  else if faults.contains .wrongError then .error (.backend "conflict")
  else if faults.contains .wrongId then .error (.duplicate "other")
  else .error e

/-- The live records, as faults leave them. Of several faults that concern them one takes effect:
all rows before the oldest row, and that before the neighbour. -/
def faultyLive (faults : List Fault) (r : Repository σ τ) (s : σ) (place : Place) :
    Except LedgerError (List Diff) := do
  if faults.contains .allRows then r.history s place
  else if faults.contains .oldest then (r.history s place).map (List.take 1)
  else if faults.contains .neighbour then
    return (← r.live s place) ++ (← r.live s { place with pointer := place.pointer + 1 })
  else r.live s place

/-- The history, as faults leave it. -/
def faultyHistory (faults : List Fault) (rows : List Diff) : List Diff :=
  let rows := if faults.contains .reverse then rows.reverse else rows
  if faults.contains .double then rows ++ rows else rows

/-- The actions, as faults leave them. -/
def faultyActions (faults : List Fault) (rows : List Action) : List Action :=
  let rows := if faults.contains .reverseActions then rows.reverse else rows
  if faults.contains .dropSingleAction && rows.length == 1 then [] else rows

def faulty (faults : List Fault) (r : Repository σ τ) : Repository σ τ where
  start s :=
    match refusal faults .start with
    | .error e => (.error e, s)
    | .ok () => r.start s
  stageDiffs records snapshot s :=
    match refusal faults .stageDiffs with
    | .error e => (.error e, snapshot, s)
    | .ok () =>
      if faults.contains .leak then
        let (result, s) := r.writeDiffs records s
        (result, snapshot, s)
      else r.stageDiffs records snapshot s
  stageActions records snapshot s :=
    match refusal faults .stageActions with
    | .error e => (.error e, snapshot, s)
    | .ok () => r.stageActions records snapshot s
  commit snapshot s :=
    match refusal faults .commit with
    | .error e => (.error e, s)
    | .ok () =>
      if faults.contains .lossyCommit then (.ok (), s)
      else
        match r.commit snapshot s with
        | (.ok (), s) => (.ok (), s)
        | (.error e, s) => (reported faults e, s)
  abort snapshot s :=
    match refusal faults .abort with
    | .error e => (.error e, s)
    | .ok () => r.abort snapshot s
  live s place := do
    refusal faults .live
    faultyLive faults r s place
  history s place := do
    refusal faults .history
    return faultyHistory faults (← r.history s place)
  actions s place := do
    refusal faults .actions
    return faultyActions faults (← r.actions s place)

end Repository

end Lineage
