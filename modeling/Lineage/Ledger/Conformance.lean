import Lineage.Json.Printer
import Lineage.Ledger.Repository

/-!
# Conformance

Checks that any repository has to pass: that the live records are the last ones of each key, that
only committed records can be seen, and that a commit writes all of its records or none. Each check
starts from an empty repository.
-/

namespace Lineage.Conformance

/-- A check at work on a repository with states `σ`, which may end in a complaint. -/
abbrev Trial (σ : Type) := ExceptT String (StateM σ)

section

variable {σ τ α : Type}

/-! ### Steps of checks -/

/-- An operation that changes the state, whose failure is a complaint. -/
def perform (op : σ → Except LedgerError α × σ) : Trial σ α :=
  ExceptT.mk fun s =>
    match op s with
    | (.ok a, s) => (.ok a, s)
    | (.error e, s) => (.error e.message, s)

/-- An operation whose failure is an answer. -/
def attempt (op : σ → Except LedgerError α × σ) : Trial σ (Except LedgerError α) :=
  ExceptT.mk fun s =>
    let (result, s) := op s
    (.ok result, s)

/-- An operation that reads the state, whose failure is a complaint. -/
def read (op : σ → Except LedgerError α) : Trial σ α := perform fun s => (op s, s)

/-- An operation that changes a snapshot, whose failure is a complaint. -/
def stage (op : τ → σ → Except LedgerError Unit × τ × σ) (snapshot : τ) : Trial σ τ :=
  perform fun s =>
    match op snapshot s with
    | (.ok (), snapshot, s) => (.ok snapshot, s)
    | (.error e, _, s) => (.error e, s)

/-- Complains unless a condition holds. -/
def demand (condition : Bool) (complaint : String) : Trial σ Unit :=
  if condition then pure () else throw complaint

/-- A list of texts as it stands in a complaint. -/
def quoted (texts : List String) : String :=
  "[" ++ String.intercalate ", " (texts.map Json.quote) ++ "]"

/-! ### Sample records -/

def address : String := "KT1ConformanceContract"

def network : String := "mainnet"

/-- A big map of the sample contract. -/
def place (pointer : Int) : Place := ⟨address, network, pointer⟩

def provenance (level : Int) : Provenance where
  operationId := s!"op-{level}"
  level := level
  timestamp := "2025-01-01T00:00:00Z"
  network := network
  protocol := "PtConformance"

def diff (id : String) (pointer : Int) (keyHash : String) (value : Option Int) (level : Int) :
    Diff where
  id := id
  pointer := pointer
  key := .string keyHash
  keyHash := keyHash
  keyStrings := [keyHash]
  value := value.map fun n => .int (toString n)
  valueStrings := []
  path := "0/0"
  address := address
  provenance := provenance level

def action (id : String) (kind : ActionKind) (source destination : Option Int) (level : Int) :
    Action :=
  ⟨id, kind, source, destination, address, provenance level⟩

/-! ### Checks -/

/-- A check: its name and that of its group, and what it does. -/
structure Check (σ : Type) where
  group : String
  name : String
  run : Trial σ Unit

variable (r : Repository σ τ)

/-- Commits diffs in a snapshot of their own. -/
def write (diffs : List Diff) : Trial σ Unit := do
  let snapshot ← perform r.start
  let snapshot ← stage (r.stageDiffs diffs) snapshot
  perform (r.commit snapshot)

/-- Of two diffs of a key the later one is live. -/
def latestWins : Check σ where
  group := "history"
  name := "latest_record_per_key_wins"
  run := do
    write r [diff "d1" 7 "exprA" (some 1) 10]
    write r [diff "d2" 7 "exprA" (some 2) 11]
    match ← read (r.live · (place 7)) with
    | [row] => demand (row.id == "d2") s!"expected d2 to be live, got {row.id}"
    | rows => throw s!"expected 1 live record, got {rows.length}"

/-- A deleted key is not live. -/
def deletionHides : Check σ where
  group := "history"
  name := "tombstone_hides_key"
  run := do
    write r [diff "d1" 7 "exprA" (some 1) 10, diff "d2" 7 "exprB" (some 2) 10]
    write r [diff "d3" 7 "exprA" none 12]
    let hashes := (← read (r.live · (place 7))).map Diff.keyHash
    demand (hashes == ["exprB"]) ("expected only exprB live, got " ++ quoted hashes)

/-- Other big maps, contracts and networks do not count. -/
def filtersPlace : Check σ where
  group := "history"
  name := "filters_by_pointer_address_and_network"
  run := do
    let here := diff "d1" 7 "exprA" (some 1) 10
    let otherAddress := { diff "d2" 7 "exprB" (some 2) 10 with address := "KT1Other" }
    let otherNetwork := { diff "d3" 7 "exprC" (some 3) 10 with
      provenance := { provenance 10 with network := "ghostnet" } }
    write r [here, otherAddress, otherNetwork, diff "d4" 8 "exprD" (some 4) 10]
    let ids := (← read (r.live · (place 7))).map Diff.id
    demand (ids == ["d1"]) ("expected [d1], got " ++ quoted ids)

/-- The history has deletions, and is in the order of levels. -/
def historyOrder : Check σ where
  group := "history"
  name := "history_keeps_tombstones_in_level_order"
  run := do
    write r [diff "late" 7 "exprA" none 20]
    write r [diff "early" 7 "exprA" (some 1) 10]
    let ids := (← read (r.history · (place 7))).map Diff.id
    demand (ids == ["early", "late"]) ("expected [early, late], got " ++ quoted ids)

/-- What is staged cannot be seen before the commit. -/
def stagedInvisible : Check σ where
  group := "snapshot"
  name := "uncommitted_diffs_invisible"
  run := do
    let snapshot ← perform r.start
    let snapshot ← stage (r.stageDiffs [diff "d1" 7 "exprA" (some 1) 10]) snapshot
    let rows ← read (r.live · (place 7))
    demand rows.isEmpty s!"staged diff visible before commit ({rows.length} rows)"
    perform (r.commit snapshot)
    let rows ← read (r.live · (place 7))
    demand (rows.length == 1) s!"expected 1 row after commit, got {rows.length}"

/-- What is aborted is never seen. -/
def abortedInvisible : Check σ where
  group := "snapshot"
  name := "aborted_diffs_discarded"
  run := do
    let snapshot ← perform r.start
    let snapshot ← stage (r.stageDiffs [diff "d1" 7 "exprA" (some 1) 10]) snapshot
    perform (r.abort snapshot)
    let rows ← read (r.history · (place 7))
    demand rows.isEmpty s!"aborted diff persisted ({rows.length} rows)"

/-- A known identifier is refused. -/
def duplicateRefused : Check σ where
  group := "commit"
  name := "duplicate_id_rejected"
  run := do
    write r [diff "d1" 7 "exprA" (some 1) 10]
    let snapshot ← perform r.start
    let snapshot ← stage (r.stageDiffs [diff "d1" 7 "exprA" (some 2) 11]) snapshot
    match ← attempt (r.commit snapshot) with
    | .ok () => throw "duplicate id was accepted"
    | .error e =>
      demand (e == .duplicate "d1") ("expected DuplicateRecord(d1), got " ++ e.message)

/-- A commit that fails for one record writes no other. -/
def failedWritesNothing : Check σ where
  group := "commit"
  name := "failed_commit_writes_nothing"
  run := do
    write r [diff "d1" 7 "exprA" (some 1) 10]
    let snapshot ← perform r.start
    let diffs := [diff "d2" 7 "exprB" (some 2) 11, diff "d1" 7 "exprA" (some 3) 11]
    let snapshot ← stage (r.stageDiffs diffs) snapshot
    match ← attempt (r.commit snapshot) with
    | .ok () => throw "commit with duplicate id succeeded"
    | .error _ =>
      let rows ← read (r.history · (place 7))
      demand (rows.length == 1) s!"expected 1 row, got {rows.length}"

/-- An action is found by each of its pointers. -/
def actionsByPointer : Check σ where
  group := "commit"
  name := "actions_found_by_either_pointer"
  run := do
    let snapshot ← perform r.start
    let actions :=
      [action "a1" .alloc none (some 5) 10, action "a2" .copy (some 5) (some 6) 11,
        action "a3" .remove (some 9) none 12]
    let snapshot ← stage (r.stageActions actions) snapshot
    perform (r.commit snapshot)
    let ids := (← read (r.actions · (place 5))).map Action.id
    demand (ids == ["a1", "a2"]) ("expected [a1, a2] for pointer 5, got " ++ quoted ids)
    let kinds := (← read (r.actions · (place 6))).map Action.kind
    demand (kinds == [.copy]) "expected the copy action for pointer 6"

def checks : List (Check σ) :=
  [latestWins r, deletionHides r, filtersPlace r, historyOrder r, stagedInvisible r,
    abortedInvisible r, duplicateRefused r, failedWritesNothing r, actionsByPointer r]

/-! ### Reports -/

/-- How a check has ended: with a complaint, or with none. -/
structure Verdict where
  group : String
  name : String
  complaint : Option String
  deriving DecidableEq, Repr

/-- Has the check ended without complaint? -/
def Verdict.passed (v : Verdict) : Bool := v.complaint.isNone

/-- Makes a check on a state. -/
def Check.verdict (s : σ) (c : Check σ) : Verdict :=
  match (c.run.run s).1 with
  | .ok () => ⟨c.group, c.name, none⟩
  | .error complaint => ⟨c.group, c.name, some complaint⟩

/-- Makes every check, each on the empty state. -/
def report (empty : σ) : List Verdict := (checks r).map (·.verdict empty)

end

/-- The line of a report for a check that has failed. -/
def failureLine (v : Verdict) : Option String :=
  v.complaint.map fun complaint => s!"  FAIL [{v.group}/{v.name}]: {complaint}\n"

def text (verdicts : List Verdict) : String :=
  let passed := verdicts.countP Verdict.passed
  let total := verdicts.length
  s!"Conformance: {passed}/{total} passed ({total - passed} failed)\n" ++
    String.join (verdicts.filterMap failureLine)

end Lineage.Conformance
