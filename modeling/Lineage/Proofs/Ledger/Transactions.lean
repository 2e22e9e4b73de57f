import Lineage.Proofs.Ledger.Contents

/-!
# Transactions

Any number of snapshots may be open at a repository at the same time, and requests for them come in
any order. A `Session` is a repository at work: its state and the snapshots that are open.

At a store the snapshots are isolated. What is staged in one of them is told from the requests for
this one alone (`opened_run`), and none of them changes the store but a commit. A commit writes all
that is staged, if no identifier comes twice by that, and else nothing. So whatever the requests
were, the store knows the identifiers of its records, each of one record (`transactional`).
-/

namespace Lineage

open Function

/-! ### Sessions -/

/-- What may be asked for a snapshot. -/
inductive Request where
  | start
  | stageDiffs (records : List Diff)
  | stageActions (records : List Action)
  | commit
  | abort
  /-- to give the snapshot up without a word to the repository -/
  | drop
  deriving DecidableEq, Repr

/-- A repository at work: its state, and the snapshots that are open, each under a number. -/
structure Session (σ τ : Type) where
  state : σ
  opened : Nat → Option τ

namespace Session

variable {σ τ : Type}

/-- Answers a request for the snapshot under a number. A new snapshot takes the place of an old one,
which is dropped. There is no answer if no snapshot is open under the number. -/
def answer (r : Repository σ τ) (s : Session σ τ) (k : Nat) (q : Request) :
    Option (Except LedgerError Unit) × Session σ τ :=
  match q, s.opened k with
  | .start, _ =>
    match r.start s.state with
    | (.ok t, state) => (some (.ok ()), ⟨state, update s.opened k (some t)⟩)
    | (.error e, state) => (some (.error e), ⟨state, s.opened⟩)
  | _, none => (none, s)
  | .stageDiffs records, some t =>
    let (result, t, state) := r.stageDiffs records t s.state
    (some result, ⟨state, update s.opened k (some t)⟩)
  | .stageActions records, some t =>
    let (result, t, state) := r.stageActions records t s.state
    (some result, ⟨state, update s.opened k (some t)⟩)
  | .commit, some t =>
    let (result, state) := r.commit t s.state
    (some result, ⟨state, update s.opened k none⟩)
  | .abort, some t =>
    let (result, state) := r.abort t s.state
    (some result, ⟨state, update s.opened k none⟩)
  | .drop, some _ => (some (.ok ()), ⟨s.state, update s.opened k none⟩)

/-- Answers requests, each for the snapshot under a number, one after the other. -/
def run (r : Repository σ τ) (s : Session σ τ) (events : List (Nat × Request)) : Session σ τ :=
  events.foldl (fun s e => (s.answer r e.1 e.2).2) s

lemma run_concat (r : Repository σ τ) (s : Session σ τ) (events : List (Nat × Request)) (k : Nat)
    (q : Request) : s.run r (events ++ [(k, q)]) = ((s.run r events).answer r k q).2 := by
  unfold run
  rw [List.foldl_append]
  rfl

end Session

/-! ### What is staged -/

namespace Staged

def append (s t : Staged) : Staged := ⟨s.diffs ++ t.diffs, s.actions ++ t.actions⟩

instance : Append Staged := ⟨append⟩

lemma empty_append (s : Staged) : empty ++ s = s := rfl

lemma append_empty (s : Staged) : s ++ empty = s := by
  show Staged.mk (s.diffs ++ []) (s.actions ++ []) = s
  rw [List.append_nil, List.append_nil]

lemma perm_ids_append (s t : Staged) : (s ++ t).ids.Perm (s.ids ++ t.ids) := by
  show (ids ⟨s.diffs ++ t.diffs, s.actions ++ t.actions⟩).Perm _
  simp only [ids, List.map_append, List.append_assoc]
  refine List.Perm.append_left _ ?_
  rw [← List.append_assoc, ← List.append_assoc]
  exact List.perm_append_comm.append_right _

end Staged

/-- What a request makes of the records in a snapshot, if it is open. -/
def Request.effect : Request → Option Staged → Option Staged
  | start, _ => some .empty
  | stageDiffs records, t => t.map fun t => { t with diffs := t.diffs ++ records }
  | stageActions records, t => t.map fun t => { t with actions := t.actions ++ records }
  | commit, _ | abort, _ | drop, _ => none

/-- **What is staged** in the snapshot under a number, if it is open after the requests: the records
of the requests for it, in their order. -/
def stagedBy (k : Nat) (events : List (Nat × Request)) : Option Staged :=
  (events.filter (·.1 == k)).foldl (fun t e => e.2.effect t) none

lemma stagedBy_concat (k k' : Nat) (events : List (Nat × Request)) (q : Request) :
    stagedBy k (events ++ [(k', q)]) =
      if k' = k then q.effect (stagedBy k events) else stagedBy k events := by
  unfold stagedBy
  rw [List.filter_append, List.foldl_append]
  by_cases hk : k' = k <;> simp [hk]

/-! ### Write-once stores -/

namespace Store

variable {s : Store} {staged : Staged}

def records (s : Store) : Staged := ⟨s.diffs, s.actions⟩

/-- The store knows the identifiers of its records, each of which is that of one record only. -/
structure WriteOnce (s : Store) : Prop where
  distinct : s.records.ids.Nodup
  recorded (id : String) : id ∈ s.ids ↔ id ∈ s.records.ids

lemma commit_isOk_iff :
    (commit staged s).1 = .ok () ↔ staged.ids.Nodup ∧ ∀ id ∈ staged.ids, id ∉ s.ids := by
  rw [← firstClash?_eq_none_iff, commit]
  split <;> simp [*]

lemma commit_of_isOk (h : (commit staged s).1 = .ok ()) :
    (commit staged s).2 = { s with
      diffs := s.diffs ++ staged.diffs
      actions := s.actions ++ staged.actions
      ids := s.ids ++ staged.ids } := (commit_ok (Prod.ext h rfl)).2

lemma commit_of_not_isOk (h : (commit staged s).1 ≠ .ok ()) : (commit staged s).2 = s := by
  unfold commit at h ⊢
  split
  · rfl
  · next hn => simp [hn] at h

lemma records_commit (h : (commit staged s).1 = .ok ()) :
    (commit staged s).2.records = s.records ++ staged := by
  rw [commit_of_isOk h]
  rfl

/-- **Commits keep stores write-once.** -/
theorem WriteOnce.commit (h : s.WriteOnce) (staged : Staged) : (commit staged s).2.WriteOnce := by
  by_cases hok : (Store.commit staged s).1 = .ok ()
  · obtain ⟨hnodup, hnew⟩ := commit_isOk_iff.1 hok
    have hperm : (Store.commit staged s).2.records.ids.Perm (s.records.ids ++ staged.ids) :=
      records_commit hok ▸ Staged.perm_ids_append s.records staged
    constructor
    · refine hperm.nodup_iff.2 (List.nodup_append'.2 ⟨h.distinct, hnodup, fun id hold hid => ?_⟩)
      exact hnew id hid ((h.recorded id).2 hold)
    · intro id
      rw [hperm.mem_iff, commit_of_isOk hok, List.mem_append, List.mem_append, h.recorded]
  · rw [commit_of_not_isOk hok]
    exact h

end Store

/-! ### Sessions at stores -/

namespace Session

variable {s : Session Store Staged} {k : Nat} {q : Request} {staged : Staged}
  {scripts : Dictionary String ScriptRecord} {events : List (Nat × Request)}

/-- A store of which only the types of contracts are known, without snapshots. -/
def atStore (scripts : Dictionary String ScriptRecord) : Session Store Staged :=
  ⟨{ Store.empty with scripts }, fun _ => none⟩

lemma opened_answer :
    (s.answer Store.repository k q).2.opened = update s.opened k (q.effect (s.opened k)) := by
  cases hk : s.opened k with
  | some t => cases q <;> simp [answer, hk, Request.effect, Store.repository]
  | none =>
    cases q <;> simp [answer, hk, Request.effect, Store.repository]

/-- **Snapshots are isolated**: what is open under a number comes of the requests for it. -/
theorem opened_run :
    ((atStore scripts).run Store.repository events).opened k = stagedBy k events := by
  induction events using List.reverseRecOn with
  | nil => rfl
  | append_singleton events e ih =>
    obtain ⟨k', q⟩ := e
    rw [run_concat, opened_answer, stagedBy_concat]
    by_cases hk : k' = k
    · subst hk
      rw [if_pos rfl, update_self, ih]
    · rw [if_neg hk, update_of_ne (Ne.symm hk), ih]

lemma answer_commit (h : s.opened k = some staged) :
    (s.answer Store.repository k .commit).1 = some (Store.commit staged s.state).1 ∧
      (s.answer Store.repository k .commit).2.state = (Store.commit staged s.state).2 := by
  simp [answer, h, Store.repository]

lemma answer_commit_of_none (h : s.opened k = none) :
    s.answer Store.repository k .commit = (none, s) := by
  simp [answer, h]

lemma state_answer (h : q ≠ .commit) : (s.answer Store.repository k q).2.state = s.state := by
  cases q with
  | commit => exact absurd rfl h
  | start => simp [answer, Store.repository]
  | _ => cases hk : s.opened k <;> simp [answer, hk, Store.repository]

lemma writeOnce_answer (h : s.state.WriteOnce) :
    (s.answer Store.repository k q).2.state.WriteOnce := by
  by_cases hq : q = .commit
  · subst hq
    cases hk : s.opened k with
    | none =>
      rw [answer_commit_of_none hk]
      exact h
    | some staged =>
      rw [(answer_commit hk).2]
      exact h.commit staged
  · rw [state_answer hq]
    exact h

lemma writeOnce_run : ((atStore scripts).run Store.repository events).state.WriteOnce := by
  induction events using List.reverseRecOn with
  | nil => exact ⟨List.nodup_nil, fun id => Iff.rfl⟩
  | append_singleton events e ih =>
    rw [run_concat]
    exact writeOnce_answer ih

/-- What has become of a store by requests, and what becomes of it by the next one. -/
structure Transactional (s : Session Store Staged) (events : List (Nat × Request)) : Prop where
  /-- no identifier is that of two records -/
  distinct : s.state.records.ids.Nodup
  /-- the identifiers of the records are those the store knows -/
  recorded (id : String) : id ∈ s.state.ids ↔ id ∈ s.state.records.ids
  /-- what is staged in a snapshot is what was asked to be staged in it -/
  isolated (k : Nat) : s.opened k = stagedBy k events
  /-- a commit succeeds just if this leaves the identifiers distinct -/
  commits {k : Nat} {staged : Staged} (h : stagedBy k events = some staged) :
    (s.answer Store.repository k .commit).1 = some (.ok ()) ↔
      staged.ids.Nodup ∧ ∀ id ∈ staged.ids, id ∉ s.state.records.ids
  /-- then all that is staged is written behind what was there -/
  appends {k : Nat} (h : (s.answer Store.repository k .commit).1 = some (.ok ())) :
    ∃ staged, stagedBy k events = some staged ∧
      (s.answer Store.repository k .commit).2.state.diffs = s.state.diffs ++ staged.diffs ∧
      (s.answer Store.repository k .commit).2.state.actions = s.state.actions ++ staged.actions
  /-- nothing else changes the store -/
  unchanged {k : Nat} {q : Request}
    (h : ¬ (q = .commit ∧ (s.answer Store.repository k q).1 = some (.ok ()))) :
    (s.answer Store.repository k q).2.state = s.state

/-- **Transactions are atomic, isolated and write-once**, whatever requests have come, in whatever
order, and for however many snapshots. -/
theorem transactional (scripts : Dictionary String ScriptRecord) (events : List (Nat × Request)) :
    Transactional ((atStore scripts).run Store.repository events) events where
  distinct := writeOnce_run.distinct
  recorded := writeOnce_run.recorded
  isolated k := opened_run
  commits {k staged} h := by
    have hk : ((atStore scripts).run Store.repository events).opened k = some staged :=
      opened_run.trans h
    rw [(answer_commit hk).1, Option.some_inj, Store.commit_isOk_iff]
    simp only [writeOnce_run.recorded]
  appends {k} h := by
    cases hk : ((atStore scripts).run Store.repository events).opened k with
    | none =>
      rw [answer_commit_of_none hk] at h
      cases h
    | some staged =>
      rw [(answer_commit hk).1] at h
      rw [(answer_commit hk).2, Store.commit_of_isOk (Option.some.inj h)]
      exact ⟨staged, opened_run.symm.trans hk, rfl, rfl⟩
  unchanged {k q} h := by
    by_cases hq : q = .commit
    · subst hq
      cases hk : ((atStore scripts).run Store.repository events).opened k with
      | none => rw [answer_commit_of_none hk]
      | some staged =>
        rw [(answer_commit hk).2]
        refine Store.commit_of_not_isOk fun hok => h ⟨rfl, ?_⟩
        rw [(answer_commit hk).1, hok]
    · exact state_answer hq

end Session

end Lineage
