import Lineage.BigMap.Persistence
import Lineage.Ledger.Conformance
import Lineage.Ledger.Fault
import Lineage.Proofs.Ledger.Transactions

/-!
# All or nothing

What a repository promises is told by two views of it: the records it has for good, and those that
are staged in a snapshot (`Contract`). Staging adds to the second ones, a commit that succeeds moves
them to the first ones, and nothing else touches these, whichever operations fail and whatever
becomes of the snapshots then. A store keeps the contract, and so does any repository that keeps it
when some of its operations refuse (`Contract.faulty`).

With such a repository the records of a group are all written, or none of them
(`persist_allOrNothing`).
-/

namespace Lineage

variable {σ τ : Type}

def Resolution.toStaged (records : Resolution) : Staged := ⟨records.diffs, records.actions⟩

lemma Resolution.toStaged_of_isEmpty {records : Resolution} (h : records.isEmpty) :
    records.toStaged = .empty := by
  simp only [Resolution.isEmpty, Bool.and_eq_true, List.isEmpty_iff] at h
  rw [toStaged, h.1, h.2]
  rfl

namespace Repository

/-! ### What is promised -/

/-- **The promise of a repository** with the records `kept` for good, and `staged` in snapshots. -/
structure Contract (r : Repository σ τ) (kept : σ → Staged) (staged : τ → σ → Staged) : Prop where
  /-- nothing is staged in a new snapshot -/
  start {s s' : σ} {t : τ} (h : r.start s = (.ok t, s')) : staged t s' = .empty
  /-- diffs are staged behind what is staged already -/
  stageDiffs {s s' : σ} {t t' : τ} {records : List Diff}
    (h : r.stageDiffs records t s = (.ok (), t', s')) :
    staged t' s' = { staged t s with diffs := (staged t s).diffs ++ records }
  /-- and so are actions -/
  stageActions {s s' : σ} {t t' : τ} {records : List Action}
    (h : r.stageActions records t s = (.ok (), t', s')) :
    staged t' s' = { staged t s with actions := (staged t s).actions ++ records }
  /-- a commit that succeeds keeps for good all that is staged -/
  commit {s s' : σ} {t : τ} (h : r.commit t s = (.ok (), s')) : kept s' = kept s ++ staged t s
  /-- a commit that fails keeps none of it -/
  commit_error {s s' : σ} {t : τ} {e : LedgerError} (h : r.commit t s = (.error e, s')) :
    kept s' = kept s
  /-- nor does anything else, failed or not, change what is kept -/
  kept_start (s : σ) : kept (r.start s).2 = kept s
  kept_stageDiffs (records : List Diff) (t : τ) (s : σ) :
    kept (r.stageDiffs records t s).2.2 = kept s
  kept_stageActions (records : List Action) (t : τ) (s : σ) :
    kept (r.stageActions records t s).2.2 = kept s
  kept_abort (t : τ) (s : σ) : kept (r.abort t s).2 = kept s

variable {r : Repository σ τ} {kept : σ → Staged} {staged : τ → σ → Staged}
  {records : Resolution} {s s' : σ} {t t' : τ}

/-- Operations that refuse break no promise, and misreported errors do not either. -/
theorem Contract.faulty (h : Contract r kept staged) {faults : List Fault}
    (hleak : .leak ∉ faults) (hlossy : .lossyCommit ∉ faults)
    (hswallow : .swallowDuplicates ∉ faults) : Contract (r.faulty faults) kept staged where
  start {s s' t} hstart := by
    simp only [Repository.faulty] at hstart
    split at hstart
    · cases hstart
    · exact h.start hstart
  stageDiffs {s s' t t' records} hstage := by
    simp only [Repository.faulty, List.contains_eq_mem, hleak] at hstage
    split at hstage
    · cases hstage
    · exact h.stageDiffs hstage
  stageActions {s s' t t' records} hstage := by
    simp only [Repository.faulty] at hstage
    split at hstage
    · cases hstage
    · exact h.stageActions hstage
  commit {s s' t} hcommit := by
    simp only [Repository.faulty, List.contains_eq_mem, hlossy] at hcommit
    split at hcommit
    · cases hcommit
    cases hr : r.commit t s with
    | mk result s'' =>
      cases result with
      | ok =>
        simp only [hr] at hcommit
        cases hcommit
        exact h.commit hr
      | error e =>
        -- an error would have to be swallowed
        simp only [hr, reported, List.contains_eq_mem, hswallow] at hcommit
        grind
  commit_error {s s' t e} hcommit := by
    simp only [Repository.faulty, List.contains_eq_mem, hlossy] at hcommit
    split at hcommit
    · cases hcommit
      rfl
    cases hr : r.commit t s with
    | mk result s'' =>
      cases result with
      | ok => simp [hr] at hcommit
      | error e' =>
        simp only [hr] at hcommit
        obtain ⟨-, rfl⟩ := Prod.ext_iff.1 hcommit
        exact h.commit_error hr
  kept_start s := by
    simp only [Repository.faulty]
    split
    · rfl
    · exact h.kept_start s
  kept_stageDiffs records t s := by
    simp only [Repository.faulty, List.contains_eq_mem, hleak]
    split
    · rfl
    · exact h.kept_stageDiffs records t s
  kept_stageActions records t s := by
    simp only [Repository.faulty]
    split
    · rfl
    · exact h.kept_stageActions records t s
  kept_abort t s := by
    simp only [Repository.faulty]
    split
    · rfl
    · exact h.kept_abort t s

end Repository

/-- Stores keep the promise of a repository. -/
theorem Store.contract : Store.repository.Contract Store.records fun t _ => t where
  start h := by
    cases h
    rfl
  stageDiffs h := by
    cases h
    rfl
  stageActions h := by
    cases h
    rfl
  commit {s s' t} h := by
    have hs : (Store.commit t s).2 = s' := congrArg Prod.snd h
    rw [← hs]
    exact records_commit (congrArg Prod.fst h)
  commit_error {s s' t e} h := by
    have hs : (Store.commit t s).2 = s' := congrArg Prod.snd h
    rw [← hs, commit_of_not_isOk]
    intro hok
    have he : (Store.commit t s).1 = .error e := congrArg Prod.fst h
    simp [he] at hok
  kept_start _ := rfl
  kept_stageDiffs _ _ _ := rfl
  kept_stageActions _ _ _ := rfl
  kept_abort _ _ := rfl

namespace Repository

variable {r : Repository σ τ} {kept : σ → Staged} {staged : τ → σ → Staged}
  {s s' : σ} {t t' : τ} {records : Resolution}

/-! ### Staging -/

lemma Contract.kept_stage (h : Contract r kept staged) :
    kept (r.stage records t s).2.2 = kept s := by
  have hdiffs := h.kept_stageDiffs records.diffs t s
  unfold stage
  split
  · next t' s' heq =>
    rw [heq] at hdiffs
    exact (h.kept_stageActions records.actions t' s').trans hdiffs
  · next heq =>
    rw [heq] at hdiffs
    exact hdiffs

lemma Contract.stage (h : Contract r kept staged)
    (hstage : r.stage records t s = (.ok (), t', s')) :
    staged t' s' = staged t s ++ records.toStaged := by
  unfold Repository.stage at hstage
  split at hstage
  · next t'' s'' heq =>
    rw [h.stageActions hstage, h.stageDiffs heq]
    rfl
  · cases hstage

/-! ### Persistence -/

/-- **The records of a group are written all or none**, with any repository that keeps its promise:
all of them in their order, if no error is returned, and else none. -/
theorem persist_allOrNothing (h : Contract r kept staged) (records : Resolution) (s : σ) :
    ((r.persist records s).1 = .ok () →
        kept (r.persist records s).2 = kept s ++ records.toStaged) ∧
      ∀ e, (r.persist records s).1 = .error e → kept (r.persist records s).2 = kept s := by
  unfold persist
  split
  · next hempty =>
    rw [Resolution.toStaged_of_isEmpty hempty, Staged.append_empty]
    exact ⟨fun _ => rfl, fun _ _ => rfl⟩
  have hstart := h.kept_start s
  split
  · -- no snapshot is opened
    next heq =>
    rw [heq] at hstart
    exact ⟨nofun, fun _ _ => hstart⟩
  · next t s₁ heq =>
    rw [heq] at hstart
    have hstage : kept (r.stage records t s₁).2.2 = kept s₁ := h.kept_stage
    split
    · next t₂ s₂ heq₂ =>
      -- all is staged, and the commit decides
      rw [heq₂] at hstage
      have hkept : kept s₂ = kept s := hstage.trans hstart
      have hstaged : staged t₂ s₂ = records.toStaged := by
        rw [h.stage heq₂, h.start heq, Staged.empty_append]
      constructor
      · intro hcommit
        rw [h.commit (Prod.ext hcommit rfl), hkept, hstaged]
      · intro e hcommit
        rw [h.commit_error (Prod.ext hcommit rfl), hkept]
    · next t₂ s₂ heq₂ =>
      -- staging has failed, so there is an error however the abort ends
      rw [heq₂] at hstage
      have habort := h.kept_abort t₂ s₂
      have hkept : kept s₂ = kept s := hstage.trans hstart
      split
      · next heq₃ =>
        rw [heq₃] at habort
        exact ⟨nofun, fun _ _ => habort.trans hkept⟩
      · next heq₃ =>
        rw [heq₃] at habort
        exact ⟨nofun, fun _ _ => habort.trans hkept⟩

def newBigMap : Resolution where
  diffs := [Conformance.diff "diff" 7 "key" (some 1) 5]
  actions := [Conformance.action "alloc" .alloc none (some 7) 5]

/-- When its action cannot be staged nothing of a new big map is left behind, though its diff has
been staged before and not even the abort succeeds. Without these faults all of it is written. -/
theorem persist_allOrNothing_newBigMap :
    let r := Store.repository.faulty [.refuses .stageActions, .refuses .abort]
    (r.Contract Store.records (fun t _ => t) ∧
      Store.repository.Contract Store.records fun t _ => t) ∧
    ((r.persist newBigMap .empty).1 = .error (.backend "abort_snapshot refused") ∧
      (r.persist newBigMap .empty).2.records = Store.empty.records) ∧
    (Store.repository.persist newBigMap .empty).1 = .ok () ∧
      (Store.repository.persist newBigMap .empty).2.records = newBigMap.toStaged := by
  intro r
  have hr : r.Contract Store.records (fun t _ => t) :=
    Store.contract.faulty (by decide) (by decide) (by decide)
  have hrefused : (r.persist newBigMap .empty).1 = .error (.backend "abort_snapshot refused") := by
    decide +kernel
  have hwritten : (Store.repository.persist newBigMap .empty).1 = .ok () := by
    decide +kernel
  refine ⟨⟨hr, Store.contract⟩, ⟨hrefused, ?_⟩, hwritten, ?_⟩
  · exact (persist_allOrNothing hr newBigMap .empty).2 _ hrefused
  · exact (persist_allOrNothing Store.contract newBigMap .empty).1 hwritten

end Repository

end Lineage
