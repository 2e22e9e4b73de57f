import Lineage.Proofs.Ledger.Transactions

/-!
# What a store shows of a big map

Snapshots are committed one after another, with records of any levels in any order. The history of a
big map has all records of it that were written, sorted by their levels, and those of one level in
the order of the commits (`stablySorted_byLevel`). The live records are told from the history by
what comes behind a record: it is live if it has a value and no record behind it is about its key
(`live_eq_current`).
-/

namespace Lineage

/-! ### Sorting -/

/-- **Stably sorted**: the second list has the records of the first one in the order of their
levels, and those of each level in the order in which they stood. -/
structure StablySorted {α : Type} (level : α → Int) (xs ys : List α) : Prop where
  ascending : ys.Pairwise (level · ≤ level ·)
  stable (l : Int) : ys.filter (level · = l) = xs.filter (level · = l)

/-- Records of one level are in order as they stand, and so sorting keeps them as they stand. -/
theorem stablySorted_byLevel {α : Type} (level : α → Int) (xs : List α) :
    StablySorted level xs (Store.byLevel level xs) where
  ascending := Store.pairwise_byLevel xs
  stable l := by
    let same := xs.filter (level · = l)
    have hlevel : ∀ x ∈ same, level x = l := fun x hx => by simpa using (List.mem_filter.1 hx).2
    have hpairwise : same.Pairwise fun x y => decide (level x ≤ level y) := by
      refine List.pairwise_of_forall_mem_list fun x hx y hy => ?_
      rw [hlevel x hx, hlevel y hy]
      exact decide_eq_true (Int.le_refl l)
    have hsub : same.Sublist (Store.byLevel level xs) :=
      List.sublist_mergeSort Store.le_trans_level Store.le_total_level hpairwise List.filter_sublist
    have hfilter : same.Sublist ((Store.byLevel level xs).filter (level · = l)) := by
      have hself : same.filter (level · = l) = same :=
        List.filter_eq_self.2 fun x hx => decide_eq_true (hlevel x hx)
      have h := hsub.filter (level · = l)
      rwa [hself] at h
    have hperm : ((Store.byLevel level xs).filter (level · = l)).Perm same :=
      (List.mergeSort_perm xs _).filter _
    exact (hfilter.eq_of_length hperm.length_eq.symm).symm

/-! ### The last records of keys -/

section Current

variable {rows : List Diff} {d e : Diff}

lemma Diff.IsLast.eq (hd : IsLast rows d) (he : IsLast rows e) (h : d.keyHash = e.keyHash) :
    d = e := by
  induction rows using List.reverseRecOn with
  | nil => exact absurd hd not_isLast_nil
  | append_singleton rows x ih =>
    rcases isLast_concat.1 hd with rfl | ⟨hd, hdx⟩
    · rcases isLast_concat.1 he with rfl | ⟨-, hex⟩
      · rfl
      · exact absurd h.symm hex
    · rcases isLast_concat.1 he with rfl | ⟨he, -⟩
      · exact absurd h hdx
      · exact ih hd he

/-- **The records that tell what there is**: they have a value, and no record behind them is about
their key. -/
def Store.current : List Diff → List Diff
  | [] => []
  | d :: rest =>
    if d.value.isSome ∧ ∀ e ∈ rest, e.keyHash ≠ d.keyHash then d :: current rest
    else current rest

/-- One more record is current if it has a value, and those of its key before it are no more. -/
lemma Store.current_concat :
    current (rows ++ [d]) =
      (current rows).filter (·.keyHash != d.keyHash) ++ if d.value.isSome then [d] else [] := by
  induction rows with
  | nil => simp [current]
  | cons e rows ih =>
    rw [List.cons_append, current, current, ih]
    have hlater : (∀ x ∈ rows ++ [d], x.keyHash ≠ e.keyHash) ↔
        (∀ x ∈ rows, x.keyHash ≠ e.keyHash) ∧ d.keyHash ≠ e.keyHash := by
      rw [List.forall_mem_append, List.forall_mem_singleton]
    by_cases he : e.value.isSome ∧ ∀ x ∈ rows, x.keyHash ≠ e.keyHash
    · rw [if_pos he]
      by_cases hd : d.keyHash = e.keyHash
      · rw [if_neg fun h => (hlater.1 h.2).2 hd, List.filter_cons_of_neg (by simp [hd])]
      · rw [if_pos ⟨he.1, hlater.2 ⟨he.2, hd⟩⟩, List.filter_cons_of_pos (by simpa using Ne.symm hd)]
        rfl
    · rw [if_neg he, if_neg fun h => he ⟨h.1, (hlater.1 h.2).1⟩]

/-- Taking records into account in turn, each in the place of the one before, leaves the current
ones when those of deleted keys are left out. -/
theorem Store.filter_latest (rows : List Diff) :
    (latest rows).filter (fun d => !d.isRemoved) = current rows := by
  induction rows using List.reverseRecOn with
  | nil => rfl
  | append_singleton rows d ih =>
    have hlatest : latest (rows ++ [d]) =
        (latest rows).filter (·.keyHash != d.keyHash) ++ [d] := by
      unfold latest
      rw [List.foldl_append]
      rfl
    have hlast : [d].filter (fun d => !d.isRemoved) = if d.value.isSome then [d] else [] := by
      cases hd : d.value <;> simp [Diff.isRemoved, hd]
    rw [hlatest, List.filter_append, List.filter_comm, ih, hlast, current_concat]

end Current

/-! ### Commits in turn -/

namespace Store

def ofScripts (scripts : Dictionary String ScriptRecord) : Store := { empty with scripts }

/-- The store after snapshots were committed in turn, whether the commits succeed or not. -/
def commitAll (s : Store) (snapshots : List Staged) : Store :=
  snapshots.foldl (fun s staged => (commit staged s).2) s

/-- The snapshots that are written when snapshots are committed in turn: those whose identifiers are
distinct and have not been used before. -/
def written (used : List String) : List Staged → List Staged
  | [] => []
  | staged :: rest =>
    if staged.ids.Nodup ∧ ∀ id ∈ staged.ids, id ∉ used then
      staged :: written (used ++ staged.ids) rest
    else written used rest

variable {s : Store} {place : Place}

/-- The records of a store are those that were written, in the order of the commits. -/
lemma diffs_commitAll (s : Store) (snapshots : List Staged) :
    (s.commitAll snapshots).diffs = s.diffs ++ (written s.ids snapshots).flatMap Staged.diffs := by
  induction snapshots generalizing s with
  | nil => exact (List.append_nil _).symm
  | cons staged rest ih =>
    show ((commit staged s).2.commitAll rest).diffs = _
    rw [ih, written]
    by_cases hnew : staged.ids.Nodup ∧ ∀ id ∈ staged.ids, id ∉ s.ids
    · rw [if_pos hnew, commit_of_isOk (commit_isOk_iff.2 hnew), List.flatMap_cons,
        List.append_assoc]
    · rw [if_neg hnew, commit_of_not_isOk (mt commit_isOk_iff.1 hnew)]

lemma live_eq_current : s.live place = current (s.history place) := filter_latest _

/-- **What a store shows of a big map** after any commits: the history has the records of the big
map that were written, stably sorted by their levels, and the live records are those of the history
that have a value and that no record of their key comes behind. So no key is live twice, and none
whose last record deletes it. -/
theorem reads_commitAll (scripts : Dictionary String ScriptRecord) (snapshots : List Staged)
    (place : Place) :
    ∃ rows live,
      repository.history ((ofScripts scripts).commitAll snapshots) place = .ok rows ∧
      repository.live ((ofScripts scripts).commitAll snapshots) place = .ok live ∧
      StablySorted (·.provenance.level)
        (((written [] snapshots).flatMap Staged.diffs).filter fun d =>
          d.pointer = place.pointer ∧ d.address = place.address ∧
            d.provenance.network = place.network) rows ∧
      live = current rows ∧ (live.map Diff.keyHash).Nodup ∧
      ∀ d, Diff.IsLast rows d → d.value = none → d.keyHash ∉ live.map Diff.keyHash := by
  let s : Store := (ofScripts scripts).commitAll snapshots
  refine ⟨s.history place, s.live place, rfl, rfl, ?_, live_eq_current,
    replaces_supersede.nodup_live _, ?_⟩
  · have hdiffs : s.diffs = (written [] snapshots).flatMap Staged.diffs :=
      diffs_commitAll _ _
    have habout : isAbout place = fun d => decide (d.pointer = place.pointer ∧
        d.address = place.address ∧ d.provenance.network = place.network) := by
      funext d
      rw [Bool.eq_iff_iff]
      simp [isAbout, and_assoc]
    have hsorted : StablySorted (·.provenance.level) (s.diffs.filter (isAbout place))
        (s.history place) := stablySorted_byLevel _ _
    rwa [hdiffs, habout] at hsorted
  · intro d hd hnone hmem
    obtain ⟨e, he, hkey⟩ := List.mem_map.1 hmem
    obtain ⟨helast, heremoved⟩ := replaces_supersede.mem_live.1 he
    obtain rfl : e = d := helast.eq hd hkey
    unfold Diff.isRemoved at heremoved
    rw [hnone] at heremoved
    cases heremoved

end Store

end Lineage
