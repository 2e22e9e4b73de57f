import Lineage.Proofs.BigMap.Copying

/-!
# What copies and removals act on

A copy hands on, and the removal of a final pointer deletes, the live set of the pointer: of each
key whose last record has a value this record, in the order in which the keys first appeared. A key
may be written, deleted and written again as often as one likes, by the repository's records and by
those of the group; it stands where it first appeared, once, if it has a value in the end
(`isLiveSet_overlaid`).
-/

namespace Lineage

namespace Diff

/-- Where a key first appears among records. -/
def firstAt (rows : List Diff) (keyHash : String) : Nat := rows.findIdx (·.keyHash == keyHash)

/-- **The live set of records**: the last records of the keys that have a value in the end, in the
order in which the keys first appear, so that no key stands there twice. -/
structure IsLiveSet (rows live : List Diff) : Prop where
  mem_iff {d : Diff} : d ∈ live ↔ IsLast rows d ∧ d.value ≠ none
  ordered : live.Pairwise fun d e => firstAt rows d.keyHash < firstAt rows e.keyHash

/-- A record as a copy gives it to a pointer. -/
structure IsCopyAt (pointer : Int) (row copy : Diff) : Prop where
  pointer : copy.pointer = pointer
  key : copy.key = row.key
  keyHash : copy.keyHash = row.keyHash
  value : copy.value = row.value
  keyStrings : copy.keyStrings = row.keyStrings
  valueStrings : copy.valueStrings = row.valueStrings

/-- The record that the key of a record is deleted. -/
structure IsDeletionOf (row deletion : Diff) : Prop where
  key : deletion.key = row.key
  keyHash : deletion.keyHash = row.keyHash
  keyStrings : deletion.keyStrings = row.keyStrings
  value : deletion.value = none
  valueStrings : deletion.valueStrings = []

variable {rows : List Diff} {d : Diff} {keyHash : String}

/-! ### First appearances -/

lemma firstAt_lt_length_iff :
    firstAt rows keyHash < rows.length ↔ keyHash ∈ rows.map Diff.keyHash := by
  unfold firstAt
  rw [List.findIdx_lt_length, List.mem_map]
  simp only [beq_iff_eq]

lemma firstAt_append_of_mem (h : keyHash ∈ rows.map Diff.keyHash) (more : List Diff) :
    firstAt (rows ++ more) keyHash = firstAt rows keyHash := by
  have hlt := firstAt_lt_length_iff.2 h
  unfold firstAt at *
  rw [List.findIdx_append, if_pos hlt]

lemma firstAt_concat_of_notMem (h : d.keyHash ∉ rows.map Diff.keyHash) :
    firstAt (rows ++ [d]) d.keyHash = rows.length := by
  have hlt := mt firstAt_lt_length_iff.1 h
  unfold firstAt at *
  rw [List.findIdx_append, if_neg hlt, List.findIdx_singleton]
  simp

lemma IsLiveSet.nodup {live : List Diff} (h : IsLiveSet rows live) : live.Nodup := by
  refine h.ordered.imp ?_
  rintro d _ hlt rfl
  exact Nat.lt_irrefl _ hlt

/-- Records have one live set. -/
theorem IsLiveSet.unique {live live' : List Diff} (h : IsLiveSet rows live)
    (h' : IsLiveSet rows live') : live = live' := by
  have hperm : live.Perm live' :=
    (List.perm_ext_iff_of_nodup h.nodup h'.nodup).2 fun d => h.mem_iff.trans h'.mem_iff.symm
  refine hperm.eq_of_pairwise (fun d e _ _ hde hed => ?_) h.ordered h'.ordered
  exact absurd (Nat.lt_trans hde hed) (Nat.lt_irrefl _)

end Diff

namespace Resolver

open Resolve Diff

variable {live : LiveRecords} {settings : Settings} {ctx : Context} {r r' : Resolver}
  {out : Resolution} {p : Int} {rows held : List Diff}

/-! ### The order of the live records -/

lemma mem_keyHashes_foldl {keyHash : String} :
    keyHash ∈ (rows.foldl overlay []).map Diff.keyHash ↔ keyHash ∈ rows.map Diff.keyHash := by
  induction rows using List.reverseRecOn with
  | nil => rfl
  | append_singleton rows d ih =>
    rw [List.foldl_append, List.foldl_cons, List.foldl_nil, keyHashes_overlay, List.map_append,
      List.mem_append, List.map_singleton, List.mem_singleton, ← ih]
    split
    · next h => exact (or_iff_left_of_imp fun he => he ▸ h).symm
    · rw [List.mem_append, List.mem_singleton]

/-- Overlaying keeps keys in the order in which they first appear: a later record takes the place of
an earlier one of its key. -/
lemma ordered_foldl_overlay (rows : List Diff) :
    ((rows.foldl overlay []).map Diff.keyHash).Pairwise (firstAt rows · < firstAt rows ·) := by
  induction rows using List.reverseRecOn with
  | nil => exact .nil
  | append_singleton rows d ih =>
    rw [List.foldl_append, List.foldl_cons, List.foldl_nil, keyHashes_overlay]
    -- the keys that were there before stay where they were
    have hbefore : ((rows.foldl overlay []).map Diff.keyHash).Pairwise
        (firstAt (rows ++ [d]) · < firstAt (rows ++ [d]) ·) := by
      refine ih.imp_of_mem fun hx hy hlt => ?_
      rwa [firstAt_append_of_mem (mem_keyHashes_foldl.1 hx),
        firstAt_append_of_mem (mem_keyHashes_foldl.1 hy)]
    split
    · exact hbefore
    · next hnew =>
      have hd := mt mem_keyHashes_foldl.2 hnew
      refine List.pairwise_append.2 ⟨hbefore, List.pairwise_singleton _ _, fun x hx y hy => ?_⟩
      rw [List.mem_singleton.1 hy, firstAt_concat_of_notMem hd,
        firstAt_append_of_mem (mem_keyHashes_foldl.1 hx)]
      exact firstAt_lt_length_iff.2 (mem_keyHashes_foldl.1 hx)

/-- **The live records of a pointer are the live set** of the records that are overlaid. -/
theorem isLiveSet_overlaid (rows : List Diff) : IsLiveSet rows (overlaid rows) where
  mem_iff := by
    intro d
    rw [mem_overlaid, isRemoved, Option.isNone_eq_false_iff, Option.isSome_iff_ne_none]
  ordered := by
    have hkeys : ((overlaid rows).map Diff.keyHash).Pairwise _ :=
      (ordered_foldl_overlay rows).sublist (List.filter_sublist.map _)
    exact (List.pairwise_map (R := (firstAt rows · < firstAt rows ·))).1 hkeys

/-! ### Copies and removals -/

lemma isCopyAt_copiesOf {d : Int} {path : String} {n : Nat} :
    List.Forall₂ (IsCopyAt d) rows (copiesOf ctx d path n rows) :=
  forall₂_numbered fun _ _ => ⟨rfl, rfl, rfl, rfl, rfl, rfl⟩

lemma isDeletionOf_deletionsOf {n : Nat} :
    List.Forall₂ IsDeletionOf rows (deletionsOf ctx p n rows) :=
  forall₂_numbered fun _ _ => ⟨rfl, rfl, rfl, rfl, rfl⟩

lemma exists_remove (hp : 0 ≤ p) (h : liveRecords live ctx r.arena p = .ok rows) :
    ∃ out r', (remove live ctx p).exec r = (.ok out, r') ∧
      out.diffs = deletionsOf ctx p r.ordinal rows ∧
      r'.arena = r.arena.pushAll p (deletionsOf ctx p r.ordinal rows) := by
  rcases hx : (remove live ctx p).exec r with ⟨e | out, r'⟩
  · obtain ⟨-, -, he⟩ := remove_error hx
    cases h.symm.trans he
  · obtain ⟨rows', hrows, rfl, rfl⟩ := remove_ok hp hx
    cases h.symm.trans hrows
    exact ⟨_, _, rfl, rfl, rfl⟩

/-- **Copies and removals act on the live set** of the records that the repository has of a pointer
and those that the group gave it since, in any state of a group. A copy that succeeds gives the
destination a copy of each record, with its key, its value and the texts in them. The removal of a
final pointer succeeds, and gives it of each record the record that the key is deleted. Both bring
out the records they make, as far as these are of final pointers, and make no others. -/
theorem actOn_liveSet (hr : Reachable settings r) (hheld : Persisted live ctx r.arena p held) :
    ∃ rows, IsLiveSet (held ++ r.arena.pending p) rows ∧
      (∀ d out r', (copy live settings ctx p d).exec r = (.ok out, r') →
        ∃ copies, List.Forall₂ (IsCopyAt d) rows copies ∧
          r'.arena.pending d = r.arena.pending d ++ copies ∧
          out.diffs = if 0 ≤ d then copies else []) ∧
      (0 ≤ p → ∃ out r', (remove live ctx p).exec r = (.ok out, r') ∧
        ∃ deletions, List.Forall₂ IsDeletionOf rows deletions ∧
          r'.arena.pending p = r.arena.pending p ++ deletions ∧ out.diffs = deletions) := by
  have hlive : liveRecords live ctx r.arena p = .ok (overlaid (held ++ r.arena.pending p)) :=
    liveRecords_ok.2 ⟨held, hheld, rfl⟩
  refine ⟨_, isLiveSet_overlaid _, fun d out r' hcopy => ?_, fun hp => ?_⟩
  · obtain ⟨actions, rows, link, -, hrows, -, rfl, rfl⟩ := copy_ok hcopy
    cases hlive.symm.trans hrows
    refine ⟨_, isCopyAt_copiesOf, ?_, rfl⟩
    rw [pending_copied hr.wf, Function.update_self]
  · obtain ⟨out, r', hremove, hdiffs, harena⟩ := exists_remove hp hlive
    refine ⟨out, r', hremove, _, isDeletionOf_deletionsOf, ?_, hdiffs⟩
    rw [harena, Arena.pending_pushAll hr.wf, Function.update_self]

/-- A contract whose big map 7 has the key `exprA` in the store. -/
def storedSeven : Context := twoBigMapsContext [(7, "0/0")] Conformance.address

/-- The big map gets the key `exprB`, and loses `exprA` and gets it back. -/
def deletedAndBack : List LogEntry :=
  [.update 7 (.bytes "02") "exprB" (some (.int "2")), .update 7 (.bytes "01") "exprA" none,
    .update 7 (.bytes "01") "exprA" (some (.int "3"))]

def afterDeletedAndBack : Resolver :=
  ((resolve (Store.repository.live storeOfSeven) .default storedSeven deletedAndBack).exec .start).2

theorem actOn_liveSet_deletedAndBack :
    let live := Store.repository.live storeOfSeven
    let r := afterDeletedAndBack
    Reachable .default r ∧ Persisted live storedSeven r.arena 7 storeOfSeven.diffs ∧
      (r.arena.pending 7).length = 3 ∧
      (∃ out r', (copy live .default storedSeven 7 8).exec r = (.ok out, r')) ∧
      ∃ rows, IsLiveSet (storeOfSeven.diffs ++ r.arena.pending 7) rows ∧
        (∀ d out r', (copy live .default storedSeven 7 d).exec r = (.ok out, r') →
          ∃ copies, List.Forall₂ (IsCopyAt d) rows copies ∧
            r'.arena.pending d = r.arena.pending d ++ copies ∧
            out.diffs = if 0 ≤ d then copies else []) ∧
        (0 ≤ (7 : Int) → ∃ out r', (remove live storedSeven 7).exec r = (.ok out, r') ∧
          ∃ deletions, List.Forall₂ IsDeletionOf rows deletions ∧
            r'.arena.pending 7 = r.arena.pending 7 ++ deletions ∧ out.diffs = deletions) := by
  intro live r
  have hr : Reachable .default r := .resolve _ _ _ .start
  have hheld : Persisted live storedSeven r.arena 7 storeOfSeven.diffs := by
    show Except.ok (storeOfSeven.live _) = Except.ok storeOfSeven.diffs
    exact congrArg Except.ok (by decide +kernel)
  have hpending : (r.arena.pending 7).length = 3 := by decide +kernel
  have hcopy : ((copy live .default storedSeven 7 8).exec r).1.toOption.map
      (·.diffs.length) = some 2 := by decide +kernel
  obtain ⟨out, hout, -⟩ := fst_ok_of_toOption_map hcopy
  exact ⟨hr, hheld, hpending, ⟨out, _, hout⟩, actOn_liveSet hr hheld⟩

end Resolver

end Lineage
