import Lineage.BigMap.Resolver
import Lineage.Proofs.BigMap.Arena
import Lineage.Proofs.Ledger.Contents

/-!
# The live records of a pointer

The records that a copy hands on and that a removal deletes are those that the repository has of a
pointer and those that the pointer was given since, each key with its last record only
(`liveRecords_ok`). They amount to the same as all of these records together (`of_overlaid`), and
are told from them by the last records of the keys (`mem_overlaid`).
-/

namespace Lineage.Resolver

open Contents

lemma any_keyHash {rows : List Diff} {d : Diff} :
    rows.any (·.keyHash == d.keyHash) ↔ ∃ x ∈ rows, x.keyHash = d.keyHash := by
  simp only [List.any_eq_true, beq_iff_eq]

lemma mem_overlay {rows : List Diff} {d x : Diff} :
    x ∈ overlay rows d ↔ x = d ∨ x ∈ rows ∧ x.keyHash ≠ d.keyHash := by
  unfold overlay
  split
  · next h =>
    obtain ⟨y, hy, hk⟩ := any_keyHash.1 h
    rw [List.mem_map]
    constructor
    · rintro ⟨z, hz, rfl⟩
      by_cases hzk : z.keyHash = d.keyHash
      · exact .inl (if_pos (beq_iff_eq.2 hzk))
      · rw [if_neg (by simpa using hzk)]
        exact .inr ⟨hz, hzk⟩
    · rintro (rfl | ⟨hx, hne⟩)
      · exact ⟨y, hy, if_pos (beq_iff_eq.2 hk)⟩
      · exact ⟨x, hx, if_neg (by simpa using hne)⟩
  · next h =>
    have hne : ∀ y ∈ rows, y.keyHash ≠ d.keyHash := fun y hy hk => h (any_keyHash.2 ⟨y, hy, hk⟩)
    rw [List.mem_append, List.mem_singleton, or_comm]
    exact or_congr_right ⟨fun hx => ⟨hx, hne x hx⟩, And.left⟩

/-- A record of a new key is put behind all others, and any other one leaves the keys alone. -/
lemma keyHashes_overlay (rows : List Diff) (d : Diff) :
    (overlay rows d).map Diff.keyHash =
      if d.keyHash ∈ rows.map Diff.keyHash then rows.map Diff.keyHash
      else rows.map Diff.keyHash ++ [d.keyHash] := by
  have hany : rows.any (·.keyHash == d.keyHash) ↔ d.keyHash ∈ rows.map Diff.keyHash := by
    rw [any_keyHash, List.mem_map]
  unfold overlay
  by_cases h : d.keyHash ∈ rows.map Diff.keyHash
  · rw [if_pos (hany.2 h), if_pos h, List.map_map]
    refine List.map_congr_left fun x _ => ?_
    dsimp only [Function.comp]
    split
    · next hk => exact (beq_iff_eq.1 hk).symm
    · rfl
  · rw [if_neg (mt hany.1 h), if_neg h, List.map_append, List.map_singleton]

lemma nodup_overlay {rows : List Diff} {d : Diff} (hn : (rows.map Diff.keyHash).Nodup) :
    ((overlay rows d).map Diff.keyHash).Nodup := by
  rw [keyHashes_overlay]
  split
  · exact hn
  · next h => exact List.nodup_append.2 ⟨hn, List.nodup_singleton _, by simpa using h⟩

theorem replaces_overlay : Replaces overlay := ⟨mem_overlay, nodup_overlay⟩

section Overlaid

variable {rows : List Diff}

/-- The live records are the last ones of the keys that are not deleted. -/
theorem mem_overlaid {x : Diff} :
    x ∈ overlaid rows ↔ Diff.IsLast rows x ∧ x.isRemoved = false := replaces_overlay.mem_live

theorem nodup_overlaid (rows : List Diff) : ((overlaid rows).map Diff.keyHash).Nodup :=
  replaces_overlay.nodup_live rows

/-- The live records have the contents of all records. -/
theorem of_overlaid (rows : List Diff) : of (overlaid rows) = of rows :=
  replaces_overlay.of_live rows

end Overlaid

variable {live : LiveRecords} {ctx : Context} {a : Arena} {p : Int} {rows : List Diff}

/-- What the repository is asked for of a pointer: nothing of a temporary one, which has to have
been opened. -/
def Persisted (live : LiveRecords) (ctx : Context) (a : Arena) (p : Int) (held : List Diff) :
    Prop :=
  if 0 ≤ p then live (ctx.place p) = .ok held else held = [] ∧ (a.records? p).isSome

/-- The live records are what the repository has of a pointer and what the pointer was given since,
with only the last record of each key. -/
theorem liveRecords_ok :
    liveRecords live ctx a p = .ok rows ↔
      ∃ held, Persisted live ctx a p held ∧ rows = overlaid (held ++ a.pending p) := by
  unfold liveRecords Persisted
  by_cases hp : 0 ≤ p
  · simp only [if_pos hp]
    cases live (ctx.place p) with
    | error e => simp [Except.mapError, bind, Except.bind]
    | ok held =>
      simp [Except.mapError, bind, Except.bind, pure, Except.pure, Arena.pending, eq_comm]
  · simp only [if_neg hp]
    cases hr : a.records? p with
    | none => simp [bind, Except.bind]
    | some rs => simp [bind, Except.bind, pure, Except.pure, Arena.pending, hr, eq_comm]

end Lineage.Resolver
