import Lineage.Proofs.BigMap.Links
import Lineage.Proofs.BigMap.LiveRecords
import Mathlib.Data.List.Forall2

/-!
# What a copy leaves of its destination

A copy gives its destination the live records of the source, but takes nothing away. What the
destination was given before in the group stays live unless the source has the same key
(`mem_live_copy`). So a copy replaces a temporary destination exactly when all keys that were live
there are live at the source (`copy_replaces_iff`), in particular when the destination is new.
-/

namespace Lineage

namespace Resolver

open Resolve

/-- Records as a copy hands them on to a pointer, in any order. -/
def HandedOn (ctx : Context) (d : Int) (rows after : List Diff) : Prop :=
  ∃ copies, List.Forall₂ (fun row copy => ∃ path id, copy = ctx.copied d path row id) rows copies ∧
    after.Perm copies

variable {live : LiveRecords} {settings : Settings} {ctx : Context} {r r' : Resolver}
  {out : Resolution} {s d : Int} {n : Nat} {path : String} {rows after : List Diff} {x : Diff}

lemma HandedOn.length_eq (h : HandedOn ctx d rows after) : after.length = rows.length := by
  obtain ⟨copies, hall, hperm⟩ := h
  rw [hperm.length_eq, hall.length_eq]

lemma HandedOn.keyHash_mem (h : HandedOn ctx d rows after) (hx : x ∈ after) :
    x.keyHash ∈ rows.map Diff.keyHash := by
  obtain ⟨copies, hall, hperm⟩ := h
  have hkeys : rows.map Diff.keyHash = copies.map Diff.keyHash := by
    refine List.forall₂_eq_eq_eq ▸ ?_
    rw [List.forall₂_map_left_iff, List.forall₂_map_right_iff]
    refine hall.imp ?_
    rintro row _ ⟨path, id, rfl⟩
    rfl
  rw [hkeys]
  exact List.mem_map_of_mem (hperm.mem_iff.1 hx)

/-! ### The copies -/

lemma forall₂_numbered {R : Diff → Diff → Prop} {make : Diff → Nat → Diff}
    (h : ∀ row i, R row (make row i)) : List.Forall₂ R rows (numbered make n rows) := by
  induction rows generalizing n with
  | nil => exact .nil
  | cons row rows ih => exact .cons (h row _) ih

lemma forall₂_copiesOf :
    List.Forall₂ (fun row copy => ∃ path id, copy = ctx.copied d path row id) rows
      (copiesOf ctx d path n rows) :=
  forall₂_numbered fun _ _ => ⟨path, _, rfl⟩

lemma keyHash_copiesOf :
    (copiesOf ctx d path n rows).map Diff.keyHash = rows.map Diff.keyHash := by
  unfold copiesOf
  induction rows generalizing n with
  | nil => rfl
  | cons row rows ih =>
    rw [numbered_cons, List.map_cons, List.map_cons, ih]
    rfl

lemma isRemoved_of_mem_copiesOf (hrows : ∀ row ∈ rows, row.isRemoved = false)
    (hx : x ∈ copiesOf ctx d path n rows) : x.isRemoved = false := by
  obtain ⟨row, hrow, i, rfl⟩ := mem_numbered hx
  exact hrows row hrow

/-- Copies of live records that are given to a pointer are live there, and of the other records
those of other keys stay live. -/
lemma mem_overlaid_copies {held : List Diff} (hnodup : (rows.map Diff.keyHash).Nodup)
    (hrows : ∀ row ∈ rows, row.isRemoved = false) :
    x ∈ overlaid (held ++ copiesOf ctx d path n rows) ↔
      x ∈ copiesOf ctx d path n rows ∨ x ∈ overlaid held ∧ x.keyHash ∉ rows.map Diff.keyHash := by
  have hkeys : (∀ e ∈ copiesOf ctx d path n rows, e.keyHash ≠ x.keyHash) ↔
      x.keyHash ∉ (copiesOf ctx d path n rows).map Diff.keyHash := by
    rw [List.mem_map, not_exists]
    exact forall_congr' fun e => not_and.symm
  rw [mem_overlaid, mem_overlaid, isLast_append, hkeys, keyHash_copiesOf,
    isLast_iff_mem (keyHash_copiesOf.symm ▸ hnodup)]
  constructor
  · rintro ⟨hx | ⟨hx, hk⟩, hlive⟩
    · exact .inl hx
    · exact .inr ⟨⟨hx, hlive⟩, hk⟩
  · rintro (hx | ⟨⟨hx, hlive⟩, hk⟩)
    · exact ⟨.inl hx, isRemoved_of_mem_copiesOf hrows hx⟩
    · exact ⟨.inr ⟨hx, hk⟩, hlive⟩

/-! ### After a copy -/

lemma liveRecords_of_neg {a : Arena} (hd : d < 0) :
    liveRecords live ctx a d = .ok rows ↔
      (a.records? d).isSome ∧ rows = overlaid (a.pending d) := by
  have hd' : ¬ 0 ≤ d := Int.not_le.2 hd
  rw [liveRecords_ok]
  unfold Persisted
  simp only [if_neg hd']
  constructor
  · rintro ⟨held, ⟨rfl, hs⟩, rfl⟩
    exact ⟨hs, rfl⟩
  · rintro ⟨hs, rfl⟩
    exact ⟨[], ⟨rfl, hs⟩, rfl⟩

lemma liveRecords_copied {a : Arena} (ha : a.Wf) (hd : d < 0) (link : Link) (copies : List Diff) :
    liveRecords live ctx (((a.setLink d link).touch d).pushAll d copies) d =
      .ok (overlaid (a.pending d ++ copies)) := by
  have hl := ha.setLink d link
  rw [liveRecords_of_neg hd, pending_copied ha, Function.update_self]
  exact ⟨Arena.isSome_records?_pushAll (hl.touch d) (Arena.isSome_records?_touch hl d) copies, rfl⟩

lemma liveRecords_of_mem_overlaid {a : Arena} (hd : d < 0) (hx : x ∈ overlaid (a.pending d)) :
    liveRecords live ctx a d = .ok (overlaid (a.pending d)) := by
  rw [liveRecords_of_neg hd]
  refine ⟨?_, rfl⟩
  cases hs : a.records? d with
  | some rows => rfl
  | none =>
    unfold Arena.pending at hx
    rw [hs] at hx
    cases hx

/-- What is live at a temporary pointer after a copy: copies of what is live at the source, and what
was live before of other keys. -/
theorem live_copy (hr : Reachable settings r) (hd : d < 0)
    (h : (copy live settings ctx s d).exec r = (.ok out, r')) :
    ∃ rows after, liveRecords live ctx r.arena s = .ok rows ∧
      liveRecords live ctx r'.arena d = .ok after ∧ (after.map Diff.keyHash).Nodup ∧
      ∃ copies, HandedOn ctx d rows copies ∧ (copies.map Diff.keyHash).Nodup ∧
        ∀ x, x ∈ after ↔ x ∈ copies ∨
          x ∈ overlaid (r.arena.pending d) ∧ x.keyHash ∉ rows.map Diff.keyHash := by
  obtain ⟨actions, rows, link, -, hrows, -, -, rfl⟩ := copy_ok h
  obtain ⟨held, -, rfl⟩ := liveRecords_ok.1 hrows
  have hnodup := nodup_overlaid (held ++ r.arena.pending s)
  have hlive : ∀ row ∈ overlaid (held ++ r.arena.pending s), row.isRemoved = false :=
    fun row hrow => (mem_overlaid.1 hrow).2
  exact ⟨_, _, hrows, liveRecords_copied hr.wf hd link _, nodup_overlaid _, _,
    ⟨_, forall₂_copiesOf, .refl _⟩, keyHash_copiesOf.symm ▸ hnodup,
    fun x => mem_overlaid_copies hnodup hlive⟩

/-- **When a copy replaces its destination**: the live records of a temporary pointer are after a
copy just those that were live at the source, if and only if no other keys were live at the pointer
before. -/
theorem copy_replaces_iff (hr : Reachable settings r) (hd : d < 0)
    (h : (copy live settings ctx s d).exec r = (.ok out, r')) :
    ∃ rows after, liveRecords live ctx r.arena s = .ok rows ∧
      liveRecords live ctx r'.arena d = .ok after ∧
      (HandedOn ctx d rows after ↔
        ∀ before, liveRecords live ctx r.arena d = .ok before →
          ∀ x ∈ before, x.keyHash ∈ rows.map Diff.keyHash) := by
  obtain ⟨rows, after, hrows, hafter, hnodup, copies, hcopies, hnodup', hmem⟩ := live_copy hr hd h
  refine ⟨rows, after, hrows, hafter, fun hreplaced before hbefore x hx => ?_, fun hkeys => ?_⟩
  · by_contra hk
    obtain ⟨-, rfl⟩ := (liveRecords_of_neg hd).1 hbefore
    exact hk (hreplaced.keyHash_mem ((hmem x).2 (.inr ⟨hx, hk⟩)))
  · obtain ⟨copies', hall, hperm⟩ := hcopies
    refine ⟨copies', hall, .trans ?_ hperm⟩
    refine (List.perm_ext_iff_of_nodup (.of_map _ hnodup) (.of_map _ hnodup')).2 fun x => ?_
    rw [hmem, or_iff_left]
    rintro ⟨hx, hk⟩
    exact hk (hkeys _ (liveRecords_of_mem_overlaid hd hx) x hx)

/-- Two new big maps with one key each. -/
def twoNewMaps : List LogEntry :=
  [.alloc (-1) (.prim "string" [] []) (.prim "nat" [] []),
    .update (-1) (.string "a") "exprA" (some (.int "1")),
    .alloc (-2) (.prim "string" [] []) (.prim "nat" [] []),
    .update (-2) (.string "b") "exprB" (some (.int "2"))]

def afterTwoNewMaps : Resolver :=
  ((resolve (Store.repository.live .empty) .default sampleContext twoNewMaps).exec .start).2

lemma reachable_afterTwoNewMaps : Reachable .default afterTwoNewMaps := .resolve _ _ _ .start

theorem copy_replaces_iff_twoNewMaps :
    ∃ out r', Reachable .default afterTwoNewMaps ∧ (-3 : Int) < 0 ∧
      (copy (Store.repository.live .empty) .default sampleContext (-2) (-3)).exec afterTwoNewMaps =
        (.ok out, r') ∧
      ∃ rows after,
        liveRecords (Store.repository.live .empty) sampleContext afterTwoNewMaps.arena (-2) =
          .ok rows ∧
        liveRecords (Store.repository.live .empty) sampleContext r'.arena (-3) = .ok after ∧
        (HandedOn sampleContext (-3) rows after ↔
          ∀ before,
            liveRecords (Store.repository.live .empty) sampleContext afterTwoNewMaps.arena (-3) =
              .ok before →
            ∀ x ∈ before, x.keyHash ∈ rows.map Diff.keyHash) := by
  have hok : ((copy (Store.repository.live .empty) .default sampleContext (-2) (-3)).exec
      afterTwoNewMaps).1.toOption.map (·.diffs.length) = some 0 := by decide +kernel
  obtain ⟨out, h, -⟩ := fst_ok_of_toOption_map hok
  exact ⟨out, _, reachable_afterTwoNewMaps, by decide, h,
    copy_replaces_iff reachable_afterTwoNewMaps (by decide) h⟩

/-- A copy does not always replace its destination: the key that the destination had stays. -/
theorem not_handedOn_of_copy :
    ¬ ∀ (live : LiveRecords) (settings : Settings) (ctx : Context) (s d : Int) (r r' : Resolver)
        (out : Resolution) (rows after : List Diff), Reachable settings r → d < 0 → s ≠ d →
        (copy live settings ctx s d).exec r = (.ok out, r') →
        liveRecords live ctx r.arena s = .ok rows → liveRecords live ctx r'.arena d = .ok after →
        HandedOn ctx d rows after := by
  intro hclaim
  let live := Store.repository.live .empty
  let result := (copy live .default sampleContext (-2) (-1)).exec afterTwoNewMaps
  have hok : result.1.toOption.map (·.diffs.length) = some 0 := by decide +kernel
  have hrows : (liveRecords live sampleContext afterTwoNewMaps.arena (-2)).toOption.map
      List.length = some 1 := by decide +kernel
  have hafter : (liveRecords live sampleContext result.2.arena (-1)).toOption.map
      List.length = some 2 := by decide +kernel
  obtain ⟨out, hout, -⟩ := fst_ok_of_toOption_map hok
  obtain ⟨rows, hrows, hone⟩ := ok_of_toOption_map hrows
  obtain ⟨after, hafter, htwo⟩ := ok_of_toOption_map hafter
  have hlength := (hclaim live .default sampleContext (-2) (-1) afterTwoNewMaps result.2 out rows
    after reachable_afterTwoNewMaps (by decide) (by decide) hout hrows hafter).length_eq
  omega

end Resolver

end Lineage
