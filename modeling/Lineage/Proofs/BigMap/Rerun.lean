import Lineage.BigMap.Persistence
import Lineage.Proofs.BigMap.Stamp
import Lineage.Proofs.Ledger.Contents

/-!
# Resolving a log again

A group that is resolved again after its records were written should be refused, as its records get
the same identifiers again. They do as far as the entries count the same ordinals. But a copy and a
removal count the live records of a big map, and these may have been changed by the first run, so
that all identifiers after them are new. `persist_again_iff` says when the second run is refused:
exactly when one of its records has the stamp of a record of the first run, or an identifier that
was in the store before. It is always refused if no entry asks for what the store has of a big map
(`persist_again_of_asksNothing`).
-/

namespace Lineage

open Resolver Resolve

variable {s s' : Store} {settings : Settings} {ctx : Context} {log : List LogEntry}
  {r r' : Resolver} {out out' : Resolution}

/-! ### What is persisted -/

namespace Store

def idsOf (out : Resolution) : List String := Staged.ids ⟨out.diffs, out.actions⟩

lemma persist_eq (out : Resolution) (s : Store) :
    repository.persist out s =
      if out.isEmpty then (.ok (), s) else commit ⟨out.diffs, out.actions⟩ s := rfl

lemma idsOf_eq_nil_iff : idsOf out = [] ↔ out.isEmpty := by
  unfold idsOf Staged.ids Resolution.isEmpty
  simp

/-- The identifiers of what is persisted are known from then on. -/
theorem ids_of_persist_ok (h : repository.persist out s = (.ok (), s')) :
    s'.ids = s.ids ++ idsOf out := by
  rw [persist_eq] at h
  split at h
  · next he =>
    rw [idsOf_eq_nil_iff.2 he, List.append_nil]
    exact congrArg ids (Prod.mk.inj h).2.symm
  · obtain ⟨-, rfl⟩ := commit_ok h
    rfl

/-- Records are refused as duplicates if their identifiers are not different and new. -/
theorem persist_duplicate_iff :
    (∃ id, repository.persist out s = (.error (.duplicate id), s)) ↔
      ¬ ((idsOf out).Nodup ∧ ∀ id ∈ idsOf out, id ∉ s.ids) := by
  rw [persist_eq]
  split
  · next he =>
    rw [idsOf_eq_nil_iff.2 he]
    simp
  · rw [← firstClash?_eq_none_iff]
    unfold commit idsOf
    cases firstClash? s.ids (Staged.ids ⟨out.diffs, out.actions⟩) <;> simp

end Store

/-! ### The second run -/

/-- Stamps of runs of a log are told by the identifiers, unless the digest fails to. -/
lemma stamp_eq_of_id_eq {live live' : LiveRecords} {stamps : List Stamp} {x y : Stamp}
    (hfits : ∀ e ∈ log, ∀ p ∈ e.pointers, Decimal.FitsInt64 p) (hfree : CollisionFree stamps)
    (hx : x ∈ keptStamps live settings ctx log .start ∧ x.ordinal < Decimal.wordCount ∧ x ∈ stamps)
    (hy : y ∈ keptStamps live' settings ctx log .start ∧ y.ordinal < Decimal.wordCount ∧ y ∈ stamps)
    (h : x.id = y.id) : x = y := by
  have hbytes := hfree x hx.2.2 y hy.2.2 (Hex.encode_inj h)
  obtain ⟨kind, hk, e, he, p, hp, keyHash, n, rfl⟩ := mem_keptStamps hx.1
  obtain ⟨kind', hk', e', he', p', hp', keyHash', n', rfl⟩ := mem_keptStamps hy.1
  exact Context.stamp_inj hk hk' (hfits e he p hp) (hfits e' he' p' hp') hx.2.1 hy.2.1 hbytes

/-- **When a log is refused the second time**: a log whose records were written is refused as a
duplicate, without any change, if and only if resolving it again makes a record with a stamp of the
first time, or one with an identifier that the store had before. -/
theorem persist_again_iff
    (h₁ : (resolve (Store.repository.live s) settings ctx log).exec .start = (.ok out, r))
    (hp : Store.repository.persist out s = (.ok (), s'))
    (h₂ : (resolve (Store.repository.live s') settings ctx log).exec .start = (.ok out', r'))
    (hfits : ∀ e ∈ log, ∀ p ∈ e.pointers, Decimal.FitsInt64 p)
    (hn : r.ordinal < Decimal.wordCount) (hn' : r'.ordinal < Decimal.wordCount)
    (hfree : CollisionFree (keptStamps (Store.repository.live s) settings ctx log .start ++
      keptStamps (Store.repository.live s') settings ctx log .start)) :
    (∃ id, Store.repository.persist out' s' = (.error (.duplicate id), s')) ↔
      ∃ x ∈ keptStamps (Store.repository.live s') settings ctx log .start,
        x ∈ keptStamps (Store.repository.live s) settings ctx log .start ∨ x.id ∈ s.ids := by
  have hwf : Resolver.start.arena.Wf := Arena.wf_empty
  have hperm₁ : (Store.idsOf out).Perm _ := perm_ids_log hwf h₁
  have hperm₂ : (Store.idsOf out').Perm _ := perm_ids_log hwf h₂
  obtain ⟨-, hrange₁, -⟩ := pairwise_keptStamps hwf h₁
  obtain ⟨hpairwise, hrange₂, -⟩ := pairwise_keptStamps hwf h₂
  have hlt₁ : ∀ x ∈ keptStamps (Store.repository.live s) settings ctx log .start,
      x.ordinal < Decimal.wordCount := fun x hx => Nat.lt_of_le_of_lt (hrange₁ x hx).2 hn
  have hlt₂ : ∀ x ∈ keptStamps (Store.repository.live s') settings ctx log .start,
      x.ordinal < Decimal.wordCount := fun x hx => Nat.lt_of_le_of_lt (hrange₂ x hx).2 hn'
  -- by their ordinals the stamps of one run are different, and so are their identifiers
  have hnodup : (Store.idsOf out').Nodup := by
    refine hperm₂.nodup_iff.2 (List.Nodup.map_on (fun x hx y hy => ?_) (hpairwise.imp ?_))
    · exact stamp_eq_of_id_eq hfits hfree ⟨hx, hlt₂ x hx, List.mem_append_right _ hx⟩
        ⟨hy, hlt₂ y hy, List.mem_append_right _ hy⟩
    · rintro x y hxy rfl
      exact Nat.lt_irrefl _ hxy
  have hfirst : ∀ x ∈ keptStamps (Store.repository.live s') settings ctx log .start,
      x.id ∈ Store.idsOf out ↔
        x ∈ keptStamps (Store.repository.live s) settings ctx log .start := by
    intro x hx
    rw [hperm₁.mem_iff, List.mem_map]
    constructor
    · rintro ⟨y, hy, hid⟩
      have hyx := stamp_eq_of_id_eq hfits hfree ⟨hy, hlt₁ y hy, List.mem_append_left _ hy⟩
        ⟨hx, hlt₂ x hx, List.mem_append_right _ hx⟩ hid
      exact hyx ▸ hy
    · exact fun hx' => ⟨x, hx', rfl⟩
  rw [Store.persist_duplicate_iff, and_iff_right hnodup, Store.ids_of_persist_ok hp]
  push Not
  constructor
  · rintro ⟨id, hid, hmem⟩
    obtain ⟨x, hx, rfl⟩ := List.mem_map.1 (hperm₂.mem_iff.1 hid)
    exact ⟨x, hx, (List.mem_append.1 hmem).symm.imp_left (hfirst x hx).1⟩
  · rintro ⟨x, hx, hmem⟩
    refine ⟨x.id, hperm₂.mem_iff.2 (List.mem_map_of_mem hx), List.mem_append.2 ?_⟩
    exact hmem.symm.imp_right (hfirst x hx).2

def contextOfSeven : Context := twoBigMapsContext [(7, "0/0")] "KT1"

/-- What a log of the contract comes to on a store, and the state after it. -/
def runOn (s : Store) (log : List LogEntry) : Except ResolveError Resolution × Resolver :=
  (resolve (Store.repository.live s) .default contextOfSeven log).exec .start

/-- The records that a log comes to on a store. -/
def recordsOn (s : Store) (log : List LogEntry) : Resolution :=
  (runOn s log).1.toOption.getD .empty

def after (s : Store) (log : List LogEntry) : Store :=
  (Store.repository.persist (recordsOn s log) s).2

/-- The stamps of the kept records that a log comes to on a store. -/
def stampsOn (s : Store) (log : List LogEntry) : List Stamp :=
  keptStamps (Store.repository.live s) .default contextOfSeven log .start

def newKey : List LogEntry := [.update 7 (.bytes "01") "exprA" (some (.int "1"))]

theorem persist_again_iff_newKey :
    ∃ r r', runOn .empty newKey = (.ok (recordsOn .empty newKey), r) ∧
      Store.repository.persist (recordsOn .empty newKey) .empty = (.ok (), after .empty newKey) ∧
      runOn (after .empty newKey) newKey = (.ok (recordsOn (after .empty newKey) newKey), r') ∧
      (∀ e ∈ newKey, ∀ p ∈ e.pointers, Decimal.FitsInt64 p) ∧
      r.ordinal < Decimal.wordCount ∧ r'.ordinal < Decimal.wordCount ∧
      CollisionFree (stampsOn .empty newKey ++ stampsOn (after .empty newKey) newKey) ∧
      ((∃ id, Store.repository.persist (recordsOn (after .empty newKey) newKey)
          (after .empty newKey) = (.error (.duplicate id), after .empty newKey)) ↔
        ∃ x ∈ stampsOn (after .empty newKey) newKey,
          x ∈ stampsOn .empty newKey ∨ x.id ∈ Store.empty.ids) := by
  have h₁ : (runOn .empty newKey).1 = .ok (recordsOn .empty newKey) := by decide +kernel
  have hp : (Store.repository.persist (recordsOn .empty newKey) .empty).1 = .ok () := by
    decide +kernel
  have h₂ : (runOn (after .empty newKey) newKey).1 =
      .ok (recordsOn (after .empty newKey) newKey) := by decide +kernel
  have hfits : ∀ e ∈ newKey, ∀ p ∈ e.pointers, Decimal.FitsInt64 p := by decide
  have hn : (runOn .empty newKey).2.ordinal < Decimal.wordCount := by decide +kernel
  have hn' : (runOn (after .empty newKey) newKey).2.ordinal < Decimal.wordCount := by
    decide +kernel
  have hfree : CollisionFree (stampsOn .empty newKey ++ stampsOn (after .empty newKey) newKey) := by
    decide +kernel
  exact ⟨_, _, Prod.ext h₁ rfl, Prod.ext hp rfl, Prod.ext h₂ rfl, hfits, hn, hn', hfree,
    persist_again_iff (Prod.ext h₁ rfl) (Prod.ext hp rfl) (Prod.ext h₂ rfl) hfits hn hn' hfree⟩

/-- A big map is copied to a temporary pointer, and gets a new key then. -/
def copyAndUpdate : List LogEntry :=
  [.copy 7 (-1), .update 7 (.bytes "01") "exprA" (some (.int "1"))]

/-- A log is not always refused the second time: when the big map that it copies had no keys before,
the copy of the key that the log then made counts an ordinal of its own the second time, so that
the update gets a new identifier. -/
theorem not_persist_again :
    ¬ ∀ (s s' : Store) (settings : Settings) (ctx : Context) (log : List LogEntry)
        (r r' : Resolver) (out out' : Resolution),
        (resolve (Store.repository.live s) settings ctx log).exec .start = (.ok out, r) →
        out.isEmpty = false → Store.repository.persist out s = (.ok (), s') →
        (resolve (Store.repository.live s') settings ctx log).exec .start = (.ok out', r') →
        CollisionFree (keptStamps (Store.repository.live s) settings ctx log .start ++
          keptStamps (Store.repository.live s') settings ctx log .start) →
        ∃ id, Store.repository.persist out' s' = (.error (.duplicate id), s') := by
  intro hclaim
  have h₁ : (runOn .empty copyAndUpdate).1 = .ok (recordsOn .empty copyAndUpdate) := by
    decide +kernel
  have hne : (recordsOn .empty copyAndUpdate).isEmpty = false := by decide +kernel
  have hp : (Store.repository.persist (recordsOn .empty copyAndUpdate) .empty).1 = .ok () := by
    decide +kernel
  have h₂ : (runOn (after .empty copyAndUpdate) copyAndUpdate).1 =
      .ok (recordsOn (after .empty copyAndUpdate) copyAndUpdate) := by decide +kernel
  have hfree : CollisionFree
      (stampsOn .empty copyAndUpdate ++ stampsOn (after .empty copyAndUpdate) copyAndUpdate) := by
    decide +kernel
  have hp' : (Store.repository.persist (recordsOn (after .empty copyAndUpdate) copyAndUpdate)
      (after .empty copyAndUpdate)).1 = .ok () := by decide +kernel
  obtain ⟨id, hid⟩ := hclaim .empty (after .empty copyAndUpdate) .default contextOfSeven
    copyAndUpdate _ _ _ _ (Prod.ext h₁ rfl) hne (Prod.ext hp rfl) (Prod.ext h₂ rfl) hfree
  rw [hid] at hp'
  cases hp'

/-! ### Logs that ask for nothing -/

/-- The entry does not ask for what the repository has of a big map. -/
def LogEntry.AsksNothing : LogEntry → Prop
  | .copy source _ => source < 0
  | .remove pointer => pointer < 0
  | _ => True

lemma liveRecords_congr_of_neg (live live' : LiveRecords) (a : Arena) {p : Int} (hp : p < 0) :
    liveRecords live ctx a p = liveRecords live' ctx a p := by
  unfold liveRecords
  rw [if_neg (Int.not_le.2 hp), if_neg (Int.not_le.2 hp)]

lemma entry_of_asksNothing (live live' : LiveRecords) {e : LogEntry} (h : e.AsksNothing) :
    entry live settings ctx e = entry live' settings ctx e := by
  cases e with
  | alloc _ _ _ | update _ _ _ _ => rfl
  | copy source destination =>
    unfold entry copy
    simp only [liveRecords_congr_of_neg live live' _ h]
  | remove pointer =>
    change remove live ctx pointer = remove live' ctx pointer
    have hp : pointer < 0 := h
    unfold remove
    rw [if_pos hp, if_pos hp]

lemma resolve_of_asksNothing (live live' : LiveRecords) (h : ∀ e ∈ log, e.AsksNothing) :
    resolve live settings ctx log = resolve live' settings ctx log := by
  unfold resolve
  induction log with
  | nil => rfl
  | cons e log ih =>
    obtain ⟨he, hlog⟩ := List.forall_mem_cons.1 h
    unfold forEach
    rw [entry_of_asksNothing live live' he, ih hlog]

/-- The records of a log that asks for nothing are the same the second time, and are refused. -/
theorem persist_again_of_asksNothing (hlog : ∀ e ∈ log, e.AsksNothing)
    (h₁ : (resolve (Store.repository.live s) settings ctx log).exec .start = (.ok out, r))
    (hne : out.isEmpty = false) (hp : Store.repository.persist out s = (.ok (), s')) :
    (resolve (Store.repository.live s') settings ctx log).exec .start = (.ok out, r) ∧
      ∃ id, Store.repository.persist out s' = (.error (.duplicate id), s') := by
  refine ⟨resolve_of_asksNothing _ _ hlog ▸ h₁, Store.persist_duplicate_iff.2 ?_⟩
  rintro ⟨-, hnew⟩
  have hids : Store.idsOf out ≠ [] := fun hnil => by
    rw [Store.idsOf_eq_nil_iff.1 hnil] at hne
    cases hne
  obtain ⟨id, hid⟩ := List.exists_mem_of_ne_nil _ hids
  refine hnew id hid ?_
  rw [Store.ids_of_persist_ok hp]
  exact List.mem_append_right _ hid

end Lineage
