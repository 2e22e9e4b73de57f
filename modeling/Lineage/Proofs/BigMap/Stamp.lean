import Mathlib.Data.List.Basic
import Mathlib.Algebra.Ring.Nat
import Lineage.Ledger.Store
import Lineage.Proofs.BigMap.Links

/-!
# The stamps of records

The identifier of a record is the digest of the bytes of a stamp. Within one context the bytes tell
the stamp (`Context.stamp_inj`): the ordinal and the pointer have eight bytes each, and the four
kinds of records begin with different letters.

The records that a log comes to have the identifiers of the stamps of its entries (`perm_ids_log`),
whose ordinals are different (`pairwise_keptStamps`).
-/

namespace Lineage

/-! ### Bytes -/

namespace Sha256

lemma length_bigEndian (n x : Nat) : (bigEndian n x).length = n := by
  induction n generalizing x with
  | zero => rfl
  | succ n ih => rw [bigEndian, List.length_append, ih, List.length_singleton]

/-- The bytes of a number tell the number, if they are enough for it. -/
theorem bigEndian_inj {n x y : Nat} (hx : x < 256 ^ n) (hy : y < 256 ^ n)
    (h : bigEndian n x = bigEndian n y) : x = y := by
  induction n generalizing x y with
  | zero => omega
  | succ n ih =>
    rw [bigEndian, bigEndian] at h
    obtain ⟨hhigh, hlow⟩ := List.append_inj' h rfl
    have hhigh : x / 256 = y / 256 := by
      rw [Nat.pow_succ] at hx hy
      exact ih (Nat.div_lt_of_lt_mul (by omega)) (Nat.div_lt_of_lt_mul (by omega)) hhigh
    have hlow : x % 256 = y % 256 := by
      have hbyte := congrArg UInt8.toNat (List.cons.inj hlow).1
      simpa using hbyte
    omega

end Sha256

lemma length_word (n : Int) : (word n).length = 8 := Sha256.length_bigEndian 8 _

/-- Eight bytes tell an integer but for multiples of the number of words. -/
theorem word_inj {m n : Int} (h : word m = word n) :
    m % Decimal.wordCount = n % Decimal.wordCount := by
  have hlt : ∀ k : Int, (k % Decimal.wordCount).toNat < 256 ^ 8 := by
    intro k
    unfold Decimal.wordCount
    omega
  have hnat := Sha256.bigEndian_inj (hlt m) (hlt n) h
  unfold Decimal.wordCount at *
  omega

lemma word_inj_of_fits {m n : Int} (hm : Decimal.FitsInt64 m) (hn : Decimal.FitsInt64 n)
    (h : word m = word n) : m = n := by
  have hmod := word_inj h
  unfold Decimal.FitsInt64 Decimal.wordCount at *
  omega

lemma utf8_inj {s t : String} (h : utf8 s = utf8 t) : s = t := by
  unfold utf8 at h
  exact String.toByteArray_inj.1 (ByteArray.ext (Array.toList_inj.1 h))

namespace Hex

lemma digitChar_inj : ∀ m < 16, ∀ n < 16, digitChar m = digitChar n → m = n := by decide

lemma encodeByte_inj {a b : UInt8} (h : encodeByte a = encodeByte b) : a = b := by
  obtain ⟨hhigh, hlow⟩ : digitChar (a.toNat / 16) = digitChar (b.toNat / 16) ∧
      digitChar (a.toNat % 16) = digitChar (b.toNat % 16) := by
    simpa [encodeByte] using h
  have ha := a.toNat_lt
  have hb := b.toNat_lt
  have hhigh := digitChar_inj _ (by omega) _ (by omega) hhigh
  have hlow := digitChar_inj _ (by omega) _ (by omega) hlow
  exact UInt8.toNat_inj.1 (by omega)

/-- The digits of bytes tell the bytes. -/
theorem encode_inj {xs ys : List UInt8} (h : encode xs = encode ys) : xs = ys := by
  have hchars : xs.flatMap encodeByte = ys.flatMap encodeByte := String.ofList_injective h
  clear h
  induction xs generalizing ys with
  | nil =>
    cases ys with
    | nil => rfl
    | cons y ys => cases hchars
  | cons x xs ih =>
    cases ys with
    | nil => cases hchars
    | cons y ys =>
      rw [List.flatMap_cons, List.flatMap_cons] at hchars
      obtain ⟨hx, hxs⟩ := List.append_inj hchars rfl
      rw [encodeByte_inj hx, ih hxs]

end Hex

/-! ### Stamps in sequence -/

/-- The ordinals of stamps are the numbers after `n` in turn. -/
def Numbered (n : Nat) (stamps : List Stamp) : Prop :=
  stamps.map Stamp.ordinal = List.range' (n + 1) stamps.length

namespace Numbered

variable {n : Nat} {stamps s t : List Stamp} {x : Stamp}

lemma singleton (h : x.ordinal = n + 1) : Numbered n [x] := congrArg ([·]) h

lemma append (hs : Numbered n s) (ht : Numbered (n + s.length) t) : Numbered n (s ++ t) := by
  unfold Numbered at *
  rw [List.map_append, hs, ht, List.length_append, Nat.add_right_comm, List.range'_append_1]

lemma ordinal_bounds (h : Numbered n stamps) (hx : x ∈ stamps) :
    n < x.ordinal ∧ x.ordinal ≤ n + stamps.length := by
  have hmem := List.mem_map_of_mem (f := Stamp.ordinal) hx
  rw [h, List.mem_range'_1] at hmem
  omega

lemma pairwise_lt (h : Numbered n stamps) : stamps.Pairwise (·.ordinal < ·.ordinal) := by
  rw [← List.pairwise_map (f := Stamp.ordinal) (R := (· < ·)), h]
  exact List.pairwise_lt_range'

end Numbered

/-! ### The stamps of a context -/

def recordKinds : List String := ["alloc", "copy", "update", "remove"]

lemma utf8_kind_ne_nil : ∀ kind ∈ recordKinds, utf8 kind ≠ [] := by decide

lemma head?_utf8_kind : ∀ kind ∈ recordKinds, ∀ kind' ∈ recordKinds,
    (utf8 kind).head? = (utf8 kind').head? → kind = kind' := by decide

lemma kind_of_append_eq {kind kind' : String} {xs ys : List UInt8} (hk : kind ∈ recordKinds)
    (hk' : kind' ∈ recordKinds) (h : utf8 kind ++ xs = utf8 kind' ++ ys) : kind = kind' := by
  refine head?_utf8_kind kind hk kind' hk' ?_
  have hhead := congrArg List.head? h
  rwa [List.head?_append_of_ne_nil _ (utf8_kind_ne_nil kind hk),
    List.head?_append_of_ne_nil _ (utf8_kind_ne_nil kind' hk')] at hhead

namespace Stamp

def afterAddress (x : Stamp) : List UInt8 :=
  utf8 x.kind ++ (word x.pointer ++ (utf8 x.keyHash ++ word x.ordinal))

/-- Behind the address all parts are told by the bytes: the kind by its first letter, the pointer
and the ordinal by their lengths. -/
lemma afterAddress_inj {x y : Stamp} (hk : x.kind ∈ recordKinds) (hk' : y.kind ∈ recordKinds)
    (hp : Decimal.FitsInt64 x.pointer) (hp' : Decimal.FitsInt64 y.pointer)
    (hn : x.ordinal < Decimal.wordCount) (hn' : y.ordinal < Decimal.wordCount)
    (h : x.afterAddress = y.afterAddress) :
    x.kind = y.kind ∧ x.pointer = y.pointer ∧ x.keyHash = y.keyHash ∧ x.ordinal = y.ordinal := by
  have hkind := kind_of_append_eq hk hk' h
  unfold afterAddress at h
  rw [hkind, List.append_cancel_left_eq] at h
  obtain ⟨hpointer, h⟩ := List.append_inj h ((length_word _).trans (length_word _).symm)
  obtain ⟨hkey, hordinal⟩ := List.append_inj' h ((length_word _).trans (length_word _).symm)
  have hordinal := word_inj hordinal
  unfold Decimal.wordCount at *
  exact ⟨hkind, word_inj_of_fits hp hp' hpointer, utf8_inj hkey, by omega⟩

end Stamp

/-- **The bytes of a stamp tell the stamp**, within a context and within the 64-bit ranges. -/
theorem Context.stamp_inj {ctx : Context} {kind kind' keyHash keyHash' : String} {p p' : Int}
    {n n' : Nat} (hk : kind ∈ recordKinds) (hk' : kind' ∈ recordKinds)
    (hp : Decimal.FitsInt64 p) (hp' : Decimal.FitsInt64 p') (hn : n < Decimal.wordCount)
    (hn' : n' < Decimal.wordCount)
    (h : (ctx.stamp kind p keyHash n).bytes = (ctx.stamp kind' p' keyHash' n').bytes) :
    ctx.stamp kind p keyHash n = ctx.stamp kind' p' keyHash' n' := by
  -- the bytes begin with the parts of the context
  unfold Context.stamp Stamp.bytes at h
  simp only [List.append_assoc, List.append_cancel_left_eq] at h
  obtain ⟨rfl, rfl, rfl, rfl⟩ := Stamp.afterAddress_inj (x := ctx.stamp kind p keyHash n)
    (y := ctx.stamp kind' p' keyHash' n') hk hk' hp hp' hn hn' h
  rfl

/-- The digest tells the bytes of these stamps apart. -/
def CollisionFree (stamps : List Stamp) : Prop :=
  ∀ x ∈ stamps, ∀ y ∈ stamps, Sha256.digest x.bytes = Sha256.digest y.bytes → x.bytes = y.bytes

instance (stamps : List Stamp) : Decidable (CollisionFree stamps) := by
  unfold CollisionFree
  infer_instance

namespace Resolver

open Resolve

variable {live : LiveRecords} {settings : Settings} {ctx : Context} {r r' : Resolver}
  {out : Resolution} {e : LogEntry} {log : List LogEntry} {x : Stamp}

/-! ### The stamps of entries -/

/-- The live records of a pointer, if there are any. -/
def rowsOf (live : LiveRecords) (ctx : Context) (a : Arena) (p : Int) : List Diff :=
  (liveRecords live ctx a p).toOption.getD []

lemma rowsOf_eq {a : Arena} {p : Int} {rows : List Diff} (h : liveRecords live ctx a p = .ok rows) :
    rowsOf live ctx a p = rows := by
  unfold rowsOf
  rw [h]
  rfl

/-- The stamps of the records that an entry comes to. -/
def stampsOf (live : LiveRecords) (ctx : Context) (r : Resolver) : LogEntry → List Stamp
  | .alloc p _ _ => if 0 ≤ p then [ctx.stamp "alloc" p "" (r.ordinal + 1)] else []
  | .update p _ keyHash _ => if 0 ≤ p then [ctx.stamp "update" p keyHash (r.ordinal + 1)] else []
  | .copy s d =>
    if 0 ≤ d then
      ctx.stamp "copy" d "" (r.ordinal + 1) ::
        numbered (fun row n => ctx.stamp "copy" d row.keyHash n) (r.ordinal + 1)
          (rowsOf live ctx r.arena s)
    else []
  | .remove p =>
    if 0 ≤ p then
      numbered (fun row n => ctx.stamp "remove" p row.keyHash n) r.ordinal
          (rowsOf live ctx r.arena p) ++
        [ctx.stamp "remove" p "" (r.ordinal + (rowsOf live ctx r.arena p).length + 1)]
    else []

/-- The stamps of the records that a log comes to. -/
def keptStamps (live : LiveRecords) (settings : Settings) (ctx : Context) :
    List LogEntry → Resolver → List Stamp
  | [], _ => []
  | e :: log, r =>
    stampsOf live ctx r e ++ keptStamps live settings ctx log ((entry live settings ctx e).exec r).2

/-- An entry comes to records with the identifiers of its stamps. -/
theorem perm_ids_entry (hr : r.arena.Wf) (h : (entry live settings ctx e).exec r = (.ok out, r')) :
    (out.diffs.map Diff.id ++ out.actions.map Action.id).Perm
      ((stampsOf live ctx r e).map Stamp.id) := by
  cases e with
  | alloc p keyType valueType =>
    obtain ⟨key, value, -, -, rfl, rfl⟩ := alloc_ok h
    rw [stampsOf]
    split <;> exact .refl _
  | update p key keyHash value =>
    obtain ⟨q, types, entry, -, -, -, rfl, rfl⟩ := update_ok hr h
    have hkept : (kept (updateOf ctx p (pathOf? ctx r.arena q) keyHash entry (r.ordinal + 1))) =
        if 0 ≤ p then .ofDiff (updateOf ctx p _ keyHash entry (r.ordinal + 1)) else .empty := rfl
    rw [stampsOf, hkept]
    split <;> exact .refl _
  | copy s d =>
    obtain ⟨actions, rows, link, hactions, hrows, -, rfl, rfl⟩ := copy_ok h
    unfold CopyActions at hactions
    by_cases hd : 0 ≤ d
    · rw [if_pos hd] at hactions
      obtain ⟨origin, -, rfl⟩ := hactions
      rw [stampsOf, if_pos hd, if_pos hd, rowsOf_eq hrows, copiesOf, map_numbered,
        List.map_cons (f := Stamp.id), map_numbered]
      exact List.perm_append_singleton _ _
    · rw [if_neg hd] at hactions
      subst hactions
      rw [stampsOf, if_neg hd, if_neg hd]
      exact .refl _
  | remove p =>
    by_cases hp : 0 ≤ p
    · obtain ⟨rows, hrows, rfl, rfl⟩ := remove_ok hp h
      rw [stampsOf, if_pos hp, rowsOf_eq hrows, deletionsOf, map_numbered, List.map_append,
        map_numbered]
      exact .refl _
    · cases (remove_of_neg (Int.not_le.1 hp)).symm.trans h
      rw [stampsOf, if_neg hp]
      exact .refl _

lemma numbered_series (make : Diff → Nat → Stamp) (hmake : ∀ row i, (make row i).ordinal = i)
    (n : Nat) (rows : List Diff) : Numbered n (numbered make n rows) := by
  induction rows generalizing n with
  | nil => rfl
  | cons row rows ih => exact (Numbered.singleton (hmake row (n + 1))).append (ih (n + 1))

/-- The stamps of an entry are in sequence, and none of their ordinals is used again. -/
theorem numbered_entry (hr : r.arena.Wf) (h : (entry live settings ctx e).exec r = (.ok out, r')) :
    Numbered r.ordinal (stampsOf live ctx r e) ∧
      r.ordinal + (stampsOf live ctx r e).length ≤ r'.ordinal := by
  cases e with
  | alloc p keyType valueType =>
    obtain ⟨key, value, -, -, -, rfl⟩ := alloc_ok h
    rw [stampsOf]
    split <;> exact ⟨rfl, Nat.le_refl _⟩
  | update p key keyHash value =>
    obtain ⟨q, types, entry, -, -, -, -, rfl⟩ := update_ok hr h
    rw [stampsOf]
    split
    · exact ⟨rfl, Nat.le_refl _⟩
    · exact ⟨rfl, Nat.le_succ _⟩
  | copy s d =>
    obtain ⟨actions, rows, link, hactions, hrows, -, -, rfl⟩ := copy_ok h
    unfold CopyActions at hactions
    by_cases hd : 0 ≤ d
    · rw [if_pos hd] at hactions
      obtain ⟨origin, -, rfl⟩ := hactions
      rw [stampsOf, if_pos hd, rowsOf_eq hrows]
      constructor
      · have haction : Numbered r.ordinal [ctx.stamp "copy" d "" (r.ordinal + 1)] := .singleton rfl
        exact haction.append (numbered_series (fun row n => ctx.stamp "copy" d row.keyHash n)
          (fun _ _ => rfl) (r.ordinal + 1) rows)
      · rw [List.length_cons, length_numbered]
        dsimp only [List.length_singleton]
        omega
    · rw [stampsOf, if_neg hd]
      refine ⟨rfl, ?_⟩
      dsimp only [List.length_nil]
      omega
  | remove p =>
    by_cases hp : 0 ≤ p
    · obtain ⟨rows, hrows, -, rfl⟩ := remove_ok hp h
      rw [stampsOf, if_pos hp, rowsOf_eq hrows]
      constructor
      · refine (numbered_series _ (fun _ _ => rfl) _ rows).append (Numbered.singleton ?_)
        rw [length_numbered]
        rfl
      · rw [List.length_append, length_numbered]
        exact Nat.le_refl _
    · cases (remove_of_neg (Int.not_le.1 hp)).symm.trans h
      rw [stampsOf, if_neg hp]
      exact ⟨rfl, Nat.le_refl _⟩

lemma mem_stampsOf (hx : x ∈ stampsOf live ctx r e) :
    ∃ kind ∈ recordKinds, ∃ p ∈ e.pointers, ∃ keyHash n, x = ctx.stamp kind p keyHash n := by
  cases e with
  | alloc p keyType valueType =>
    rw [stampsOf] at hx
    split at hx
    · exact ⟨"alloc", by decide, p, by simp [LogEntry.pointers], _, _, List.mem_singleton.1 hx⟩
    · cases hx
  | update p key keyHash value =>
    rw [stampsOf] at hx
    split at hx
    · exact ⟨"update", by decide, p, by simp [LogEntry.pointers], _, _, List.mem_singleton.1 hx⟩
    · cases hx
  | copy s d =>
    rw [stampsOf] at hx
    split at hx
    · refine ⟨"copy", by decide, d, by simp [LogEntry.pointers], ?_⟩
      rcases List.mem_cons.1 hx with hx | hx
      · exact ⟨_, _, hx⟩
      · obtain ⟨row, -, i, rfl⟩ := mem_numbered hx
        exact ⟨_, _, rfl⟩
    · cases hx
  | remove p =>
    rw [stampsOf] at hx
    split at hx
    · refine ⟨"remove", by decide, p, by simp [LogEntry.pointers], ?_⟩
      rcases List.mem_append.1 hx with hx | hx
      · obtain ⟨row, -, i, rfl⟩ := mem_numbered hx
        exact ⟨_, _, rfl⟩
      · exact ⟨_, _, List.mem_singleton.1 hx⟩
    · cases hx

/-! ### The stamps of logs -/

lemma perm_ids_append (o₁ o₂ : Resolution) :
    ((o₁ ++ o₂).diffs.map Diff.id ++ (o₁ ++ o₂).actions.map Action.id).Perm
      (o₁.diffs.map Diff.id ++ o₁.actions.map Action.id ++
        (o₂.diffs.map Diff.id ++ o₂.actions.map Action.id)) := by
  rw [Resolution.diffs_append, Resolution.actions_append, List.map_append, List.map_append]
  simp only [List.append_assoc]
  refine List.Perm.append_left _ ?_
  simp only [← List.append_assoc]
  exact List.perm_append_comm.append_right _

/-- A log comes to records with the identifiers of its stamps. -/
theorem perm_ids_log (hr : r.arena.Wf)
    (h : (resolve live settings ctx log).exec r = (.ok out, r')) :
    (out.diffs.map Diff.id ++ out.actions.map Action.id).Perm
      ((keptStamps live settings ctx log r).map Stamp.id) := by
  induction log generalizing r out with
  | nil =>
    obtain ⟨rfl, -⟩ := forEach_nil_ok.1 h
    exact .refl _
  | cons e log ih =>
    obtain ⟨o₁, r₁, o₂, h₁, h₂, rfl⟩ := forEach_cons_ok.1 h
    rw [keptStamps, h₁, List.map_append]
    exact (perm_ids_append o₁ o₂).trans
      ((perm_ids_entry hr h₁).append (ih (wf_of_entry_ok hr h₁) h₂))

/-- The ordinals of the stamps of a log grow. -/
theorem pairwise_keptStamps (hr : r.arena.Wf)
    (h : (resolve live settings ctx log).exec r = (.ok out, r')) :
    (keptStamps live settings ctx log r).Pairwise (·.ordinal < ·.ordinal) ∧
      (∀ x ∈ keptStamps live settings ctx log r, r.ordinal < x.ordinal ∧ x.ordinal ≤ r'.ordinal) ∧
      r.ordinal ≤ r'.ordinal := by
  induction log generalizing r out with
  | nil =>
    obtain ⟨-, rfl⟩ := forEach_nil_ok.1 h
    refine ⟨.nil, fun x hx => ?_, Nat.le_refl _⟩
    cases hx
  | cons e log ih =>
    obtain ⟨o₁, r₁, o₂, h₁, h₂, rfl⟩ := forEach_cons_ok.1 h
    obtain ⟨hseq, hle⟩ := numbered_entry hr h₁
    obtain ⟨hpairwise, hrange, hle'⟩ := ih (wf_of_entry_ok hr h₁) h₂
    have hfirst : ∀ x ∈ stampsOf live ctx r e, r.ordinal < x.ordinal ∧ x.ordinal ≤ r₁.ordinal := by
      intro x hx
      have hbounds := hseq.ordinal_bounds hx
      omega
    rw [keptStamps, h₁]
    refine ⟨List.pairwise_append.2 ⟨hseq.pairwise_lt, hpairwise, fun x hx y hy => ?_⟩, fun x hx => ?_,
      by omega⟩
    · have := (hfirst x hx).2
      have := (hrange y hy).1
      omega
    · rcases List.mem_append.1 hx with hx | hx
      · have := hfirst x hx
        omega
      · have := hrange x hx
        omega

lemma mem_keptStamps (hx : x ∈ keptStamps live settings ctx log r) :
    ∃ kind ∈ recordKinds, ∃ e ∈ log, ∃ p ∈ e.pointers, ∃ keyHash n,
      x = ctx.stamp kind p keyHash n := by
  induction log generalizing r with
  | nil => cases hx
  | cons e log ih =>
    rcases List.mem_append.1 hx with hx | hx
    · obtain ⟨kind, hk, p, hp, hs⟩ := mem_stampsOf hx
      exact ⟨kind, hk, e, List.mem_cons_self, p, hp, hs⟩
    · obtain ⟨kind, hk, f, hf, hs⟩ := ih hx
      exact ⟨kind, hk, f, List.mem_cons_of_mem _ hf, hs⟩

end Resolver

end Lineage
