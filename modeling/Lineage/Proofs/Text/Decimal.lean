import Mathlib.Tactic.Common
import Lineage.Text.Decimal

/-!
# Numerals of integers

The text that is written for an integer is read as this integer, if it fits 64 bits
(`parseInt64?_toString`).
-/

namespace Lineage.Decimal

variable {n : Nat} {p : Int} {s : String}

lemma int64?_eq_some_iff {q : Int} : int64? p = some q ↔ FitsInt64 p ∧ p = q := by
  unfold int64?
  split
  · next h => simp [h]
  · next h => simp [h]

lemma fits_of_parseInt64? (h : parseInt64? s = some p) : FitsInt64 p := by
  unfold parseInt64? at h
  split at h <;> rw [Option.ite_none_right_eq_some, int64?_eq_some_iff] at h <;>
    obtain ⟨-, hfits, rfl⟩ := h <;> exact hfits

/-! ### The digits of a number -/

lemma isDigits_toDigits (n : Nat) : isDigits (Nat.toDigits 10 n) = true := by
  unfold isDigits
  rw [Bool.and_eq_true, Bool.not_eq_true', List.isEmpty_eq_false_iff, List.all_eq_true]
  exact ⟨Nat.toDigits_ne_nil, fun c hc => Nat.isDigit_of_mem_toDigits (by decide) (by decide) hc⟩

lemma valueOf_toDigits (n : Nat) : valueOf (Nat.toDigits 10 n) = n := Nat.ofDigitChars_ten_toDigits

lemma parseInt64?_of_toList (h : s.toList = Nat.toDigits 10 n) :
    parseInt64? s = int64? n := by
  have hdigit : ∀ c ∈ s.toList, c.isDigit = true := by
    rw [h]
    exact fun c hc => Nat.isDigit_of_mem_toDigits (by decide) (by decide) hc
  unfold parseInt64?
  split
  · next cs hs =>
    rw [hs] at hdigit
    exact absurd (hdigit '-' List.mem_cons_self) (by decide)
  · next cs hs =>
    rw [hs] at hdigit
    exact absurd (hdigit '+' List.mem_cons_self) (by decide)
  · rw [h, isDigits_toDigits, valueOf_toDigits, if_pos rfl]

theorem parseInt64?_toString (p : Int) : parseInt64? (toString p) = int64? p := by
  rw [Int.toString_eq_repr, Int.repr_eq_if]
  split
  · next hnonneg => rw [parseInt64?_of_toList Nat.toList_repr, Int.toNat_of_nonneg hnonneg]
  · next hneg =>
    have hlist : ("-" ++ (-p).toNat.repr).toList = '-' :: Nat.toDigits 10 (-p).toNat := by
      rw [String.toList_append, Nat.toList_repr]
      rfl
    have hpos : 0 ≤ -p := by omega
    unfold parseInt64?
    rw [hlist]
    show (if isDigits (Nat.toDigits 10 (-p).toNat) then _ else _) = int64? p
    rw [isDigits_toDigits, if_pos rfl, valueOf_toDigits, Int.toNat_of_nonneg hpos, Int.neg_neg]

end Lineage.Decimal
