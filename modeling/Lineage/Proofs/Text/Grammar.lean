import Lineage.Proofs.Text.Comparison

/-!
# Texts of numbers and of bytes

The grammars of literals: numerals (`Decimal.isNumeral_iff`), the numerals of 64-bit integers, which
may have a plus sign (`Decimal.parseInt64?_eq_some_iff`), and pairs of hexadecimal digits
(`Hex.isSome_decode?_iff`).
-/

namespace Lineage

namespace Decimal

def AreDigits (cs : List Char) : Prop := cs ≠ [] ∧ ∀ c ∈ cs, c.isDigit = true

/-- **Decimal texts**: digits, behind a minus sign or not where `signed` allows it. -/
def IsDecimal (signed : Bool) (s : String) : Prop :=
  AreDigits s.toList ∨ signed = true ∧ ∃ digits, AreDigits digits ∧ s.toList = '-' :: digits

/-- **The texts of a 64-bit integer**: it fits 64 bits, and the text is made of its digits behind its
sign. -/
def IsInt64 (s : String) (p : Int) : Prop :=
  FitsInt64 p ∧ ∃ digits, AreDigits digits ∧
    ((s.toList = digits ∨ s.toList = '+' :: digits) ∧ p = valueOf digits ∨
      s.toList = '-' :: digits ∧ p = -(valueOf digits : Int))

variable {signed : Bool} {s : String} {p : Int} {cs : List Char}

lemma isDigits_iff : isDigits cs = true ↔ AreDigits cs := by
  unfold isDigits AreDigits
  rw [Bool.and_eq_true, Bool.not_eq_true', List.isEmpty_eq_false_iff, List.all_eq_true]

lemma not_areDigits_cons {c : Char} (hc : c.isDigit = false) : ¬ AreDigits (c :: cs) := by
  intro h
  have hdigit := h.2 c List.mem_cons_self
  rw [hc] at hdigit
  cases hdigit

theorem isNumeral_iff : isNumeral signed s = true ↔ IsDecimal signed s := by
  unfold isNumeral IsDecimal
  split
  · next tail hs =>
    rw [Bool.and_eq_true, isDigits_iff, hs]
    constructor
    · rintro ⟨hsigned, hdigits⟩
      exact .inr ⟨hsigned, tail, hdigits, rfl⟩
    · rintro (hdigits | ⟨hsigned, digits, hdigits, heq⟩)
      · exact absurd hdigits (not_areDigits_cons rfl)
      · cases heq
        exact ⟨hsigned, hdigits⟩
  · next hsign =>
    rw [isDigits_iff, or_iff_left]
    rintro ⟨-, digits, -, hs⟩
    exact hsign digits hs

theorem parseInt64?_eq_some_iff : parseInt64? s = some p ↔ IsInt64 s p := by
  constructor
  · intro h
    refine ⟨fits_of_parseInt64? h, ?_⟩
    unfold parseInt64? at h
    split at h <;> rw [Option.ite_none_right_eq_some, int64?_eq_some_iff, isDigits_iff] at h <;>
      obtain ⟨hdigits, -, rfl⟩ := h
    · next digits hs => exact ⟨digits, hdigits, .inr ⟨hs, rfl⟩⟩
    · next digits hs => exact ⟨digits, hdigits, .inl ⟨.inr hs, rfl⟩⟩
    · exact ⟨_, hdigits, .inl ⟨.inl rfl, rfl⟩⟩
  · rintro ⟨hfits, digits, hdigits, ⟨hs | hs, rfl⟩ | ⟨hs, rfl⟩⟩ <;> unfold parseInt64? <;> rw [hs]
    · split
      · exact absurd hdigits (not_areDigits_cons rfl)
      · exact absurd hdigits (not_areDigits_cons rfl)
      · rw [if_pos (isDigits_iff.2 hdigits), int64?_eq_some_iff.2 ⟨hfits, rfl⟩]
    · exact (if_pos (isDigits_iff.2 hdigits)).trans (int64?_eq_some_iff.2 ⟨hfits, rfl⟩)
    · exact (if_pos (isDigits_iff.2 hdigits)).trans (int64?_eq_some_iff.2 ⟨hfits, rfl⟩)

end Decimal

namespace Hex

def IsDigit (c : Char) : Prop := '0' ≤ c ∧ c ≤ '9' ∨ 'a' ≤ c ∧ c ≤ 'f' ∨ 'A' ≤ c ∧ c ≤ 'F'

/-- **Hexadecimal texts**: an even number of hexadecimal digits. -/
def IsHexadecimal (s : String) : Prop := s.toList.length % 2 = 0 ∧ ∀ c ∈ s.toList, IsDigit c

variable {c : Char} {cs : List Char} {s : String}

lemma isSome_digit?_iff : (digit? c).isSome = true ↔ IsDigit c := by
  unfold digit? IsDigit
  split_ifs <;> simp [*]

lemma isSome_decodeChars?_iff :
    (decodeChars? cs).isSome = true ↔ cs.length % 2 = 0 ∧ ∀ c ∈ cs, IsDigit c := by
  fun_induction decodeChars? cs with
  | case1 => simp
  | case2 c => simp
  | case3 high low cs ih =>
    have hlength : (high :: low :: cs).length % 2 = 0 ↔ cs.length % 2 = 0 := by
      rw [List.length_cons, List.length_cons]
      omega
    have hread : ∀ x y z, (do
        let high ← x
        let low ← y
        let rest ← z
        return UInt8.ofNat (16 * high + low) :: rest : Option (List UInt8)).isSome = true ↔
        x.isSome = true ∧ y.isSome = true ∧ z.isSome = true := by
      intro x y z
      cases x <;> cases y <;> cases z <;> simp
    rw [hlength, List.forall_mem_cons, List.forall_mem_cons, hread, isSome_digit?_iff,
      isSome_digit?_iff, ih]
    tauto

theorem isSome_decode?_iff : (decode? s).isSome = true ↔ IsHexadecimal s := isSome_decodeChars?_iff

end Hex

end Lineage
