import Mathlib.Tactic.Common
import Lineage.Text.Utf8

/-!
# Undamaged text

Bytes that are the UTF-8 form of a text are read as this text: nothing is replaced
(`decodeLossy_toUTF8`). The first byte of a character promises as many bytes as follow, and the
range that it gives for the next one is that of the characters which need so many (`lead?_three`,
`lead?_four`).
-/

namespace Lineage.Utf8

variable {b d v least greatest : Nat} {bs : List Nat} {l : Lead}

/-! ### Single bytes -/

lemma decodeFrom_lead (h : lead? b = some l) :
    decodeFrom none (b :: bs) =
      if l.following = 0 then Char.ofNat l.bits :: decodeFrom none bs
      else decodeFrom (some l) bs := by
  rw [decodeFrom]
  simp only [Option.filter_none, h, Option.isSome_none, Bool.false_eq_true, if_false,
    List.nil_append]

lemma decodeFrom_pending (hleast : l.least ≤ d + 0x80) (hgreatest : d + 0x80 ≤ l.greatest) :
    decodeFrom (some l) ((d + 0x80) :: bs) =
      if l.following ≤ 1 then Char.ofNat (64 * l.bits + d) :: decodeFrom none bs
      else decodeFrom (some ⟨64 * l.bits + d, l.following - 1, 0x80, 0xBF⟩) bs := by
  have hadmits : l.admits (d + 0x80) = true := by
    unfold Lead.admits
    rw [Bool.and_eq_true, decide_eq_true_iff, decide_eq_true_iff]
    exact ⟨hleast, hgreatest⟩
  have hpending : (some l).filter (·.admits (d + 0x80)) = some l :=
    (Option.filter_some).trans (if_pos hadmits)
  rw [decodeFrom]
  simp only [hpending, Nat.add_sub_cancel]

lemma decodeFrom_last (hleast : least ≤ v % 64 + 0x80) (hgreatest : v % 64 + 0x80 ≤ greatest) :
    decodeFrom (some ⟨v / 64, 1, least, greatest⟩) ((v % 64 + 0x80) :: bs) =
      Char.ofNat v :: decodeFrom none bs := by
  rw [decodeFrom_pending hleast hgreatest, if_pos (Nat.le_refl 1), Nat.div_add_mod]

lemma decodeFrom_last_two (hleast : least ≤ v / 64 % 64 + 0x80)
    (hgreatest : v / 64 % 64 + 0x80 ≤ greatest) :
    decodeFrom (some ⟨v / 4096, 2, least, greatest⟩)
        ((v / 64 % 64 + 0x80) :: (v % 64 + 0x80) :: bs) =
      Char.ofNat v :: decodeFrom none bs := by
  have hbits : v / 4096 = v / 64 / 64 := (Nat.div_div_eq_div_mul v 64 64).symm
  rw [decodeFrom_pending hleast hgreatest, if_neg (show ¬ 2 ≤ 1 by decide), hbits,
    Nat.div_add_mod]
  exact decodeFrom_last (by omega) (by omega)

lemma decodeFrom_last_three (hleast : least ≤ v / 4096 % 64 + 0x80)
    (hgreatest : v / 4096 % 64 + 0x80 ≤ greatest) :
    decodeFrom (some ⟨v / 262144, 3, least, greatest⟩)
        ((v / 4096 % 64 + 0x80) :: (v / 64 % 64 + 0x80) :: (v % 64 + 0x80) :: bs) =
      Char.ofNat v :: decodeFrom none bs := by
  have hbits : v / 262144 = v / 4096 / 64 := (Nat.div_div_eq_div_mul v 4096 64).symm
  rw [decodeFrom_pending hleast hgreatest, if_neg (show ¬ 3 ≤ 1 by decide), hbits,
    Nat.div_add_mod]
  exact decodeFrom_last_two (by omega) (by omega)

/-! ### First bytes -/

lemma lead?_one (h : v ≤ 0x7F) : lead? v = some ⟨v, 0, 0x80, 0xBF⟩ := by
  unfold lead?
  rw [if_pos (by omega)]

lemma lead?_two (hlow : 0x7F < v) (hhigh : v ≤ 0x7FF) :
    lead? (v / 64 + 0xC0) = some ⟨v / 64, 1, 0x80, 0xBF⟩ := by
  unfold lead?
  rw [if_neg (by omega), if_neg (by omega), if_pos (by omega), Nat.add_sub_cancel]

/-- Of the numbers that have room in three bytes, those that need fewer and the surrogates are
excluded by the range of the second byte. -/
lemma lead?_three (hlow : 0x7FF < v) (hhigh : v ≤ 0xFFFF) (hchar : v < 0xD800 ∨ 0xDFFF < v) :
    ∃ least greatest, lead? (v / 4096 + 0xE0) = some ⟨v / 4096, 2, least, greatest⟩ ∧
      least ≤ v / 64 % 64 + 0x80 ∧ v / 64 % 64 + 0x80 ≤ greatest := by
  unfold lead?
  rw [if_neg (by omega), if_neg (by omega), if_neg (by omega)]
  by_cases hzero : v / 4096 = 0
  · rw [hzero, if_pos rfl]
    exact ⟨0xA0, 0xBF, rfl, by omega, by omega⟩
  rw [if_neg (by omega)]
  by_cases hsurrogate : v / 4096 = 0xD
  · rw [hsurrogate, if_pos rfl]
    exact ⟨0x80, 0x9F, rfl, by omega, by omega⟩
  rw [if_neg (by omega), if_pos (by omega), Nat.add_sub_cancel]
  exact ⟨0x80, 0xBF, rfl, by omega, by omega⟩

/-- Of the numbers that have room in four bytes, those that need fewer and those behind the last
character are excluded by the range of the second byte. -/
lemma lead?_four (hlow : 0xFFFF < v) (hhigh : v < 0x110000) :
    ∃ least greatest, lead? (v / 262144 + 0xF0) = some ⟨v / 262144, 3, least, greatest⟩ ∧
      least ≤ v / 4096 % 64 + 0x80 ∧ v / 4096 % 64 + 0x80 ≤ greatest := by
  unfold lead?
  rw [if_neg (by omega), if_neg (by omega), if_neg (by omega), if_neg (by omega),
    if_neg (by omega), if_neg (by omega)]
  by_cases hzero : v / 262144 = 0
  · rw [hzero, if_pos rfl]
    exact ⟨0x90, 0xBF, rfl, by omega, by omega⟩
  rw [if_neg (by omega)]
  by_cases hlast : v / 262144 = 4
  · rw [hlast, if_neg (by omega), if_pos rfl]
    exact ⟨0x80, 0x8F, rfl, by omega, by omega⟩
  rw [if_pos (by omega), Nat.add_sub_cancel]
  exact ⟨0x80, 0xBF, rfl, by omega, by omega⟩

/-! ### Characters -/

lemma map_toNat_utf8EncodeChar (c : Char) :
    (String.utf8EncodeChar c).map UInt8.toNat =
      if c.toNat ≤ 0x7F then [c.toNat]
      else if c.toNat ≤ 0x7FF then [c.toNat / 64 + 0xC0, c.toNat % 64 + 0x80]
      else if c.toNat ≤ 0xFFFF then
        [c.toNat / 4096 + 0xE0, c.toNat / 64 % 64 + 0x80, c.toNat % 64 + 0x80]
      else
        [c.toNat / 262144 + 0xF0, c.toNat / 4096 % 64 + 0x80, c.toNat / 64 % 64 + 0x80,
          c.toNat % 64 + 0x80] := by
  have hvalid : c.toNat < 0xD800 ∨ 0xDFFF < c.toNat ∧ c.toNat < 0x110000 := c.valid
  unfold String.utf8EncodeChar
  dsimp only
  rw [show c.val.toNat = c.toNat from rfl]
  split_ifs <;> simp <;> omega

/-- A character is read from its bytes. -/
theorem decodeFrom_utf8EncodeChar (c : Char) :
    decodeFrom none ((String.utf8EncodeChar c).map UInt8.toNat ++ bs) =
      c :: decodeFrom none bs := by
  have hvalid : c.toNat < 0xD800 ∨ 0xDFFF < c.toNat ∧ c.toNat < 0x110000 := c.valid
  have hc : Char.ofNat c.toNat = c := Char.ofNat_toNat c
  rw [map_toNat_utf8EncodeChar]
  by_cases hone : c.toNat ≤ 0x7F
  · rw [if_pos hone, List.singleton_append, decodeFrom_lead (lead?_one hone), if_pos rfl, hc]
  rw [if_neg hone]
  by_cases htwo : c.toNat ≤ 0x7FF
  · rw [if_pos htwo, List.cons_append, List.singleton_append,
      decodeFrom_lead (lead?_two (by omega) htwo), if_neg nofun,
      decodeFrom_last (by omega) (by omega), hc]
  rw [if_neg htwo]
  by_cases hthree : c.toNat ≤ 0xFFFF
  · obtain ⟨least, greatest, hlead, hleast, hgreatest⟩ :=
      lead?_three (v := c.toNat) (by omega) hthree (by omega)
    rw [if_pos hthree, List.cons_append, List.cons_append, List.singleton_append,
      decodeFrom_lead hlead, if_neg nofun, decodeFrom_last_two hleast hgreatest, hc]
  · obtain ⟨least, greatest, hlead, hleast, hgreatest⟩ :=
      lead?_four (v := c.toNat) (by omega) (by omega)
    rw [if_neg hthree, List.cons_append, List.cons_append, List.cons_append,
      List.singleton_append, decodeFrom_lead hlead, if_neg nofun,
      decodeFrom_last_three hleast hgreatest, hc]

lemma decodeFrom_flatMap (cs : List Char) :
    decodeFrom none ((cs.flatMap String.utf8EncodeChar).map UInt8.toNat) = cs := by
  induction cs with
  | nil => rfl
  | cons c cs ih => rw [List.flatMap_cons, List.map_append, decodeFrom_utf8EncodeChar, ih]

/-- **The bytes of a text are read as the text.** -/
theorem decodeLossy_toUTF8 (s : String) : decodeLossy s.toUTF8.data.toList = s := by
  have hbytes : s.toUTF8.data.toList = s.toList.flatMap String.utf8EncodeChar := by
    unfold String.toUTF8
    rw [← String.utf8Encode_toList, List.utf8Encode, List.toList_data_toByteArray]
  unfold decodeLossy
  rw [hbytes, decodeFrom_flatMap, String.ofList_toList]

end Lineage.Utf8
