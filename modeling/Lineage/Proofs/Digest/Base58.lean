import Mathlib.Data.List.GetD
import Mathlib.Data.List.TakeWhile
import Mathlib.Data.Nat.Digits.Lemmas
import Lineage.Digest.Base58

/-!
# Base 58 is exact

The digits that are kept while bytes are read are those of the number read so far
(`digits_eq`), so they are below 58 and the highest one is not zero. A text is a `1` for each
leading zero byte and the numeral of the number behind them (`encode_eq`), and reading it back gives
the bytes (`decode?_encode`). While a byte is pushed the carry stays far below the bound of a word
of 32 bits (`sums_lt`).
-/

namespace Lineage.Base58

/-! ### Numbers -/

/-- The big-endian number that bytes denote. -/
def number (bytes : List UInt8) : Nat := Nat.ofDigits 256 (bytes.reverse.map UInt8.toNat)

/-- The numeral of a number in base 58, without leading zero digit. That of zero is empty. -/
def numeral (n : Nat) : List Char := (Nat.digits 58 n).reverse.map digitChar

def leadingZeros (bytes : List UInt8) : Nat := (bytes.takeWhile (· == 0)).length

/-! ### Pushing a byte -/

variable {n carry d : Nat} {ds : List Nat} {bytes : List UInt8}

lemma carryDigits_eq (carry : Nat) : carryDigits carry = Nat.digits 58 carry := by
  induction carry using Nat.strong_induction_on with
  | _ carry ih =>
    rw [carryDigits]
    by_cases h : carry = 0
    · rw [if_pos h, h, Nat.digits_zero]
    · rw [if_neg h, ih (carry / 58) (by omega),
        Nat.digits_def' (n := carry) (by decide) (by omega)]

/-- **A pushed byte** is a further digit in base 256. -/
theorem push_digits (n carry : Nat) :
    push (Nat.digits 58 n) carry = Nat.digits 58 (carry + 256 * n) := by
  induction n using Nat.strong_induction_on generalizing carry with
  | _ n ih =>
    by_cases h : n = 0
    · rw [h, Nat.digits_zero, push, carryDigits_eq, Nat.mul_zero, Nat.add_zero]
    · rw [Nat.digits_def' (by decide) (by omega), push, ih (n / 58) (by omega),
        Nat.digits_def' (n := carry + 256 * n) (by decide) (by omega)]
      have hlow : (n % 58 * 256 + carry) % 58 = (carry + 256 * n) % 58 := by omega
      have hhigh : (n % 58 * 256 + carry) / 58 + 256 * (n / 58) = (carry + 256 * n) / 58 := by omega
      rw [hlow, hhigh]

lemma number_concat (bytes : List UInt8) (b : UInt8) :
    number (bytes ++ [b]) = b.toNat + 256 * number bytes := by
  unfold number
  rw [List.reverse_concat, List.map_cons, Nat.ofDigits_cons]

lemma digits_concat (bytes : List UInt8) (b : UInt8) :
    digits (bytes ++ [b]) = push (digits bytes) b.toNat := List.foldl_concat _ _ _ _

/-- **The digits that are kept** are those of the number that has been read. -/
theorem digits_eq (bytes : List UInt8) : digits bytes = Nat.digits 58 (number bytes) := by
  induction bytes using List.reverseRecOn with
  | nil => rfl
  | append_singleton bytes b ih => rw [digits_concat, ih, push_digits, number_concat]

lemma lt_of_mem_digits (h : d ∈ digits bytes) : d < 58 := by
  rw [digits_eq] at h
  exact Nat.digits_lt_base (by decide) h

/-! ### The carry -/

/-- A number and its quotients by 58, as far as they are not zero. -/
def quotients (carry : Nat) : List Nat :=
  if carry = 0 then [] else carry :: quotients (carry / 58)
termination_by carry
decreasing_by omega

/-- The values that the carry takes while a byte is pushed, each before its last digit is split
off. -/
def sums : List Nat → Nat → List Nat
  | [], carry => quotients carry
  | d :: ds, carry => (d * 256 + carry) :: sums ds ((d * 256 + carry) / 58)

/-- A pushed byte leaves the last digits of the carry. -/
theorem push_eq_map_sums (ds : List Nat) (carry : Nat) :
    push ds carry = (sums ds carry).map (· % 58) := by
  induction ds generalizing carry with
  | nil =>
    rw [push, sums]
    induction carry using Nat.strong_induction_on with
    | _ carry ih =>
      rw [carryDigits, quotients]
      by_cases h : carry = 0
      · rw [if_pos h, if_pos h, List.map_nil]
      · rw [if_neg h, if_neg h, List.map_cons, ih (carry / 58) (by omega)]
  | cons d ds ih => rw [push, sums, List.map_cons, ih]

lemma le_of_mem_quotients {s : Nat} (h : s ∈ quotients carry) : s ≤ carry := by
  induction carry using Nat.strong_induction_on with
  | _ carry ih =>
    rw [quotients] at h
    by_cases hzero : carry = 0
    · rw [if_pos hzero] at h
      cases h
    · rw [if_neg hzero, List.mem_cons] at h
      rcases h with rfl | h
      · exact Nat.le_refl s
      · have := ih (carry / 58) (by omega) h
        omega

/-- The carry that is taken from one digit to the next is a byte again. -/
theorem sums_lt (hds : ∀ d ∈ ds, d < 58) (hcarry : carry < 256) :
    ∀ s ∈ sums ds carry, s < 58 * 256 := by
  induction ds generalizing carry with
  | nil =>
    intro s hs
    have := le_of_mem_quotients hs
    omega
  | cons d ds ih =>
    obtain ⟨hd, hds⟩ := List.forall_mem_cons.1 hds
    rw [sums, List.forall_mem_cons]
    exact ⟨by omega, ih hds (by omega)⟩

/-! ### Leading zeros -/

section Leading

variable {α : Type} [BEq α] [LawfulBEq α] {a : α} {k : Nat} {l : List α}

/-- A list that begins with another element is what is left when copies of `a` before it are
dropped. -/
lemma takeWhile_replicate (h : ∀ b ∈ l.head?, b ≠ a) :
    (List.replicate k a ++ l).takeWhile (· == a) = List.replicate k a ∧
      (List.replicate k a ++ l).dropWhile (· == a) = l := by
  have hcopies : ∀ b ∈ List.replicate k a, (b == a) = true :=
    fun b hb => beq_iff_eq.2 (List.eq_of_mem_replicate hb)
  have hrest : l.takeWhile (· == a) = [] ∧ l.dropWhile (· == a) = l := by
    cases l with
    | nil => exact ⟨rfl, rfl⟩
    | cons b l =>
      have hb : ¬ (b == a) = true := fun heq => h b rfl (beq_iff_eq.1 heq)
      exact ⟨List.takeWhile_cons_of_neg hb, List.dropWhile_cons_of_neg hb⟩
  rw [List.takeWhile_append_of_pos hcopies, List.dropWhile_append_of_pos hcopies, hrest.1, hrest.2,
    List.append_nil]
  exact ⟨rfl, rfl⟩

lemma replicate_append_dropWhile (l : List α) (a : α) :
    List.replicate (l.takeWhile (· == a)).length a ++ l.dropWhile (· == a) = l := by
  have hcopies : l.takeWhile (· == a) = List.replicate (l.takeWhile (· == a)).length a :=
    List.eq_replicate_iff.2
      ⟨rfl, fun b hb => beq_iff_eq.1 (List.mem_takeWhile_imp (p := (· == a)) hb)⟩
  rw [← hcopies, List.takeWhile_append_dropWhile]

lemma head?_dropWhile_ne {b : α} (h : b ∈ (l.dropWhile (· == a)).head?) : b ≠ a := by
  have := List.head?_dropWhile_not (· == a) l
  rw [Option.mem_def.1 h] at this
  simpa using this

end Leading

lemma number_replicate (k : Nat) (bytes : List UInt8) :
    number (List.replicate k 0 ++ bytes) = number bytes := by
  unfold number
  rw [List.reverse_append, List.map_append, List.reverse_replicate, List.map_replicate]
  exact Nat.ofDigits_append_replicate_zero _

lemma number_dropWhile (bytes : List UInt8) :
    number (bytes.dropWhile (· == 0)) = number bytes := by
  conv_rhs => rw [← replicate_append_dropWhile bytes 0, number_replicate]

/-- **The text of bytes**: a `1` for each leading zero, and the numeral of their number. -/
theorem encode_eq (bytes : List UInt8) :
    encode bytes =
      String.ofList (List.replicate (leadingZeros bytes) '1' ++ numeral (number bytes)) := by
  show String.ofList ((bytes.takeWhile (· == 0)).map (fun _ => '1') ++
    (digits (bytes.dropWhile (· == 0))).reverse.map digitChar) = _
  rw [digits_eq, number_dropWhile, List.map_const']
  rfl

/-! ### Numbers and what they are written as

A number is written in bytes and in characters of the alphabet. Both ways what is written does not
begin with a zero, and whatever does not is written for its number. -/

section Radix

variable {b : Nat}

lemma head?_reverse_digits (hb : 1 < b) (h : d ∈ (Nat.digits b n).reverse.head?) :
    d < b ∧ d ≠ 0 := by
  refine ⟨Nat.digits_lt_base hb (List.mem_reverse.1 (List.mem_of_mem_head? h)), ?_⟩
  by_cases hn : n = 0
  · rw [hn, Nat.digits_zero] at h
    cases h
  · have hne := Nat.digits_ne_nil_iff_ne_zero (b := b).2 hn
    rw [List.head?_reverse, List.getLast?_eq_some_getLast hne, Option.mem_some_iff] at h
    exact h ▸ Nat.getLast_digit_ne_zero b hn

lemma reverse_digits_ofDigits (hb : 1 < b) (hlt : ∀ d ∈ ds, d < b) (h : ∀ d ∈ ds.head?, d ≠ 0) :
    (Nat.digits b (Nat.ofDigits b ds.reverse)).reverse = ds := by
  rw [Nat.digits_ofDigits b hb, List.reverse_reverse]
  · exact fun d hd => hlt d (List.mem_reverse.1 hd)
  · intro hne
    rw [List.getLast_reverse]
    exact h _ (List.head?_eq_some_head _)

lemma map_map_eq_self {α β : Type} {f : α → β} {g : β → α} {l : List α}
    (h : ∀ a ∈ l, g (f a) = a) : (l.map f).map g = l := by
  rw [List.map_map]
  exact (List.map_congr_left h).trans (List.map_id l)

end Radix

/-! ### Numbers in bytes -/

/-- The big-endian bytes of a number, without leading zero byte. -/
def bytesOf (n : Nat) : List UInt8 := (Nat.digits 256 n).reverse.map UInt8.ofNat

lemma number_bytesOf (n : Nat) : number (bytesOf n) = n := by
  have hbytes : ((Nat.digits 256 n).map UInt8.ofNat).map UInt8.toNat = Nat.digits 256 n :=
    map_map_eq_self fun d hd => UInt8.toNat_ofNat_of_lt' (Nat.digits_lt_base (by decide) hd)
  unfold number bytesOf
  rw [← List.map_reverse, List.reverse_reverse, hbytes, Nat.ofDigits_digits]

lemma head?_bytesOf {b : UInt8} (h : b ∈ (bytesOf n).head?) : b ≠ 0 := by
  unfold bytesOf at h
  rw [List.head?_map, Option.mem_def, Option.map_eq_some_iff] at h
  obtain ⟨d, hd, rfl⟩ := h
  obtain ⟨hlt, hne⟩ := head?_reverse_digits (by decide) hd
  intro hzero
  have hnat := congrArg UInt8.toNat hzero
  rw [UInt8.toNat_ofNat_of_lt' hlt] at hnat
  exact hne hnat

lemma bytesOf_number (h : ∀ b ∈ bytes.head?, b ≠ 0) : bytesOf (number bytes) = bytes := by
  have hdigits : (Nat.digits 256 (number bytes)).reverse = bytes.map UInt8.toNat := by
    unfold number
    rw [List.map_reverse]
    refine reverse_digits_ofDigits (by decide) (fun d hd => ?_) (fun d hd => ?_)
    · obtain ⟨b, -, rfl⟩ := List.mem_map.1 hd
      exact b.toNat_lt
    · rw [List.head?_map, Option.mem_def, Option.map_eq_some_iff] at hd
      obtain ⟨b, hb, rfl⟩ := hd
      exact fun hzero => h b hb (UInt8.toNat_inj.1 hzero)
  unfold bytesOf
  rw [hdigits]
  exact map_map_eq_self fun b _ => UInt8.ofNat_toNat

/-! ### Numbers in characters -/

def digitOf (c : Char) : Nat := alphabet.idxOf c

def valueOf (cs : List Char) : Nat := Nat.ofDigits 58 (cs.map digitOf).reverse

lemma length_alphabet : alphabet.length = 58 := by decide +kernel

lemma digitChar_mem (h : d < 58) : digitChar d ∈ alphabet := by
  rw [← length_alphabet] at h
  unfold digitChar
  rw [List.getD_eq_getElem _ _ h]
  exact List.getElem_mem h

lemma digitOf_digitChar (h : d < 58) : digitOf (digitChar d) = d := by
  have hall : ∀ d < 58, digitOf (digitChar d) = d := by decide +kernel
  exact hall d h

lemma digitOf_lt {c : Char} (h : c ∈ alphabet) : digitOf c < 58 :=
  length_alphabet ▸ List.idxOf_lt_length_of_mem h

lemma digitChar_digitOf {c : Char} (h : c ∈ alphabet) : digitChar (digitOf c) = c := by
  unfold digitChar digitOf
  rw [List.getD_eq_getElem _ _ (List.idxOf_lt_length_of_mem h), List.getElem_idxOf]

lemma numeral_subset (n : Nat) : numeral n ⊆ alphabet := by
  intro c hc
  obtain ⟨d, hd, rfl⟩ := List.mem_map.1 hc
  exact digitChar_mem (Nat.digits_lt_base (by decide) (List.mem_reverse.1 hd))

lemma valueOf_numeral (n : Nat) : valueOf (numeral n) = n := by
  have hdigits : (numeral n).map digitOf = (Nat.digits 58 n).reverse :=
    map_map_eq_self fun d hd =>
      digitOf_digitChar (Nat.digits_lt_base (by decide) (List.mem_reverse.1 hd))
  unfold valueOf
  rw [hdigits, List.reverse_reverse, Nat.ofDigits_digits]

lemma head?_numeral {c : Char} (h : c ∈ (numeral n).head?) : c ≠ '1' := by
  unfold numeral at h
  rw [List.head?_map, Option.mem_def, Option.map_eq_some_iff] at h
  obtain ⟨d, hd, rfl⟩ := h
  obtain ⟨hlt, hne⟩ := head?_reverse_digits (by decide) hd
  intro hone
  have hzero : digitOf '1' = 0 := by decide +kernel
  rw [← hone, digitOf_digitChar hlt] at hzero
  exact hne hzero

lemma numeral_valueOf {cs : List Char} (hcs : cs ⊆ alphabet) (h : ∀ c ∈ cs.head?, c ≠ '1') :
    numeral (valueOf cs) = cs := by
  unfold numeral valueOf
  rw [reverse_digits_ofDigits (by decide)]
  · exact map_map_eq_self fun c hc => digitChar_digitOf (hcs hc)
  · intro d hd
    obtain ⟨c, hc, rfl⟩ := List.mem_map.1 hd
    exact digitOf_lt (hcs hc)
  · intro d hd
    rw [List.head?_map, Option.mem_def, Option.map_eq_some_iff] at hd
    obtain ⟨c, hc, rfl⟩ := hd
    intro hzero
    have hchar := digitChar_digitOf (hcs (List.mem_of_mem_head? hc))
    rw [hzero] at hchar
    exact h c hc hchar.symm

/-! ### Reading a text -/

/-- The bytes that a text stands for, if it has no other characters than those of the alphabet. -/
def decode? (s : String) : Option (List UInt8) :=
  if s.toList ⊆ alphabet then
    some (List.replicate (s.toList.takeWhile (· == '1')).length 0 ++
      bytesOf (valueOf (s.toList.dropWhile (· == '1'))))
  else none

/-- **A text is read as the bytes it was made of.** -/
theorem decode?_encode (bytes : List UInt8) : decode? (encode bytes) = some bytes := by
  have hsubset : List.replicate (leadingZeros bytes) '1' ++ numeral (number bytes) ⊆ alphabet := by
    refine List.append_subset.2 ⟨fun c hc => ?_, numeral_subset _⟩
    rw [List.eq_of_mem_replicate hc]
    exact digitChar_mem (d := 0) (by decide)
  obtain ⟨htake, hdrop⟩ := takeWhile_replicate (a := '1') (k := leadingZeros bytes)
    (fun c => head?_numeral (n := number bytes) (c := c))
  have hrest : bytesOf (number bytes) = bytes.dropWhile (· == 0) := by
    rw [← number_dropWhile, bytesOf_number fun b hb => head?_dropWhile_ne hb]
  unfold decode?
  rw [encode_eq, String.toList_ofList, if_pos hsubset, htake, hdrop, valueOf_numeral, hrest,
    List.length_replicate]
  exact congrArg some (replicate_append_dropWhile bytes 0)

/-- **The texts that can be read** are those that bytes are written as. -/
theorem decode?_eq_some_iff {s : String} : decode? s = some bytes ↔ encode bytes = s := by
  constructor
  · intro h
    unfold decode? at h
    obtain ⟨hsubset, hbytes⟩ := Option.ite_none_right_eq_some.1 h
    obtain rfl := Option.some.inj hbytes
    have hnumeral : numeral (valueOf (s.toList.dropWhile (· == '1'))) =
        s.toList.dropWhile (· == '1') :=
      numeral_valueOf (fun c hc => hsubset ((List.dropWhile_suffix _).subset hc))
        fun c hc => head?_dropWhile_ne hc
    rw [encode_eq, number_replicate, number_bytesOf, hnumeral]
    unfold leadingZeros
    rw [(takeWhile_replicate fun b hb => head?_bytesOf hb).1, List.length_replicate,
      replicate_append_dropWhile, String.ofList_toList]
  · rintro rfl
    exact decode?_encode bytes

/-! ### Highest digits

The numbers that begin with given digits, and have a given number of others behind them, are those
of an interval. -/

lemma drop_digits (n j : Nat) : (Nat.digits 58 n).drop j = Nat.digits 58 (n / 58 ^ j) := by
  induction j generalizing n with
  | zero => rw [List.drop_zero, Nat.pow_zero, Nat.div_one]
  | succ j ih =>
    by_cases h : n = 0
    · rw [h, Nat.zero_div, Nat.digits_zero, List.drop_nil]
    · rw [Nat.digits_def' (by decide) (by omega), List.drop_succ_cons, ih, Nat.pow_succ',
        Nat.div_div_eq_div_mul]

/-- Numbers of an interval share their highest digits and the number of the others. -/
theorem numeral_of_bounds {p j : Nat} (hp : 0 < p) (hlow : p * 58 ^ j ≤ n)
    (hhigh : n < (p + 1) * 58 ^ j) :
    numeral p <+: numeral n ∧ (numeral n).length = (numeral p).length + j := by
  have hdrop : (Nat.digits 58 n).drop j = Nat.digits 58 p := by
    rw [drop_digits, Nat.div_eq_of_lt_le hlow hhigh]
  have hsplit : (Nat.digits 58 n).reverse =
      (Nat.digits 58 p).reverse ++ ((Nat.digits 58 n).take j).reverse := by
    rw [← List.reverse_append, ← hdrop, List.take_append_drop]
  have hlength : ((Nat.digits 58 n).take j).length = j := by
    rw [List.length_take_of_le]
    by_contra hshort
    rw [List.drop_of_length_le (by omega)] at hdrop
    exact Nat.digits_ne_nil_iff_ne_zero.2 (Nat.ne_of_gt hp) hdrop.symm
  have hlast : (((Nat.digits 58 n).take j).reverse.map digitChar).length = j := by
    rw [List.length_map, List.length_reverse, hlength]
  unfold numeral
  rw [hsplit, List.map_append]
  refine ⟨List.prefix_append _ _, ?_⟩
  rw [List.length_append, hlast]

lemma number_append (mark tail : List UInt8) :
    number (mark ++ tail) = number tail + 256 ^ tail.length * number mark := by
  unfold number
  rw [List.reverse_append, List.map_append, Nat.ofDigits_append, List.length_map,
    List.length_reverse]

lemma number_lt (bytes : List UInt8) : number bytes < 256 ^ bytes.length := by
  have hbytes : ∀ d ∈ bytes.reverse.map UInt8.toNat, d < 256 := by
    intro d hd
    obtain ⟨b, -, rfl⟩ := List.mem_map.1 hd
    exact b.toNat_lt
  have hlt := Nat.ofDigits_lt_base_pow_length (by decide) hbytes
  rwa [List.length_map, List.length_reverse] at hlt

/-- **How texts begin**: bytes behind a mark are written with the same highest digits, and in the
same length, whatever they are, if the mark fixes an interval of numbers that allows no others. -/
theorem encode_of_bounds {mark tail : List UInt8} {p j : Nat} (hne : mark ≠ [])
    (hmark : ∀ b ∈ mark.head?, b ≠ 0) (hp : 0 < p)
    (hlow : p * 58 ^ j ≤ 256 ^ tail.length * number mark)
    (hhigh : 256 ^ tail.length * (number mark + 1) ≤ (p + 1) * 58 ^ j) :
    numeral p <+: (encode (mark ++ tail)).toList ∧
      (encode (mark ++ tail)).length = (numeral p).length + j := by
  have hzeros : leadingZeros (mark ++ tail) = 0 := by
    obtain ⟨b, mark, rfl⟩ := List.exists_cons_of_ne_nil hne
    have hb : ¬ (b == 0) = true := fun heq => hmark b rfl (beq_iff_eq.1 heq)
    unfold leadingZeros
    rw [List.cons_append, List.takeWhile_cons_of_neg (p := (· == 0)) hb, List.length_nil]
  have htail := number_lt tail
  rw [Nat.mul_add, Nat.mul_one] at hhigh
  have hbounds := numeral_of_bounds (n := number (mark ++ tail)) (p := p) (j := j) hp
    (by rw [number_append]; omega) (by rw [number_append]; omega)
  rw [encode_eq, hzeros, List.replicate_zero, List.nil_append, String.length_ofList,
    String.toList_ofList]
  exact hbounds

/-! ### Exactness -/

/-- **Base 58 is exact.** The text of bytes is a `1` for each leading zero and the numeral of their
number. Whatever has been read, the digits kept are places of the alphabet, and the carry of a
further byte fits a word of 32 bits, so that the digits it leaves are those of its exact values. A
text is read as the bytes it was made of, and no other bytes have it. -/
theorem encode_exact :
    (∀ bytes, encode bytes =
      String.ofList (List.replicate (leadingZeros bytes) '1' ++ numeral (number bytes))) ∧
    (∀ bytes, ∀ d ∈ digits bytes, d < alphabet.length) ∧
    (∀ bytes b, digits (bytes ++ [b]) = (sums (digits bytes) b.toNat).map (· % 58) ∧
      ∀ s ∈ sums (digits bytes) b.toNat, s < UInt32.size) ∧
    (∀ s bytes, decode? s = some bytes ↔ encode bytes = s) ∧
    Function.Injective encode := by
  refine ⟨encode_eq, fun bytes d hd => ?_, fun bytes b => ⟨?_, fun s hs => ?_⟩,
    fun s bytes => decode?_eq_some_iff, ?_⟩
  · rw [length_alphabet]
    exact lt_of_mem_digits hd
  · rw [digits_concat, push_eq_map_sums]
  · have hlt := sums_lt (fun d => lt_of_mem_digits) b.toNat_lt s hs
    exact hlt.trans (by decide)
  · intro bytes bytes' h
    have hread := congrArg decode? h
    rw [decode?_encode, decode?_encode] at hread
    exact Option.some.inj hread

example : encode [0, 0, 1, 0] = "115R" := by decide +kernel

end Lineage.Base58
