import Mathlib.Data.String.Basic
import Lineage.Proofs.Text.Decimal
import Lineage.Text.Hex

/-!
# Texts compared for what they denote

Integers and bytes are compared as texts. Texts are compared character by character
(`compare_eq_compareLex`). Of digit strings without leading zeros the longer one denotes the greater
number, and among those of one length the characters decide as the digits do (`compare_valueOf`).
So the order of numerals is that of integers (`order_eq_compare`), for numerals of any length, with
leading zeros or with a sign before a zero. In the same way the lower-case digits of bytes decide as
the bytes do (`Hex.compareLex_toLower`).
-/

namespace Lineage

/-! ### Characters -/

lemma compareOfLessAndEq_congr {α β : Type} [LT α] [DecidableLT α] [DecidableEq α] [LT β]
    [DecidableLT β] [DecidableEq β] {a b : α} {a' b' : β} (hlt : a < b ↔ a' < b')
    (heq : a = b ↔ a' = b') : compareOfLessAndEq a b = compareOfLessAndEq a' b' := by
  unfold compareOfLessAndEq
  simp only [hlt, heq]

/-- Lists of characters are compared by the first characters that differ. -/
lemma compareOfLessAndEq_eq_compareLex (xs ys : List Char) :
    compareOfLessAndEq xs ys = xs.compareLex compare ys := by
  induction xs generalizing ys with
  | nil => cases ys <;> simp [compareOfLessAndEq, List.compareLex]
  | cons x xs ih =>
    cases ys with
    | nil => simp [compareOfLessAndEq, List.compareLex]
    | cons y ys =>
      rw [List.compareLex_cons_cons, ← ih]
      rcases lt_trichotomy x y with h | rfl | h
      · rw [compare_lt_iff_lt.2 h]
        exact if_pos (List.cons_lt_cons_iff.2 (.inl h))
      · rw [compare_eq_iff_eq.2 rfl]
        exact compareOfLessAndEq_congr (by simp) (by simp)
      · rw [compare_gt_iff_gt.2 h]
        unfold compareOfLessAndEq
        rw [if_neg, if_neg]
        · rfl
        · simp [h.ne']
        · simp [List.cons_lt_cons_iff, h.not_gt, h.ne']

lemma compare_eq_compareLex (a b : String) :
    compare a b = a.toList.compareLex compare b.toList := by
  rw [← compareOfLessAndEq_eq_compareLex]
  exact compareOfLessAndEq_congr String.lt_iff_toList_lt String.toList_inj.symm

/-! ### Numerals -/

namespace Decimal

def digit (c : Char) : Nat := c.toNat - '0'.toNat

/-- **The integer a numeral denotes.** -/
def integer (s : String) : Int :=
  match s.toList with
  | '-' :: cs => -(valueOf cs : Int)
  | cs => valueOf cs

variable {c c' : Char} {x y : List Char} {s a b : String}

lemma isDigit_iff : c.isDigit = true ↔ 48 ≤ c.toNat ∧ c.toNat ≤ 57 := by
  simp [Char.isDigit, UInt32.le_iff_toNat_le]

lemma digit_lt (h : c.isDigit = true) : digit c < 10 := by
  have := isDigit_iff.1 h
  unfold digit
  show c.toNat - 48 < 10
  omega

lemma compare_digit (h : c.isDigit = true) (h' : c'.isDigit = true) :
    compare c c' = compare (digit c) (digit c') := by
  have hc := isDigit_iff.1 h
  have hc' := isDigit_iff.1 h'
  have hdigit : digit c = c.toNat - 48 := rfl
  have hdigit' : digit c' = c'.toNat - 48 := rfl
  refine compareOfLessAndEq_congr ?_ ?_
  · rw [Char.lt_def, UInt32.lt_iff_toNat_lt]
    show c.toNat < c'.toNat ↔ _
    omega
  · rw [← Char.toNat_inj]
    omega

lemma valueOf_cons (c : Char) (cs : List Char) :
    valueOf (c :: cs) = 10 ^ cs.length * digit c + valueOf cs := by
  show Nat.ofDigitChars 10 (c :: cs) 0 = _ + Nat.ofDigitChars 10 cs 0
  rw [Nat.ofDigitChars_cons, Nat.ofDigitChars_eq_ofDigitChars_zero, Nat.mul_zero, Nat.zero_add]
  rfl

lemma valueOf_lt (h : ∀ c ∈ x, c.isDigit = true) : valueOf x < 10 ^ x.length := by
  induction x with
  | nil => decide
  | cons c cs ih =>
    obtain ⟨hc, hcs⟩ := List.forall_mem_cons.1 h
    have hdigit : 10 ^ cs.length * (digit c + 1) ≤ 10 ^ cs.length * 10 :=
      Nat.mul_le_mul_left _ (digit_lt hc)
    have hrest := ih hcs
    rw [valueOf_cons, List.length_cons, Nat.pow_succ]
    rw [Nat.mul_add] at hdigit
    omega

lemma le_valueOf (h : ∀ d ∈ c :: x, d.isDigit = true) (hzero : c ≠ '0') :
    10 ^ x.length ≤ valueOf (c :: x) := by
  have hc := isDigit_iff.1 (h c List.mem_cons_self)
  have hne : c.toNat ≠ 48 := fun heq => hzero (Char.toNat_inj.1 heq)
  have hpos : 1 ≤ digit c := by
    show 1 ≤ c.toNat - 48
    omega
  have hdigit : 10 ^ x.length * 1 ≤ 10 ^ x.length * digit c := Nat.mul_le_mul_left _ hpos
  rw [valueOf_cons]
  omega

/-- Of two digit strings of one length the first digits that differ decide. -/
lemma compareLex_eq_compare (hx : ∀ c ∈ x, c.isDigit = true) (hy : ∀ c ∈ y, c.isDigit = true)
    (hlength : x.length = y.length) : x.compareLex compare y = compare (valueOf x) (valueOf y) := by
  induction x generalizing y with
  | nil =>
    obtain rfl := List.length_eq_zero_iff.1 hlength.symm
    rfl
  | cons c x ih =>
    obtain _ | ⟨c', y⟩ := y
    · cases hlength
    obtain ⟨hc, hx⟩ := List.forall_mem_cons.1 hx
    obtain ⟨hc', hy⟩ := List.forall_mem_cons.1 hy
    have hlength : x.length = y.length := Nat.succ.inj hlength
    have hxlt := valueOf_lt hx
    have hylt := valueOf_lt hy
    rw [List.compareLex_cons_cons, compare_digit hc hc', ih hx hy hlength, valueOf_cons,
      valueOf_cons]
    rw [hlength] at hxlt ⊢
    rcases lt_trichotomy (digit c) (digit c') with h | h | h
    · rw [compare_lt_iff_lt.2 h]
      have hle : 10 ^ y.length * (digit c + 1) ≤ 10 ^ y.length * digit c' :=
        Nat.mul_le_mul_left _ h
      rw [Nat.mul_add] at hle
      exact (compare_lt_iff_lt.2 (by omega)).symm
    · rw [h, compare_eq_iff_eq.2 rfl]
      refine compareOfLessAndEq_congr ?_ ?_ <;> omega
    · rw [compare_gt_iff_gt.2 h]
      have hle : 10 ^ y.length * (digit c' + 1) ≤ 10 ^ y.length * digit c :=
        Nat.mul_le_mul_left _ h
      rw [Nat.mul_add] at hle
      exact (compare_gt_iff_gt.2 (show _ < _ by omega)).symm

lemma byteLength_eq (h : ∀ c ∈ x, c.isDigit = true) : byteLength x = x.length := by
  have hfold : ∀ n, x.foldl (fun n c => n + c.utf8Size) n = n + x.length := by
    induction x with
    | nil => exact fun n => rfl
    | cons c x ih =>
      intro n
      obtain ⟨hc, hx⟩ := List.forall_mem_cons.1 h
      have hsize : c.utf8Size = 1 := by
        rw [Char.utf8Size_eq_one_iff, UInt32.le_iff_toNat_le]
        exact Nat.le_trans (isDigit_iff.1 hc).2 (by decide)
      rw [List.foldl_cons, ih hx, hsize, List.length_cons]
      omega
  exact (hfold 0).trans (Nat.zero_add _)

/-- The digits begin with no zero. -/
def Trimmed (x : List Char) : Prop := (∀ c ∈ x, c.isDigit = true) ∧ x.head? ≠ some '0'

lemma Trimmed.lt_of_length_lt (hx : Trimmed x) (hy : Trimmed y) (h : x.length < y.length) :
    valueOf x < valueOf y := by
  obtain _ | ⟨c, y⟩ := y
  · cases h
  calc valueOf x < 10 ^ x.length := valueOf_lt hx.1
    _ ≤ 10 ^ y.length := Nat.pow_le_pow_right (by decide) (Nat.le_of_lt_succ h)
    _ ≤ valueOf (c :: y) := le_valueOf hy.1 fun hc => hy.2 (congrArg some hc)

/-- **Digit strings are compared as the numbers are**: the longer one is the greater, and then the
first digits that differ decide. -/
theorem compare_valueOf (hx : Trimmed x) (hy : Trimmed y) :
    compareMagnitude x y = compare (valueOf x) (valueOf y) := by
  unfold compareMagnitude
  rw [byteLength_eq hx.1, byteLength_eq hy.1, compare_eq_compareLex, String.toList_ofList,
    String.toList_ofList]
  rcases lt_trichotomy x.length y.length with h | h | h
  · rw [compare_lt_iff_lt.2 h, compare_lt_iff_lt.2 (hx.lt_of_length_lt hy h)]
    rfl
  · rw [compare_eq_iff_eq.2 h, compareLex_eq_compare hx.1 hy.1 h]
    rfl
  · rw [compare_gt_iff_gt.2 h, compare_gt_iff_gt.2 (hy.lt_of_length_lt hx h)]
    rfl

lemma valueOf_dropWhile (x : List Char) : valueOf (x.dropWhile (· == '0')) = valueOf x := by
  induction x with
  | nil => rfl
  | cons c x ih =>
    by_cases hc : c = '0'
    · subst hc
      rw [List.dropWhile_cons_of_pos rfl, ih, valueOf_cons]
      simp [digit]
    · rw [List.dropWhile_cons_of_neg (by simpa using hc)]

lemma trimmed_dropWhile (h : isDigits x = true) : Trimmed (x.dropWhile (· == '0')) := by
  have hall : ∀ c ∈ x, c.isDigit = true := List.all_eq_true.1 (Bool.and_eq_true_iff.1 h).2
  refine ⟨fun c hc => hall c ((List.dropWhile_sublist _).subset hc), fun hzero => ?_⟩
  have hhead := List.head?_dropWhile_not (· == '0') x
  rw [hzero] at hhead
  cases hhead

lemma integer_of_sign (hs : s.toList = '-' :: x) : integer s = -(valueOf x : Int) := by
  simp only [integer, hs]

section Unsigned

variable (hs : ∀ x, s.toList ≠ '-' :: x)

include hs

lemma integer_of_no_sign : integer s = valueOf s.toList := by
  unfold integer
  split
  · next x hx => exact absurd hx (hs x)
  · rfl

lemma isNumeral_of_no_sign : isNumeral true s = isDigits s.toList := by
  unfold isNumeral
  split
  · next x hx => exact absurd hx (hs x)
  · rfl

lemma split_of_no_sign : split s = (false, s.toList.dropWhile (· == '0')) := by
  obtain hx | ⟨c, x, hx⟩ : s.toList = [] ∨ ∃ c x, s.toList = c :: x := by
    cases s.toList <;> simp
  · simp [split, hx]
  · have hc : c ≠ '-' := by
      rintro rfl
      exact hs x hx
    simp [split, hx, hc]

end Unsigned

lemma isDigit_of_mem_numeral (h : isNumeral true s = true) (hc : c ∈ s.toList) :
    c = '-' ∨ c.isDigit = true := by
  have hall : ∀ {cs : List Char}, isDigits cs = true → ∀ c ∈ cs, c.isDigit = true :=
    fun hcs => List.all_eq_true.1 (Bool.and_eq_true_iff.1 hcs).2
  unfold isNumeral at h
  split at h
  · next cs hs =>
    rw [hs] at hc
    obtain rfl | hc := List.mem_cons.1 hc
    · exact .inl rfl
    · exact .inr (hall (Bool.and_eq_true_iff.1 h).2 c hc)
  · exact .inr (hall h c hc)

lemma parseInt64?_of_isNumeral (h : isNumeral true s = true) :
    parseInt64? s = int64? (integer s) := by
  unfold isNumeral at h
  unfold parseInt64?
  split at h
  · next cs hs =>
    rw [integer_of_sign hs, hs]
    exact if_pos (Bool.and_eq_true_iff.1 h).2
  · next hsign =>
    rw [integer_of_no_sign hsign]
    split
    · next cs hs => exact absurd hs (hsign cs)
    · next cs hs =>
      -- a plus sign, which could be read as well, is no digit
      rw [hs] at h
      cases h
    · exact if_pos h

/-- The sign and the digits that a numeral is split into tell the integer, and zero has no sign. -/
lemma split_of_isNumeral (h : isNumeral true s = true) :
    ∃ negative x, split s = (negative, x) ∧ Trimmed x ∧
      integer s = (if negative then -(valueOf x : Int) else valueOf x) ∧
      (negative = true → x ≠ []) := by
  by_cases hsign : ∃ x, s.toList = '-' :: x
  · obtain ⟨x, hs⟩ := hsign
    have hdigits : isDigits x = true := by
      unfold isNumeral at h
      rw [hs] at h
      exact (Bool.and_eq_true_iff.1 h).2
    have hsplit : split s =
        (!(x.dropWhile (· == '0')).isEmpty, x.dropWhile (· == '0')) := by
      simp [split, hs]
    refine ⟨_, _, hsplit, trimmed_dropWhile hdigits, ?_, ?_⟩
    · rw [integer_of_sign hs, valueOf_dropWhile]
      split
      · rfl
      · next hempty =>
        -- the digits of a negative zero are all trimmed off
        have hnil : x.dropWhile (· == '0') = [] := by simpa using hempty
        rw [← valueOf_dropWhile, hnil]
        rfl
    · intro hnegative
      simpa using hnegative
  · have hs : ∀ x, s.toList ≠ '-' :: x := fun x hx => hsign ⟨x, hx⟩
    rw [isNumeral_of_no_sign hs] at h
    refine ⟨_, _, split_of_no_sign hs, trimmed_dropWhile h, ?_, nofun⟩
    rw [integer_of_no_sign hs, valueOf_dropWhile]
    rfl

lemma Trimmed.pos (h : Trimmed x) (hne : x ≠ []) : 0 < valueOf x := by
  obtain ⟨c, x, rfl⟩ := List.exists_cons_of_ne_nil hne
  exact Nat.lt_of_lt_of_le (Nat.pow_pos (by decide))
    (le_valueOf h.1 fun hc => h.2 (congrArg some hc))

/-- **The order of numerals is that of the integers they denote.** -/
theorem order_eq_compare (ha : isNumeral true a = true) (hb : isNumeral true b = true) :
    order a b = compare (integer a) (integer b) := by
  obtain ⟨m, x, hx, hxt, hxi, hm⟩ := split_of_isNumeral ha
  obtain ⟨n, y, hy, hyt, hyi, hn⟩ := split_of_isNumeral hb
  unfold order
  rw [hx, hy, hxi, hyi]
  cases m <;> cases n
  · show compareMagnitude x y = compare (valueOf x : Int) (valueOf y)
    rw [compare_valueOf hxt hyt]
    refine compareOfLessAndEq_congr ?_ ?_ <;> omega
  · have hpos := hyt.pos (hn rfl)
    have hlt : -(valueOf y : Int) < valueOf x := by omega
    exact (compare_gt_iff_gt.2 hlt).symm
  · have hpos := hxt.pos (hm rfl)
    have hlt : -(valueOf x : Int) < valueOf y := by omega
    exact (compare_lt_iff_lt.2 hlt).symm
  · show compareMagnitude y x = compare (-(valueOf x : Int)) (-(valueOf y : Int))
    rw [compare_valueOf hyt hxt]
    refine compareOfLessAndEq_congr ?_ ?_ <;> omega

lemma integer_toString (n : Int) :
    isNumeral true (toString n) = true ∧ integer (toString n) = n := by
  rw [Int.toString_eq_repr, Int.repr_eq_if]
  split
  · next hnonneg =>
    have hlist : n.toNat.repr.toList = Nat.toDigits 10 n.toNat := Nat.toList_repr
    have hsign : ∀ cs, n.toNat.repr.toList ≠ '-' :: cs := by
      intro cs hcs
      have hdigit := Nat.isDigit_of_mem_toDigits (b := 10) (n := n.toNat) (c := '-') (by decide)
        (by decide) (by rw [← hlist, hcs]; exact List.mem_cons_self)
      cases hdigit
    rw [isNumeral_of_no_sign hsign, integer_of_no_sign hsign, hlist, isDigits_toDigits,
      valueOf_toDigits]
    exact ⟨rfl, Int.toNat_of_nonneg hnonneg⟩
  · next hneg =>
    have hlist : ("-" ++ (-n).toNat.repr).toList = '-' :: Nat.toDigits 10 (-n).toNat := by
      rw [String.toList_append, Nat.toList_repr]
      rfl
    rw [integer_of_sign hlist, valueOf_toDigits]
    refine ⟨?_, by omega⟩
    unfold isNumeral
    rw [hlist]
    exact isDigits_toDigits ..

end Decimal

/-! ### Bytes -/

namespace Hex

variable {c c' : Char} {d d' : Nat} {x y : List Char} {xs ys : List UInt8}

lemma toLower_of_digit? (h : digit? c = some d) : d < 16 ∧ c.toLower = digitChar d := by
  have hascii : ∀ n < 128, ∀ d < 16, digit? (Char.ofNat n) = some d →
      (Char.ofNat n).toLower = digitChar d := by decide +kernel
  have hbounds : ∀ n < 128, ∀ d ∈ digit? (Char.ofNat n), d < 16 := by decide +kernel
  have hc : c.toNat < 128 := by
    unfold digit? at h
    simp only [Char.le_def, UInt32.le_iff_toNat_le] at h
    have h9 : ('9' : Char).val.toNat = 57 := rfl
    have hf : ('f' : Char).val.toNat = 102 := rfl
    have hF : ('F' : Char).val.toNat = 70 := rfl
    have htoNat : c.toNat = c.val.toNat := rfl
    split at h
    · omega
    · split at h
      · omega
      · split at h
        · omega
        · cases h
  rw [← Char.ofNat_toNat c] at h ⊢
  have hd := hbounds _ hc d h
  exact ⟨hd, hascii _ hc d hd h⟩

lemma compare_toLower (h : digit? c = some d) (h' : digit? c' = some d') :
    compare c.toLower c'.toLower = compare d d' := by
  have hdigits : ∀ d < 16, ∀ d' < 16,
      compare (digitChar d) (digitChar d') = compare d d' := by decide +kernel
  obtain ⟨hd, hc⟩ := toLower_of_digit? h
  obtain ⟨hd', hc'⟩ := toLower_of_digit? h'
  rw [hc, hc']
  exact hdigits d hd d' hd'

lemma compare_byte {h h' l l' : Nat} (hh : h < 16) (hh' : h' < 16) (hl : l < 16) (hl' : l' < 16) :
    compare (UInt8.ofNat (16 * h + l)) (UInt8.ofNat (16 * h' + l')) =
      (compare h h').then (compare l l') := by
  have hbyte : compare (UInt8.ofNat (16 * h + l)) (UInt8.ofNat (16 * h' + l')) =
      compare (16 * h + l) (16 * h' + l') := by
    have htoNat : (UInt8.ofNat (16 * h + l)).toNat = 16 * h + l :=
      UInt8.toNat_ofNat_of_lt' (by show _ < 256; omega)
    have htoNat' : (UInt8.ofNat (16 * h' + l')).toNat = 16 * h' + l' :=
      UInt8.toNat_ofNat_of_lt' (by show _ < 256; omega)
    refine compareOfLessAndEq_congr ?_ ?_
    · rw [UInt8.lt_iff_toNat_lt, htoNat, htoNat']
    · rw [← UInt8.toNat_inj, htoNat, htoNat']
  rw [hbyte]
  rcases lt_trichotomy h h' with hlt | rfl | hgt
  · rw [compare_lt_iff_lt.2 hlt]
    exact compare_lt_iff_lt.2 (by omega)
  · rw [compare_eq_iff_eq.2 rfl]
    refine compareOfLessAndEq_congr ?_ ?_ <;> omega
  · rw [compare_gt_iff_gt.2 hgt]
    exact compare_gt_iff_gt.2 (show _ < _ by omega)

lemma decodeChars?_cons_cons {cs : List Char} :
    decodeChars? (c :: c' :: cs) = some xs ↔
      ∃ d d' rest, digit? c = some d ∧ digit? c' = some d' ∧ decodeChars? cs = some rest ∧
        xs = UInt8.ofNat (16 * d + d') :: rest := by
  simp [decodeChars?, Option.bind_eq_some_iff, eq_comm (a := xs)]

/-- **Digits in lower case are compared as the bytes are.** -/
theorem compareLex_toLower (hx : decodeChars? x = some xs) (hy : decodeChars? y = some ys) :
    (x.map Char.toLower).compareLex compare (y.map Char.toLower) = compare xs ys := by
  fun_induction decodeChars? x generalizing xs y ys with
  | case1 =>
    obtain rfl := Option.some.inj hx
    obtain _ | ⟨c, _ | ⟨c', cs⟩⟩ := y
    · obtain rfl := Option.some.inj hy
      rfl
    · cases hy
    · obtain ⟨d, d', rest, -, -, -, rfl⟩ := decodeChars?_cons_cons.1 hy
      rfl
  | case2 => cases hx
  | case3 c c' cs ih =>
    obtain ⟨d, d', rest, hd, hd', hrest, rfl⟩ := decodeChars?_cons_cons.1 hx
    obtain _ | ⟨e, _ | ⟨e', es⟩⟩ := y
    · obtain rfl := Option.some.inj hy
      rfl
    · cases hy
    · obtain ⟨f, f', rest', hf, hf', hrest', rfl⟩ := decodeChars?_cons_cons.1 hy
      have hbyte := compare_byte (toLower_of_digit? hd).1 (toLower_of_digit? hf).1
        (toLower_of_digit? hd').1 (toLower_of_digit? hf').1
      simp only [List.map_cons]
      rw [List.compareLex_cons_cons, List.compareLex_cons_cons, ih hrest hrest',
        compare_toLower hd hf, compare_toLower hd' hf', ← Ordering.then_assoc, ← hbyte]
      exact List.compareLex_cons_cons.symm

end Hex

end Lineage
