import Mathlib.Data.List.Induction
import Lineage.Calendar.Timestamp
import Lineage.Proofs.Calendar.Date
import Lineage.Proofs.Text.Comparison

/-!
# Moments and their texts

A moment is a timestamp in UTC to the second, in the years that have four digits. Moments and instants
in whole seconds determine each other (`isMoment_ofUnix`, `IsMoment.eq_ofUnix`), and a moment is read
from its text (`parse?_render`). A text of an instant is one that has the form of such a text and is
read as a moment of this instant (`IsTextOf`). There is exactly one within the bounds of these years
and none elsewhere (`isTextOf_iff`).

Integer timestamps are shown as these texts, but for the last instant that has one, and as themselves
elsewhere (`textOfNumeral_eq`).
-/

namespace Lineage

namespace Timestamp

/-- **Moments**: timestamps of the calendar in UTC without fraction, in the years 0 to 9999. -/
structure IsMoment (t : Timestamp) : Prop where
  valid : t.isValid = true
  year_nonneg : 0 ≤ t.date.year
  year_le : t.date.year ≤ 9999
  whole : t.nanosecond = 0
  utc : t.offsetMinutes = 0

def first : Timestamp := ⟨⟨0, 1, 1⟩, 0, 0, 0, 0, 0⟩

def last : Timestamp := ⟨⟨9999, 12, 31⟩, 23, 59, 59, 0, 0⟩

variable {t t' : Timestamp} {n : Int} {a b : String}

/-! ### Instants -/

lemma isValid_iff : t.isValid = true ↔
    t.date.isValid = true ∧ t.hour ≤ 23 ∧ t.minute ≤ 59 ∧ t.second ≤ 59 := by
  simp [isValid, and_assoc]

lemma toUnix_first : first.toUnix = -62167219200 := by decide

lemma toUnix_last : last.toUnix = 253402300799 := by decide

theorem toUnix_ofUnix (n : Int) : (ofUnix n).toUnix = n := by
  unfold toUnix ofUnix
  dsimp only
  rw [Date.toDays_ofDays]
  omega

lemma year_nonneg_iff : 0 ≤ (ofUnix n).date.year ↔ first.toUnix ≤ n := by
  have hyear : 0 ≤ (ofUnix n).date.year ↔ Date.toDays ⟨0, 1, 1⟩ ≤ n / 86400 := Date.le_year_ofDays
  rw [show Date.toDays ⟨0, 1, 1⟩ = -719528 by decide] at hyear
  rw [toUnix_first]
  omega

lemma year_le_iff : (ofUnix n).date.year ≤ 9999 ↔ n ≤ last.toUnix := by
  have hyear : 10000 ≤ (ofUnix n).date.year ↔ Date.toDays ⟨10000, 1, 1⟩ ≤ n / 86400 :=
    Date.le_year_ofDays
  rw [show Date.toDays ⟨10000, 1, 1⟩ = 2932897 by decide] at hyear
  rw [toUnix_last]
  omega

/-- **The instants of moments.** -/
theorem isMoment_ofUnix : (ofUnix n).IsMoment ↔ first.toUnix ≤ n ∧ n ≤ last.toUnix := by
  rw [← year_nonneg_iff, ← year_le_iff]
  constructor
  · exact fun h => ⟨h.year_nonneg, h.year_le⟩
  · rintro ⟨hnonneg, hle⟩
    refine ⟨isValid_iff.2 ⟨Date.isValid_ofDays _, ?_, ?_, ?_⟩, hnonneg, hle, rfl, rfl⟩ <;>
      (unfold ofUnix; dsimp only; omega)

/-- A moment is the one of its instant. -/
theorem IsMoment.eq_ofUnix (h : t.IsMoment) : ofUnix t.toUnix = t := by
  obtain ⟨date, hour, minute, second, nanosecond, offset⟩ := t
  obtain ⟨hdate, hhour, hminute, hsecond⟩ := isValid_iff.1 h.valid
  obtain rfl : nanosecond = 0 := h.whole
  obtain rfl : offset = 0 := h.utc
  dsimp only at hdate hhour hminute hsecond
  unfold ofUnix toUnix
  dsimp only
  have hdays : (86400 * date.toDays + 3600 * hour + 60 * minute + second - 60 * 0) / 86400 =
      date.toDays := by omega
  have hclock : ((86400 * date.toDays + 3600 * hour + 60 * minute + second - 60 * 0) % 86400).toNat =
      3600 * hour + 60 * minute + second := by omega
  rw [hdays, hclock, Date.ofDays_toDays hdate]
  congr 1 <;> omega

/-! ### Digits -/

section Digits

variable {k x : Nat} {cs : List Char}

lemma toNat_digitChar (x : Nat) : (Char.ofNat ('0'.toNat + x % 10)).toNat = 48 + x % 10 := by
  have hall : ∀ d < 10, (Char.ofNat ('0'.toNat + d)).toNat = 48 + d := by decide
  exact hall _ (Nat.mod_lt x (by decide))

lemma length_padded (k x : Nat) : (padded k x).length = k := by
  induction k generalizing x with
  | zero => rfl
  | succ k ih => rw [padded, List.length_append, ih, List.length_singleton]

lemma isDigit_of_mem_padded {c : Char} (h : c ∈ padded k x) : c.isDigit = true := by
  induction k generalizing x with
  | zero => cases h
  | succ k ih =>
    obtain h | h := List.mem_append.1 h
    · exact ih h
    · obtain rfl := List.mem_singleton.1 h
      rw [Decimal.isDigit_iff, toNat_digitChar]
      omega

lemma valueOf_concat (cs : List Char) (c : Char) :
    Decimal.valueOf (cs ++ [c]) = 10 * Decimal.valueOf cs + (c.toNat - 48) := by
  unfold Decimal.valueOf
  rw [List.foldl_append]
  rfl

lemma valueOf_padded (k x : Nat) : Decimal.valueOf (padded k x) = x % 10 ^ k := by
  induction k generalizing x with
  | zero => rw [Nat.pow_zero, Nat.mod_one]; rfl
  | succ k ih =>
    rw [padded, valueOf_concat, ih, toNat_digitChar, Nat.pow_succ', Nat.mod_mul]
    omega

lemma padded_valueOf (h : ∀ c ∈ cs, c.isDigit = true) :
    padded cs.length (Decimal.valueOf cs) = cs := by
  induction cs using List.reverseRecOn with
  | nil => rfl
  | append_singleton cs c ih =>
    obtain ⟨hcs, hc⟩ := List.forall_mem_append.1 h
    have hbounds := Decimal.isDigit_iff.1 (hc c (List.mem_singleton_self c))
    have hlast : Char.ofNat ('0'.toNat + (10 * Decimal.valueOf cs + (c.toNat - 48)) % 10) = c := by
      rw [← Char.toNat_inj, toNat_digitChar]
      omega
    have hdiv : (10 * Decimal.valueOf cs + (c.toNat - 48)) / 10 = Decimal.valueOf cs := by omega
    rw [List.length_append, List.length_singleton, valueOf_concat, padded, hlast, hdiv, ih hcs]

/-- **Digits that are read** are the padded form of what they are read as. -/
lemma readDigits?_eq_some_iff {rest : List Char} :
    readDigits? k cs = some (x, rest) ↔ x < 10 ^ k ∧ cs = padded k x ++ rest := by
  unfold readDigits?
  dsimp only
  constructor
  · intro h
    rw [Option.ite_none_right_eq_some, Option.some.injEq, Prod.mk.injEq] at h
    obtain ⟨⟨hlength, hdigits⟩, rfl, rfl⟩ := h
    have hall : ∀ c ∈ cs.take k, c.isDigit = true := List.all_eq_true.1 hdigits
    have hlt := Decimal.valueOf_lt hall
    have hpadded := padded_valueOf hall
    rw [hlength] at hlt hpadded
    exact ⟨hlt, by rw [hpadded, List.take_append_drop]⟩
  · rintro ⟨hx, rfl⟩
    have htake : (padded k x ++ rest).take k = padded k x := List.take_left' (length_padded k x)
    have hdrop : (padded k x ++ rest).drop k = rest := List.drop_left' (length_padded k x)
    rw [htake, hdrop, valueOf_padded, Nat.mod_eq_of_lt hx,
      if_pos ⟨length_padded k x, List.all_eq_true.2 fun c => isDigit_of_mem_padded⟩]

end Digits

/-! ### Texts -/

lemma IsMoment.toList_render (h : t.IsMoment) :
    t.render.toList = padded 4 t.date.year.toNat ++ '-' :: (padded 2 t.date.month ++ '-' ::
      (padded 2 t.date.day ++ 'T' :: (padded 2 t.hour ++ ':' :: (padded 2 t.minute ++ ':' ::
        (padded 2 t.second ++ ['Z']))))) := by
  unfold render fractionText offsetText
  rw [String.toList_ofList, h.whole, h.utc, if_pos rfl, if_pos rfl]
  simp only [List.append_assoc, List.cons_append, List.append_nil]

lemma day_le_31 {d : Date} (h : d.isValid = true) : d.month ≤ 12 ∧ d.day ≤ 31 := by
  have hall : ∀ leap, ∀ month < 13,
      Date.daysBeforeMonth leap (month + 1) - Date.daysBeforeMonth leap month ≤ 31 := by
    decide
  unfold Date.isValid Date.monthLength at h
  simp only [Bool.and_eq_true, decide_eq_true_eq] at h
  obtain ⟨⟨⟨-, hmonth⟩, -⟩, hday⟩ := h
  exact ⟨hmonth, hday.trans (hall _ _ (by omega))⟩

/-! ### Reading -/

section Reading

variable {c : Char} {cs rest : List Char} {s : String}

lemma readChar?_eq_some_iff : readChar? c cs = some rest ↔ cs = c :: rest := by
  cases cs with
  | nil => simp [readChar?]
  | cons d cs => simp [readChar?]

lemma readSeparator?_eq_some_iff :
    readSeparator? cs = some rest ↔ ∃ c : Char, c.toNat < 128 ∧ cs = c :: rest := by
  cases cs with
  | nil => simp [readSeparator?]
  | cons c cs =>
    unfold readSeparator?
    rw [Option.ite_none_right_eq_some, Option.some.injEq]
    constructor
    · rintro ⟨hc, rfl⟩
      exact ⟨c, hc, rfl⟩
    · rintro ⟨d, hd, h⟩
      cases h
      exact ⟨hd, rfl⟩

section Bind

variable {α : Type} {a : α}

lemma bind_readDigits? {k : Nat} {f : Nat × List Char → Option α} :
    (readDigits? k cs >>= f) = some a ↔
      ∃ x rest, x < 10 ^ k ∧ cs = padded k x ++ rest ∧ f (x, rest) = some a := by
  simp only [Option.bind_eq_bind, Option.bind_eq_some_iff, Prod.exists, readDigits?_eq_some_iff,
    and_assoc]

lemma bind_readChar? {f : List Char → Option α} :
    (readChar? c cs >>= f) = some a ↔ ∃ rest, cs = c :: rest ∧ f rest = some a := by
  simp only [Option.bind_eq_bind, Option.bind_eq_some_iff, readChar?_eq_some_iff]

lemma bind_readSeparator? {f : List Char → Option α} :
    (readSeparator? cs >>= f) = some a ↔
      ∃ (c : Char) (rest : List Char), c.toNat < 128 ∧ cs = c :: rest ∧ f rest = some a := by
  simp only [Option.bind_eq_bind, Option.bind_eq_some_iff, readSeparator?_eq_some_iff]
  grind

end Bind

/-- **How a text is read**: its numbers stand in fixed places, the fraction and the offset follow, and
the timestamp that results is one of the calendar. Of a sixtieth second, only the last nanosecond
before it is taken. -/
theorem parse?_eq_some_iff :
    parse? s = some t ↔
      ∃ (year month day hour minute second nanosecond : Nat) (separator : Char)
        (tail zone : List Char) (offset : Int),
        s.toList = padded 4 year ++ '-' :: (padded 2 month ++ '-' :: (padded 2 day ++ separator ::
          (padded 2 hour ++ ':' :: (padded 2 minute ++ ':' :: (padded 2 second ++ tail))))) ∧
        year < 10 ^ 4 ∧ month < 100 ∧ day < 100 ∧ separator.toNat < 128 ∧ hour < 100 ∧
        minute < 100 ∧ second < 100 ∧ readFraction? tail = some (nanosecond, zone) ∧
        readOffset? zone = some offset ∧
        (second ≠ 60 ∧ t = ⟨⟨year, month, day⟩, hour, minute, second, nanosecond, offset⟩ ∧
            t.isValid = true ∨
          second = 60 ∧ t = ⟨⟨year, month, day⟩, hour, minute, 59, 999999999, offset⟩ ∧
            t.isValid = true ∧ t.endsMonth = true) := by
  unfold parse?
  -- from the outside, because what is read first is found behind it
  simp only [↓bind_readDigits?, ↓bind_readChar?, ↓bind_readSeparator?]
  constructor
  · rintro ⟨year, _, hyear, htext, _, rfl, month, _, hmonth, rfl, _, rfl, day, _, hday, rfl, separator,
      _, hseparator, rfl, hour, _, hhour, rfl, _, rfl, minute, _, hminute, rfl, _, rfl, second, tail,
      hsecond, rfl, hbehind⟩
    obtain ⟨⟨nanosecond, zone⟩, hfraction, hbehind'⟩ := Option.bind_eq_some_iff.1 hbehind
    obtain ⟨offset, hoffset, hresult⟩ := Option.bind_eq_some_iff.1 hbehind'
    refine ⟨year, month, day, hour, minute, second, nanosecond, separator, tail, zone, offset, htext,
      hyear, hmonth, hday, hseparator, hhour, hminute, hsecond, hfraction, hoffset, ?_⟩
    dsimp only at hresult
    split at hresult
    · next hleap =>
      obtain ⟨hvalid, hsome⟩ := Option.ite_none_right_eq_some.1 hresult
      obtain rfl := Option.some.inj hsome
      exact .inr ⟨hleap, rfl, Bool.and_eq_true_iff.1 hvalid⟩
    · next hleap =>
      obtain ⟨hvalid, hsome⟩ := Option.ite_none_right_eq_some.1 hresult
      obtain rfl := Option.some.inj hsome
      exact .inl ⟨hleap, rfl, hvalid⟩
  · rintro ⟨year, month, day, hour, minute, second, nanosecond, separator, tail, zone, offset, htext,
      hyear, hmonth, hday, hseparator, hhour, hminute, hsecond, hfraction, hoffset, hresult⟩
    refine ⟨year, _, hyear, htext, _, rfl, month, _, hmonth, rfl, _, rfl, day, _, hday, rfl, separator,
      _, hseparator, rfl, hour, _, hhour, rfl, _, rfl, minute, _, hminute, rfl, _, rfl, second, tail,
      hsecond, rfl, ?_⟩
    refine Option.bind_eq_some_iff.2 ⟨_, hfraction, Option.bind_eq_some_iff.2 ⟨_, hoffset, ?_⟩⟩
    dsimp only
    obtain ⟨hleap, rfl, hvalid⟩ | ⟨hleap, rfl, hvalid, hends⟩ := hresult
    · rw [if_neg hleap, if_pos hvalid]
    · rw [if_pos hleap, if_pos (Bool.and_eq_true_iff.2 ⟨hvalid, hends⟩)]

end Reading

/-- **A moment is read from its text.** -/
theorem IsMoment.parse?_render (h : t.IsMoment) : parse? t.render = some t := by
  obtain ⟨hdate, hhour, hminute, hsecond⟩ := isValid_iff.1 h.valid
  obtain ⟨hmonth, hday⟩ := day_le_31 hdate
  have hyear := h.year_le
  have ht : t = ⟨⟨t.date.year.toNat, t.date.month, t.date.day⟩, t.hour, t.minute, t.second, 0, 0⟩ := by
    rw [Int.toNat_of_nonneg h.year_nonneg, ← h.whole, ← h.utc]
  exact parse?_eq_some_iff.2 ⟨_, _, _, _, _, _, 0, 'T', ['Z'], ['Z'], 0, h.toList_render, by omega,
    by omega, by omega, by decide, by omega, by omega, by omega, rfl, rfl,
    .inl ⟨by omega, ht, h.valid⟩⟩

/-! ### The text of an instant -/

/-- A zero for a digit. -/
def zeroed (c : Char) : Char := if c.isDigit then '0' else c

/-- The text with a zero for every digit. -/
def mask (s : String) : String := s.map zeroed

/-- **The text of an instant**: it has the form of a date and a time of day in UTC to the second, and
is read as the moment `n` seconds after the epoch. -/
def IsTextOf (n : Int) (text : String) : Prop :=
  mask text = "0000-00-00T00:00:00Z" ∧ ∃ t, parse? text = some t ∧ t.IsMoment ∧ t.toUnix = n

section Mask

variable {c : Char} {k x : Nat} {text : String}

lemma map_padded : (padded k x).map zeroed = List.replicate k '0' := by
  rw [List.eq_replicate_iff, List.length_map]
  refine ⟨length_padded k x, fun c hc => ?_⟩
  obtain ⟨d, hd, rfl⟩ := List.mem_map.1 hc
  exact if_pos (isDigit_of_mem_padded hd)

lemma zeroed_eq_iff {d : Char} (hc : c.isDigit = false) : zeroed d = c ↔ d = c := by
  unfold zeroed
  split
  · next hd =>
    refine iff_of_false ?_ ?_ <;> rintro rfl
    · cases hc
    · rw [hd] at hc
      cases hc
  · exact Iff.rfl

lemma IsMoment.mask_render (h : t.IsMoment) : mask t.render = "0000-00-00T00:00:00Z" := by
  unfold mask
  rw [← String.toList_inj, String.toList_map, h.toList_render]
  simp only [List.map_append, List.map_cons, List.map_nil, map_padded]
  rfl

/-- What is read as a moment and has the form of its text is its text. -/
lemma render_of_parse? (hparse : parse? text = some t)
    (hmask : mask text = "0000-00-00T00:00:00Z") (ht : t.IsMoment) : t.render = text := by
  obtain ⟨year, month, day, hour, minute, second, nanosecond, separator, tail, zone, offset, htext, -,
    -, -, -, -, -, -, -, -, hresult⟩ := parse?_eq_some_iff.1 hparse
  have hform : text.toList.map zeroed =
      List.replicate 4 '0' ++ '-' :: (List.replicate 2 '0' ++ '-' :: (List.replicate 2 '0' ++ 'T' ::
        (List.replicate 2 '0' ++ ':' :: (List.replicate 2 '0' ++ ':' :: (List.replicate 2 '0' ++
          ['Z']))))) := by
    rw [← String.toList_map]
    exact congrArg String.toList hmask
  rw [htext] at hform
  simp only [List.map_append, List.map_cons, map_padded, List.append_cancel_left_eq,
    List.cons.injEq, List.map_eq_singleton_iff, @zeroed_eq_iff 'T' _ rfl, @zeroed_eq_iff 'Z' _ rfl]
    at hform
  obtain ⟨-, -, rfl, -, -, _, rfl, rfl⟩ := hform
  obtain ⟨-, rfl, -⟩ | ⟨-, rfl, -⟩ := hresult
  · rw [← String.toList_inj, ht.toList_render, htext]
    rfl
  · -- a leap second is read as a fraction of the second before it
    exact absurd ht.whole (by simp)

/-- **An instant has one text**, which is the written form of its moment, if it has any. -/
theorem isTextOf_iff : IsTextOf n text ↔ (ofUnix n).IsMoment ∧ text = (ofUnix n).render := by
  constructor
  · rintro ⟨hmask, t, hparse, ht, rfl⟩
    rw [ht.eq_ofUnix]
    exact ⟨ht, (render_of_parse? hparse hmask ht).symm⟩
  · rintro ⟨ht, rfl⟩
    exact ⟨ht.mask_render, _, ht.parse?_render, ht, toUnix_ofUnix n⟩

lemma not_isTextOf_numeral (h : Decimal.isNumeral true text = true) : ¬ IsTextOf n text := by
  rintro ⟨hmask, -⟩
  have hmem : 'T' ∈ (mask text).toList := by
    rw [hmask]
    decide
  unfold mask at hmem
  rw [String.toList_map] at hmem
  obtain ⟨c, hc, hT⟩ := List.mem_map.1 hmem
  obtain rfl := (zeroed_eq_iff rfl).1 hT
  obtain hsign | hdigit := Decimal.isDigit_of_mem_numeral h hc
  · cases hsign
  · cases hdigit

lemma IsTextOf.exists_parse? (h : IsTextOf n text) :
    ∃ t, parse? text = some t ∧ t.render = text ∧ t.toUnix = n := by
  obtain ⟨hmask, t, hparse, ht, hunix⟩ := h
  exact ⟨t, hparse, render_of_parse? hparse hmask ht, hunix⟩

end Mask

/-! ### Integer timestamps -/

/-- A text shows an integer timestamp as it should: as the text of the instant, from the first to the
last one that has a text, and as the numeral itself elsewhere. -/
def Shows (numeral text : String) : Prop :=
  if first.toUnix ≤ Decimal.integer numeral ∧ Decimal.integer numeral ≤ last.toUnix then
    IsTextOf (Decimal.integer numeral) text
  else text = numeral

section Numerals

variable {numeral : String} (h : Decimal.isNumeral true numeral = true)

include h

/-- The text of an integer timestamp. -/
theorem textOfNumeral_eq :
    textOfNumeral numeral =
      if first.toUnix ≤ Decimal.integer numeral ∧ Decimal.integer numeral < last.toUnix then
        (ofUnix (Decimal.integer numeral)).render
      else numeral := by
  generalize hn : Decimal.integer numeral = n
  unfold textOfNumeral
  rw [Decimal.parseInt64?_of_isNumeral h, hn]
  unfold Decimal.int64?
  by_cases hfits : Decimal.FitsInt64 n
  · have hcondition : firstUnrenderable ≤ n ∨ (ofUnix n).date.year < 0 ↔
        ¬ (first.toUnix ≤ n ∧ n < last.toUnix) := by
      have hyear := year_nonneg_iff (n := n)
      have hend : firstUnrenderable = last.toUnix := rfl
      omega
    rw [if_pos hfits]
    dsimp only
    rw [if_congr hcondition rfl rfl, ite_not]
  · rw [if_neg hfits]
    refine (if_neg ?_).symm
    rintro ⟨hfirst, hlast⟩
    rw [toUnix_first] at hfirst
    rw [toUnix_last] at hlast
    exact hfits ⟨by omega, by omega⟩

/-- **Integer timestamps are shown as they should be**, but for one: the last instant that has a text
is shown as its numeral. -/
theorem shows_textOfNumeral_iff :
    Shows numeral (textOfNumeral numeral) ↔ Decimal.integer numeral ≠ last.toUnix := by
  unfold Shows
  rw [textOfNumeral_eq h]
  generalize hn : Decimal.integer numeral = n
  constructor
  · rintro hshows rfl
    rw [if_pos ⟨by decide, le_refl _⟩, if_neg fun hlt => lt_irrefl _ hlt.2] at hshows
    exact not_isTextOf_numeral h hshows
  · intro hne
    by_cases hrange : first.toUnix ≤ n ∧ n ≤ last.toUnix
    · rw [if_pos hrange, if_pos ⟨hrange.1, lt_of_le_of_ne hrange.2 hne⟩]
      exact isTextOf_iff.2 ⟨isMoment_ofUnix.2 hrange, rfl⟩
    · rw [if_neg hrange, if_neg fun hlt => hrange ⟨hlt.1, hlt.2.le⟩]

lemma isTextOf_textOfNumeral (hne : textOfNumeral numeral ≠ numeral) :
    IsTextOf (Decimal.integer numeral) (textOfNumeral numeral) := by
  rw [textOfNumeral_eq h] at hne ⊢
  split at hne
  · next hrange =>
    rw [if_pos hrange]
    exact isTextOf_iff.2 ⟨isMoment_ofUnix.2 ⟨hrange.1, hrange.2.le⟩, rfl⟩
  · exact absurd rfl hne

end Numerals

end Timestamp

end Lineage
