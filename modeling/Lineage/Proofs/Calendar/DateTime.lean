import Mathlib.Data.List.TakeWhile
import Lineage.Proofs.Calendar.Timestamp

/-!
# Texts of dates and times

The grammar of RFC 3339: a date, a time of day that may have a fraction and an offset from UTC, all
with a fixed number of digits and within the calendar (`IsDateTime`). What separates the date from
the time is read as widely as the note in section 5.6 permits. These are the texts that are read as
timestamps (`isSome_parse?_iff`).
-/

namespace Lineage

namespace Timestamp

/-- A fraction of a second: nothing, or digits behind a point. -/
def IsFraction (cs : List Char) : Prop :=
  cs = [] ∨ ∃ digits, digits ≠ [] ∧ (∀ c ∈ digits, c.isDigit = true) ∧ cs = '.' :: digits

/-- An offset from UTC, with what it is in minutes. -/
inductive IsOffset : List Char → Int → Prop
  | upper : IsOffset ['Z'] 0
  | lower : IsOffset ['z'] 0
  | ahead {hours minutes : Nat} (hhours : hours ≤ 23) (hminutes : minutes ≤ 59) :
      IsOffset ('+' :: (padded 2 hours ++ ':' :: padded 2 minutes)) (60 * hours + minutes)
  | behind {hours minutes : Nat} (hhours : hours ≤ 23) (hminutes : minutes ≤ 59) :
      IsOffset ('-' :: (padded 2 hours ++ ':' :: padded 2 minutes)) (-(60 * hours + minutes))

/-- **The texts of RFC 3339, read widely.** The grammar has a `T` between the date and the time, and
the note in section 5.6 permits other separators for the sake of legibility. As the `time` library
reads the note, any ASCII character will do. A sixtieth second is one before a month begins in
UTC. -/
def IsDateTime (s : String) : Prop :=
  ∃ (date : Date) (hour minute second : Nat) (separator : Char) (fraction zone : List Char)
    (offset : Int),
    s.toList = padded 4 date.year.toNat ++ '-' :: (padded 2 date.month ++ '-' ::
      (padded 2 date.day ++ separator :: (padded 2 hour ++ ':' :: (padded 2 minute ++ ':' ::
        (padded 2 second ++ (fraction ++ zone)))))) ∧
    (0 ≤ date.year ∧ date.year ≤ 9999) ∧ date.isValid = true ∧ separator.toNat < 128 ∧
    hour ≤ 23 ∧ minute ≤ 59 ∧ IsFraction fraction ∧ IsOffset zone offset ∧
    (second ≤ 59 ∨ second = 60 ∧ ∃ first : Date, first.isValid = true ∧ first.day = 1 ∧
      86400 * date.toDays + 3600 * hour + 60 * minute + 60 - 60 * offset = 86400 * first.toDays)

variable {t : Timestamp} {s : String} {cs zone rest : List Char} {offset : Int}

lemma endsMonth_iff : t.endsMonth = true ↔
    ∃ first : Date, first.isValid = true ∧ first.day = 1 ∧ t.toUnix + 1 = 86400 * first.toDays := by
  unfold endsMonth
  dsimp only
  rw [Bool.and_eq_true, decide_eq_true_eq, decide_eq_true_eq]
  constructor
  · rintro ⟨hmod, hday⟩
    refine ⟨_, Date.isValid_ofDays _, hday, ?_⟩
    rw [Date.toDays_ofDays]
    omega
  · rintro ⟨first, hvalid, hday, hnext⟩
    have hdays : (t.toUnix + 1) / 86400 = first.toDays := by omega
    rw [hdays, Date.ofDays_toDays hvalid]
    exact ⟨by omega, hday⟩

lemma exists_of_readFraction? {n : Nat} (h : readFraction? cs = some (n, rest)) :
    ∃ fraction, IsFraction fraction ∧ cs = fraction ++ rest := by
  unfold readFraction? at h
  split at h
  · next cs =>
    dsimp only at h
    split at h
    · cases h
    · next hne =>
      cases h
      refine ⟨'.' :: cs.takeWhile Char.isDigit, .inr ⟨_, by simpa using hne, ?_, rfl⟩, ?_⟩
      · exact fun c hc => List.mem_takeWhile_imp hc
      · rw [List.cons_append, List.takeWhile_append_dropWhile]
  · cases h
    exact ⟨[], .inl rfl, rfl⟩

lemma readOffset?_of_sign {sign : Char} {hours minutes : Nat} (hsign : sign = '+' ∨ sign = '-')
    (hhours : hours ≤ 23) (hminutes : minutes ≤ 59) :
    readOffset? (sign :: (padded 2 hours ++ ':' :: padded 2 minutes)) =
      some (if sign = '+' then (60 * hours + minutes : Int) else -(60 * hours + minutes)) := by
  obtain rfl | rfl := hsign <;>
  · refine bind_readDigits?.2 ⟨hours, _, by omega, rfl, ?_⟩
    refine bind_readChar?.2 ⟨_, rfl, ?_⟩
    refine bind_readDigits?.2 ⟨minutes, [], by omega, (List.append_nil _).symm, ?_⟩
    exact if_pos ⟨rfl, hhours, hminutes⟩

lemma readOffset?_eq_some_iff : readOffset? cs = some offset ↔ IsOffset cs offset := by
  constructor
  · intro h
    unfold readOffset? at h
    split at h
    · cases h
      exact .upper
    · cases h
      exact .lower
    · next sign cs _ _ =>
      simp only [↓bind_readDigits?, ↓bind_readChar?] at h
      obtain ⟨hours, _, -, rfl, _, rfl, minutes, _, -, rfl, hresult⟩ := h
      obtain ⟨⟨hend, hhours, hminutes⟩, hsigned⟩ := Option.ite_none_right_eq_some.1 hresult
      obtain rfl := List.isEmpty_iff.1 hend
      rw [List.append_nil]
      split at hsigned
      · next hsign =>
        obtain rfl := Option.some.inj hsigned
        rw [hsign]
        exact .ahead hhours hminutes
      · obtain ⟨rfl, hbehind⟩ := Option.ite_none_right_eq_some.1 hsigned
        obtain rfl := Option.some.inj hbehind
        exact .behind hhours hminutes
    · cases h
  · intro h
    cases h with
    | upper => rfl
    | lower => rfl
    | ahead hhours hminutes => exact readOffset?_of_sign (.inl rfl) hhours hminutes
    | behind hhours hminutes => exact readOffset?_of_sign (.inr rfl) hhours hminutes

/-- An offset begins with no digit and no point. -/
lemma IsOffset.exists_cons (h : IsOffset zone offset) :
    ∃ c cs, zone = c :: cs ∧ c.isDigit = false ∧ c ≠ '.' := by
  cases h with
  | upper | lower | ahead | behind => exact ⟨_, _, rfl, rfl, by decide⟩

lemma readFraction?_append {fraction : List Char} (h : IsFraction fraction)
    (hzone : IsOffset zone offset) : ∃ n, readFraction? (fraction ++ zone) = some (n, zone) := by
  obtain ⟨c, cs, rfl, hc, hpoint⟩ := hzone.exists_cons
  obtain rfl | ⟨digits, hne, hdigits, rfl⟩ := h
  · refine ⟨0, ?_⟩
    unfold readFraction?
    split
    · next h =>
      cases h
      exact absurd rfl hpoint
    · rfl
  · have htake : (digits ++ c :: cs).takeWhile Char.isDigit = digits := by
      rw [List.takeWhile_append_of_pos hdigits, List.takeWhile_cons_of_neg (by simp [hc]),
        List.append_nil]
    have hdrop : (digits ++ c :: cs).dropWhile Char.isDigit = c :: cs := by
      rw [List.dropWhile_append_of_pos hdigits, List.dropWhile_cons_of_neg (by simp [hc])]
    rw [List.cons_append]
    generalize digits ++ c :: cs = tail at htake hdrop
    unfold readFraction?
    split
    · next h =>
      cases h
      dsimp only
      rw [htake, hdrop, if_neg (by simpa using hne)]
      exact ⟨_, rfl⟩
    · next h => exact absurd rfl (h tail)

lemma isDateTime_of_parse? (h : parse? s = some t) : IsDateTime s := by
  obtain ⟨year, month, day, hour, minute, second, nanosecond, separator, tail, zone, offset, htext,
    hyear, -, -, hseparator, -, -, -, hread, hzone, hresult⟩ := parse?_eq_some_iff.1 h
  obtain ⟨fraction, hfraction, rfl⟩ := exists_of_readFraction? hread
  refine ⟨⟨year, month, day⟩, hour, minute, second, separator, fraction, zone, offset, htext,
    ⟨Int.natCast_nonneg year, by dsimp only; omega⟩, ?_⟩
  rw [readOffset?_eq_some_iff] at hzone
  obtain ⟨-, rfl, hvalid⟩ | ⟨hleap, rfl, hvalid, hends⟩ := hresult
  · obtain ⟨hdate, hhour, hminute, hsecond⟩ := isValid_iff.1 hvalid
    exact ⟨hdate, hseparator, hhour, hminute, hfraction, hzone, .inl hsecond⟩
  · obtain ⟨hdate, hhour, hminute, -⟩ := isValid_iff.1 hvalid
    obtain ⟨first, hfirst, hday, hnext⟩ := endsMonth_iff.1 hends
    refine ⟨hdate, hseparator, hhour, hminute, hfraction, hzone,
      .inr ⟨hleap, first, hfirst, hday, ?_⟩⟩
    unfold toUnix at hnext
    dsimp only at hnext
    omega

lemma IsDateTime.exists_parse? (h : IsDateTime s) : ∃ t, parse? s = some t := by
  obtain ⟨⟨year, month, day⟩, hour, minute, second, separator, fraction, zone, offset, htext,
    ⟨hnonneg, hyear⟩, hdate, hseparator, hhour, hminute, hfraction, hzone, hsecond⟩ := h
  obtain ⟨hmonth, hday⟩ := day_le_31 hdate
  obtain ⟨nanosecond, hread⟩ := readFraction?_append hfraction hzone
  obtain ⟨year, rfl⟩ := Int.eq_ofNat_of_zero_le hnonneg
  dsimp only at htext hyear hmonth hday
  rw [Int.toNat_natCast] at htext
  have hparts := fun t hresult => (@parse?_eq_some_iff t s).2 ⟨year, month, day, hour, minute, second,
    nanosecond, separator, fraction ++ zone, zone, offset, htext, by omega, by omega, by omega,
    hseparator, by omega, by omega, by omega, hread, readOffset?_eq_some_iff.2 hzone, hresult⟩
  obtain hsecond | ⟨rfl, first, hfirst, hday, hnext⟩ := hsecond
  · exact ⟨_, hparts _ (.inl ⟨by omega, rfl, isValid_iff.2 ⟨hdate, hhour, hminute, hsecond⟩⟩)⟩
  · -- the last second before the leap second ends a month
    refine ⟨_, hparts _ (.inr ⟨rfl, rfl, isValid_iff.2 ⟨hdate, hhour, hminute, le_rfl⟩,
      endsMonth_iff.2 ⟨first, hfirst, hday, ?_⟩⟩)⟩
    unfold toUnix
    dsimp only
    omega

/-- **The texts that are read** are those of the grammar. -/
theorem isSome_parse?_iff : (parse? s).isSome = true ↔ IsDateTime s := by
  rw [Option.isSome_iff_exists]
  exact ⟨fun ⟨t, ht⟩ => isDateTime_of_parse? ht, IsDateTime.exists_parse?⟩

end Timestamp

end Lineage
