import Mathlib.Tactic.Common
import Lineage.Calendar.Date

/-!
# Dates and counts of days

The two directions of the calendar are inverse to each other: every count of days belongs to a date
of the calendar (`isValid_ofDays`, `toDays_ofDays`), and the date that was counted is found again
(`ofDays_toDays`).

Splitting a count into cycles finds the year and the number of the day in it, and this number is
below the length of the year (`exists_ofDays`). There is only one such year, because years follow one
another without gaps (`daysBeforeYear_succ`).
-/

namespace Lineage.Date

variable {d : Date} {days year year' : Int} {ordinal ordinal' : Nat} {leap : Bool}

/-! ### Years -/

def yearLength (leap : Bool) : Nat := 365 + leap.toNat

lemma isLeap_iff :
    isLeap year = true ↔ year % 4 = 0 ∧ (year % 100 ≠ 0 ∨ year % 400 = 0) := by
  simp [isLeap]

lemma daysBeforeYear_succ (year : Int) :
    daysBeforeYear (year + 1) = daysBeforeYear year + yearLength (isLeap year) := by
  have hleap := @isLeap_iff year
  unfold daysBeforeYear yearLength
  dsimp only
  rw [Int.add_sub_cancel]
  cases h : isLeap year with
  | true =>
    have := hleap.1 h
    rw [Bool.toNat_true]
    omega
  | false =>
    have : ¬ (year % 4 = 0 ∧ (year % 100 ≠ 0 ∨ year % 400 = 0)) :=
      fun h' => Bool.false_ne_true (h.symm.trans (hleap.2 h'))
    rw [Bool.toNat_false]
    omega

lemma daysBeforeYear_mono (h : year ≤ year') : daysBeforeYear year ≤ daysBeforeYear year' := by
  unfold daysBeforeYear
  dsimp only
  omega

lemma year_unique (h : daysBeforeYear year + ordinal = daysBeforeYear year' + ordinal')
    (hlt : ordinal < yearLength (isLeap year)) (hlt' : ordinal' < yearLength (isLeap year')) :
    year = year' ∧ ordinal = ordinal' := by
  have hend := daysBeforeYear_succ year
  have hend' := daysBeforeYear_succ year'
  have hyear : year = year' := by
    rcases Int.lt_trichotomy year year' with hlt | heq | hgt
    · have := daysBeforeYear_mono (show year + 1 ≤ year' by omega)
      omega
    · exact heq
    · have := daysBeforeYear_mono (show year' + 1 ≤ year by omega)
      omega
  subst hyear
  exact ⟨rfl, by omega⟩

/-- The days before a year that is given by its place in the cycles of 400, 100, 4 and 1 years. -/
lemma daysBeforeYear_cycles {q c k j : Int} (hc : 0 ≤ c ∧ c ≤ 3) (hk : 0 ≤ k ∧ k ≤ 24)
    (hj : 0 ≤ j ∧ j ≤ 3) :
    daysBeforeYear (400 * q + 100 * c + 4 * k + j + 1) =
      146097 * q + 36524 * c + 1461 * k + 365 * j := by
  unfold daysBeforeYear
  dsimp only
  omega

/-- The last year of a cycle of four is a leap year, if it is not the last one of a century that is
not the last one of its cycle. -/
lemma isLeap_cycles {q c k j : Int} (hc : 0 ≤ c ∧ c ≤ 3) (hk : 0 ≤ k ∧ k ≤ 24)
    (hj : 0 ≤ j ∧ j ≤ 3) :
    isLeap (400 * q + 100 * c + 4 * k + j + 1) = true ↔ j = 3 ∧ (k < 24 ∨ c = 3) := by
  rw [isLeap_iff]
  omega

/-! ### Months -/

def ofOrdinal (year : Int) (ordinal : Nat) : Date :=
  ⟨year, monthOf (isLeap year) ordinal,
    ordinal - daysBeforeMonth (isLeap year) (monthOf (isLeap year) ordinal) + 1⟩

lemma monthOf_bounds : ∀ leap, ∀ ordinal < yearLength leap,
    1 ≤ monthOf leap ordinal ∧ monthOf leap ordinal ≤ 12 ∧
      daysBeforeMonth leap (monthOf leap ordinal) ≤ ordinal ∧
      ordinal < daysBeforeMonth leap (monthOf leap ordinal + 1) := by
  decide +kernel

lemma monthOf_of_day : ∀ leap, ∀ month < 12,
    ∀ day < daysBeforeMonth leap (month + 1 + 1) - daysBeforeMonth leap (month + 1),
      monthOf leap (daysBeforeMonth leap (month + 1) + day) = month + 1 ∧
        daysBeforeMonth leap (month + 1) + day < yearLength leap := by
  decide +kernel

/-! ### Dates -/

/-- **Where the cycles lead**: to the year in which the day lies, and to its number in this year. -/
theorem exists_ofDays (days : Int) :
    ∃ (year : Int) (ordinal : Nat), days + epoch = daysBeforeYear year + ordinal ∧
      ordinal < yearLength (isLeap year) ∧ ofDays days = ofOrdinal year ordinal := by
  -- the places of the day in the cycles, as the definition finds them
  let n := days + epoch
  let c := min (n % 146097 / 36524) 3
  let in100 := n % 146097 - 36524 * c
  let k := in100 / 1461
  let j := min (in100 % 1461 / 365) 3
  let r := in100 % 1461 - 365 * j
  have hc : 0 ≤ c ∧ c ≤ 3 := by omega
  have hk : 0 ≤ k ∧ k ≤ 24 := by omega
  have hj : 0 ≤ j ∧ j ≤ 3 := by omega
  have hr : 0 ≤ r ∧ r ≤ 365 := by omega
  have hn : n = 146097 * (n / 146097) + 36524 * c + 1461 * k + 365 * j + r := by omega
  have hlast : r = 365 → j = 3 ∧ (k < 24 ∨ c = 3) := by omega
  refine ⟨400 * (n / 146097) + 100 * c + 4 * k + j + 1, r.toNat, ?_, ?_, rfl⟩
  · rw [daysBeforeYear_cycles hc hk hj, Int.toNat_of_nonneg hr.1]
    exact hn
  · unfold yearLength
    by_cases h365 : r = 365
    · rw [(isLeap_cycles hc hk hj).2 (hlast h365), h365]
      decide
    · omega

/-- **Every count of days belongs to a date of the calendar.** -/
theorem isValid_ofDays (days : Int) : (ofDays days).isValid = true := by
  obtain ⟨year, ordinal, -, hlt, heq⟩ := exists_ofDays days
  obtain ⟨hone, htwelve, hle, hnext⟩ := monthOf_bounds _ _ hlt
  rw [heq]
  unfold isValid ofOrdinal monthLength
  simp only [Bool.and_eq_true, decide_eq_true_eq]
  omega

theorem toDays_ofDays (days : Int) : (ofDays days).toDays = days := by
  obtain ⟨year, ordinal, hdays, hlt, heq⟩ := exists_ofDays days
  obtain ⟨-, -, hle, -⟩ := monthOf_bounds _ _ hlt
  rw [heq]
  unfold toDays ofOrdinal
  dsimp only
  omega

lemma eq_ofOrdinal (h : d.isValid = true) :
    ∃ ordinal < yearLength (isLeap d.year),
      d.toDays + epoch = daysBeforeYear d.year + (ordinal : Nat) ∧ d = ofOrdinal d.year ordinal := by
  obtain ⟨year, month, day⟩ := d
  unfold isValid monthLength at h
  simp only [Bool.and_eq_true, decide_eq_true_eq] at h
  obtain ⟨⟨⟨hone, htwelve⟩, hday⟩, hlength⟩ := h
  obtain ⟨month, rfl⟩ := Nat.exists_eq_add_of_le' hone
  obtain ⟨day, rfl⟩ := Nat.exists_eq_add_of_le' hday
  obtain ⟨hmonth, hlt⟩ :=
    monthOf_of_day (isLeap year) month (by omega) day (by omega)
  refine ⟨_, hlt, ?_, ?_⟩
  · unfold toDays
    dsimp only
    omega
  · unfold ofOrdinal
    rw [hmonth, Nat.add_sub_cancel_left]

/-- **The date that was counted is found again.** -/
theorem ofDays_toDays (h : d.isValid = true) : ofDays d.toDays = d := by
  obtain ⟨ordinal, hlt, hdays, hd⟩ := eq_ofOrdinal h
  obtain ⟨year, ordinal', hdays', hlt', heq⟩ := exists_ofDays d.toDays
  obtain ⟨rfl, rfl⟩ := year_unique (hdays.symm.trans hdays') hlt hlt'
  rw [heq, ← hd]

/-- The years from a given one on are those of the days from its first one on. -/
theorem le_year_ofDays : year ≤ (ofDays days).year ↔ toDays ⟨year, 1, 1⟩ ≤ days := by
  obtain ⟨year', ordinal, hdays, hlt, heq⟩ := exists_ofDays days
  have hend := daysBeforeYear_succ year'
  have hfirst : toDays ⟨year, 1, 1⟩ = daysBeforeYear year - epoch := by
    unfold toDays daysBeforeMonth
    simp [daysBefore]
  rw [heq, hfirst]
  show year ≤ year' ↔ _
  constructor
  · intro h
    have := daysBeforeYear_mono h
    omega
  · intro h
    by_contra hlater
    have := daysBeforeYear_mono (show year' + 1 ≤ year by omega)
    omega

end Lineage.Date
