import Mathlib

namespace HieroCryptography.Foundation

section Year

/-- The years of the proleptic Gregorian calendar with a 29th of February. -/
def isLeap (year : ℤ) : Bool := year % 4 = 0 && (year % 100 ≠ 0 || year % 400 = 0)

def daysBeforeYear (year : ℤ) : ℤ :=
  365 * (year - 1) + (year - 1) / 4 - (year - 1) / 100 + (year - 1) / 400

def yearLength (leap : Bool) : ℕ := if leap then 366 else 365

/-- The year of the day with a given number, counted in cycles of 400, 100, 4 and 1 years. -/
def yearOfDay (n : ℤ) : ℤ :=
  let n400 := n / 146097
  let r400 := n % 146097
  let n100 := min (r400 / 36524) 3
  let r100 := r400 - 36524 * n100
  let n4 := r100 / 1461
  let r4 := r100 % 1461
  let n1 := min (r4 / 365) 3
  400 * n400 + 100 * n100 + 4 * n4 + n1 + 1

theorem daysBeforeYear_succ (year : ℤ) :
    daysBeforeYear (year + 1) = daysBeforeYear year + yearLength (isLeap year) := by
  simp only [daysBeforeYear, yearLength, isLeap, Bool.and_eq_true, Bool.or_eq_true,
    decide_eq_true_eq]
  split <;> omega

theorem daysBeforeYear_mono {year year' : ℤ} (h : year ≤ year') :
    daysBeforeYear year ≤ daysBeforeYear year' := by
  simp only [daysBeforeYear]
  omega

theorem daysBeforeYear_of_cycles {n400 n100 n4 n1 : ℤ} (h100 : 0 ≤ n100 ∧ n100 ≤ 3)
    (h4 : 0 ≤ n4 ∧ n4 ≤ 24) (h1 : 0 ≤ n1 ∧ n1 ≤ 3) :
    daysBeforeYear (400 * n400 + 100 * n100 + 4 * n4 + n1 + 1) =
      146097 * n400 + 36524 * n100 + 1461 * n4 + 365 * n1 := by
  have hdiv4 : (400 * n400 + 100 * n100 + 4 * n4 + n1) / 4 = 100 * n400 + 25 * n100 + n4 := by omega
  have hdiv100 : (400 * n400 + 100 * n100 + 4 * n4 + n1) / 100 = 4 * n400 + n100 := by omega
  have hdiv400 : (400 * n400 + 100 * n100 + 4 * n4 + n1) / 400 = n400 := by omega
  rw [daysBeforeYear, add_sub_cancel_right, hdiv4, hdiv100, hdiv400]
  ring

theorem daysBeforeYear_yearOfDay (n : ℤ) :
    daysBeforeYear (yearOfDay n) ≤ n ∧ n < daysBeforeYear (yearOfDay n + 1) := by
  obtain ⟨n400, hn400⟩ : ∃ n400, n400 = n / 146097 := ⟨_, rfl⟩
  obtain ⟨r400, hr400⟩ : ∃ r400, r400 = n % 146097 := ⟨_, rfl⟩
  obtain ⟨n100, hn100⟩ : ∃ n100, n100 = min (r400 / 36524) 3 := ⟨_, rfl⟩
  obtain ⟨r100, hr100⟩ : ∃ r100, r100 = r400 - 36524 * n100 := ⟨_, rfl⟩
  obtain ⟨n4, hn4⟩ : ∃ n4, n4 = r100 / 1461 := ⟨_, rfl⟩
  obtain ⟨r4, hr4⟩ : ∃ r4, r4 = r100 % 1461 := ⟨_, rfl⟩
  obtain ⟨n1, hn1⟩ : ∃ n1, n1 = min (r4 / 365) 3 := ⟨_, rfl⟩
  have hyear : yearOfDay n = 400 * n400 + 100 * n100 + 4 * n4 + n1 + 1 := by
    subst hn1 hr4 hn4 hr100 hn100 hr400 hn400
    rfl
  have h100 : 0 ≤ n100 ∧ n100 ≤ 3 := by omega
  -- Only the last century of a cycle has the day of the fourth century year.
  have hr : 0 ≤ r100 ∧ (r100 < 36524 ∨ n100 = 3 ∧ r100 = 36524) := by omega
  have h4 : 0 ≤ n4 ∧ n4 ≤ 24 := by omega
  have h1 : 0 ≤ n1 ∧ n1 ≤ 3 := by omega
  have hn : n = 146097 * n400 + 36524 * n100 + 1461 * n4 + r4 := by omega
  rw [daysBeforeYear_succ, hyear, daysBeforeYear_of_cycles h100 h4 h1]
  clear hyear hn100 hr100 hn400 hr400
  simp only [yearLength, isLeap, Bool.and_eq_true, Bool.or_eq_true, decide_eq_true_eq]
  refine ⟨by omega, ?_⟩
  split <;> omega

theorem le_yearOfDay_iff {year n : ℤ} : year ≤ yearOfDay n ↔ daysBeforeYear year ≤ n := by
  obtain ⟨hlow, hhigh⟩ := daysBeforeYear_yearOfDay n
  constructor
  · intro h
    exact (daysBeforeYear_mono h).trans hlow
  · intro h
    by_contra hlt
    have hmono := daysBeforeYear_mono (show yearOfDay n + 1 ≤ year by omega)
    omega

end Year

section Month

def monthLength (leap : Bool) : ℕ → ℕ
  | 2 => if leap then 29 else 28
  | 4 | 6 | 9 | 11 => 30
  | _ => 31

def daysBeforeMonth (leap : Bool) : ℕ → ℕ
  | 0 | 1 => 0
  | month + 2 => daysBeforeMonth leap (month + 1) + monthLength leap (month + 1)

def monthOfDay (leap : Bool) (n : ℕ) : ℕ :=
  ((List.range' 1 12).filter fun month ↦ daysBeforeMonth leap month ≤ n).length

theorem monthOfDay_spec (leap : Bool) : ∀ n < yearLength leap,
    (1 ≤ monthOfDay leap n ∧ monthOfDay leap n ≤ 12) ∧
      daysBeforeMonth leap (monthOfDay leap n) ≤ n ∧
      n < daysBeforeMonth leap (monthOfDay leap n) +
        monthLength leap (monthOfDay leap n) := by
  cases leap <;> decide +kernel

theorem daysBeforeMonth_add_monthLength_le (leap : Bool) : ∀ month < 13, 1 ≤ month →
    daysBeforeMonth leap month + monthLength leap month ≤ yearLength leap := by
  cases leap <;> decide

end Month

@[ext]
structure CivilDate where
  year : ℤ
  month : ℕ
  day : ℕ
  month_mem : 1 ≤ month ∧ month ≤ 12
  day_mem : 1 ≤ day ∧ day ≤ monthLength (isLeap year) month

namespace CivilDate

def toDay (date : CivilDate) : ℤ :=
  daysBeforeYear date.year + daysBeforeMonth (isLeap date.year) date.month + date.day - 1

def dayOfYear (n : ℤ) : ℕ := (n - daysBeforeYear (yearOfDay n)).toNat

theorem dayOfYear_lt (n : ℤ) : dayOfYear n < yearLength (isLeap (yearOfDay n)) := by
  have h := daysBeforeYear_yearOfDay n
  rw [daysBeforeYear_succ] at h
  rw [dayOfYear]
  omega

theorem month_ofDay (n : ℤ) : 1 ≤ monthOfDay (isLeap (yearOfDay n)) (dayOfYear n) ∧
    monthOfDay (isLeap (yearOfDay n)) (dayOfYear n) ≤ 12 :=
  (monthOfDay_spec _ _ (dayOfYear_lt n)).1

theorem day_ofDay (n : ℤ) :
    1 ≤ dayOfYear n - daysBeforeMonth (isLeap (yearOfDay n))
        (monthOfDay (isLeap (yearOfDay n)) (dayOfYear n)) + 1 ∧
      dayOfYear n - daysBeforeMonth (isLeap (yearOfDay n))
        (monthOfDay (isLeap (yearOfDay n)) (dayOfYear n)) + 1 ≤
      monthLength (isLeap (yearOfDay n)) (monthOfDay (isLeap (yearOfDay n)) (dayOfYear n)) := by
  have h := (monthOfDay_spec _ _ (dayOfYear_lt n)).2
  omega

def ofDay (n : ℤ) : CivilDate where
  year := yearOfDay n
  month := monthOfDay (isLeap (yearOfDay n)) (dayOfYear n)
  day := dayOfYear n - daysBeforeMonth (isLeap (yearOfDay n))
    (monthOfDay (isLeap (yearOfDay n)) (dayOfYear n)) + 1
  month_mem := month_ofDay n
  day_mem := day_ofDay n

def ofFields (year : ℤ) (month day : ℕ) : Option CivilDate :=
  if hmonth : 1 ≤ month ∧ month ≤ 12 then
    if hday : 1 ≤ day ∧ day ≤ monthLength (isLeap year) month then
      some ⟨year, month, day, hmonth, hday⟩
    else none
  else none

theorem toDay_ofDay (n : ℤ) : (ofDay n).toDay = n := by
  have hyear := (daysBeforeYear_yearOfDay n).1
  have hmonth := (monthOfDay_spec _ _ (dayOfYear_lt n)).2.1
  have hday : (dayOfYear n : ℤ) = n - daysBeforeYear (yearOfDay n) :=
    Int.toNat_of_nonneg (by omega)
  simp only [toDay, ofDay]
  omega

theorem ofFields_eq (date : CivilDate) : ofFields date.year date.month date.day = some date := by
  rw [ofFields, dif_pos date.month_mem, dif_pos date.day_mem]

theorem year_ofFields {year : ℤ} {month day : ℕ} {date : CivilDate}
    (h : ofFields year month day = some date) : date.year = year := by
  unfold ofFields at h
  split at h
  · split at h
    · exact congrArg CivilDate.year (Option.some.inj h).symm
    · cases h
  · cases h

theorem yearOfDay_toDay (date : CivilDate) : yearOfDay date.toDay = date.year := by
  have hmonth := date.month_mem
  have hday := date.day_mem
  have hlen := daysBeforeMonth_add_monthLength_le (isLeap date.year) date.month (by omega) hmonth.1
  have hsucc := daysBeforeYear_succ date.year
  have hlow : date.year ≤ yearOfDay date.toDay := le_yearOfDay_iff.mpr (by rw [toDay]; omega)
  have hhigh : ¬date.year + 1 ≤ yearOfDay date.toDay := by
    rw [le_yearOfDay_iff, toDay]
    omega
  omega

end CivilDate

structure CivilTime where
  date : CivilDate
  hour : Fin 24
  minute : Fin 60
  second : Fin 60

namespace CivilTime

def toEpochSecond (time : CivilTime) : ℤ :=
  86400 * (time.date.toDay - daysBeforeYear 1970) +
    (3600 * time.hour + 60 * time.minute + time.second : ℕ)

def ofEpochSecond (s : ℤ) : CivilTime where
  date := .ofDay (s / 86400 + daysBeforeYear 1970)
  hour := Fin.ofNat 24 ((s % 86400).toNat / 3600)
  minute := Fin.ofNat 60 ((s % 86400).toNat / 60)
  second := Fin.ofNat 60 (s % 86400).toNat

theorem toEpochSecond_ofEpochSecond (s : ℤ) : (ofEpochSecond s).toEpochSecond = s := by
  have hnonneg := Int.emod_nonneg s (show (86400 : ℤ) ≠ 0 by norm_num)
  have hlt := Int.emod_lt_of_pos s (show (0 : ℤ) < 86400 by norm_num)
  simp only [toEpochSecond, ofEpochSecond, CivilDate.toDay_ofDay, Fin.val_ofNat]
  omega

theorem year_ofEpochSecond_toEpochSecond (time : CivilTime) :
    (ofEpochSecond time.toEpochSecond).date.year = time.date.year := by
  have hhour := time.hour.isLt
  have hminute := time.minute.isLt
  have hsecond := time.second.isLt
  have hday : time.toEpochSecond / 86400 + daysBeforeYear 1970 = time.date.toDay := by
    rw [toEpochSecond]
    omega
  rw [← time.date.yearOfDay_toDay, ← hday]
  rfl

theorem le_year_ofEpochSecond_iff {year s : ℤ} : year ≤ (ofEpochSecond s).date.year ↔
    86400 * (daysBeforeYear year - daysBeforeYear 1970) ≤ s := by
  have hyear : year ≤ (ofEpochSecond s).date.year ↔
      daysBeforeYear year ≤ s / 86400 + daysBeforeYear 1970 := le_yearOfDay_iff
  rw [hyear]
  omega

end CivilTime

end HieroCryptography.Foundation
