import Mathlib.Data.Nat.Notation
import Mathlib.Tactic.ByContra
import Mathlib.Tactic.SplitIfs

/-!
# Days and dates

The calendar over the days from 1 March of the year 0 on, in years that begin in March.

* `Date` — a date of the calendar, in years that begin in January; `Date.ofDay` — the date of a day.
* `Date.days_lt_iff` — dates are in the order of the days before them.
-/

namespace Gregorian

/-- The first day of the year `y`. -/
def yearStart (y : ℕ) : ℕ := 365 * y + y / 4 - y / 100 + y / 400

/-- The days of an era without their leap days, nearly. -/
def shrink (doe : ℕ) : ℕ := doe - doe / 1460 + doe / 36524 - doe / 146096

/-- The year within its era of 400. -/
def yearOfEra (doe : ℕ) : ℕ := shrink doe / 365

def year (z : ℕ) : ℕ := yearOfEra (z % 146097) + 400 * (z / 146097)

/-- The days of the year before it. -/
def dayOfYear (z : ℕ) : ℕ := z - yearStart (year z)

/-- The month of a day of a year, March being 0. -/
def month (doy : ℕ) : ℕ := (5 * doy + 2) / 153

def day (doy : ℕ) : ℕ := doy - (153 * month doy + 2) / 5 + 1

theorem shrink_mono {a b : ℕ} (h : a ≤ b) (hb : b < 146097) : shrink a ≤ shrink b := by
  simp only [shrink]
  omega

theorem shrink_yearStart : ∀ y < 401, 365 * y ≤ shrink (yearStart y) + 365 * (y / 400) ∧
    (0 < y → shrink (yearStart y - 1) < 365 * y) := by
  decide +kernel

theorem le_yearOfEra_iff {doe y : ℕ} (h : doe < 146097) (hy : y < 400) :
    y ≤ yearOfEra doe ↔ yearStart y ≤ doe := by
  obtain ⟨hfirst, hlast⟩ := shrink_yearStart y (by omega)
  rw [yearOfEra, Nat.le_div_iff_mul_le (by decide)]
  refine ⟨fun hle => ?_, fun hle => ?_⟩
  · by_contra hlt
    rcases Nat.eq_zero_or_pos y with rfl | hpos
    · simp [yearStart] at hlt
    · have := shrink_mono (show doe ≤ yearStart y - 1 by omega) (by simp only [yearStart]; omega)
      omega
  · have := shrink_mono hle h
    have h0 : y / 400 = 0 := Nat.div_eq_of_lt hy
    omega

theorem yearOfEra_lt {doe : ℕ} (h : doe < 146097) : yearOfEra doe < 400 := by
  have hlast := (shrink_yearStart 400 (by decide)).2 (by decide)
  have hmono := shrink_mono
      (show doe ≤ yearStart 400 - 1 by simp only [yearStart]; omega) (by decide)
  rw [yearOfEra, Nat.div_lt_iff_lt_mul (by decide)]
  omega

theorem yearStart_add (e r : ℕ) : yearStart (400 * e + r) = 146097 * e + yearStart r := by
  simp only [yearStart]
  omega

/-- **The year of a day** is the last one that has begun. -/
theorem le_year_iff (y z : ℕ) : y ≤ year z ↔ yearStart y ≤ z := by
  have hlt : z % 146097 < 146097 := Nat.mod_lt _ (by decide)
  have hera := yearOfEra_lt hlt
  have hy := Nat.div_add_mod y 400
  have hr : y % 400 < 400 := Nat.mod_lt _ (by decide)
  have hstart : yearStart y = 146097 * (y / 400) + yearStart (y % 400) := by
    rw [← yearStart_add, hy]
  have hbound : yearStart (y % 400) < 146097 := by simp only [yearStart]; omega
  rw [hstart, year]
  rcases Nat.lt_trichotomy (y / 400) (z / 146097) with hlt' | heq | hgt
  · exact iff_of_true (by omega) (by omega)
  · have := le_yearOfEra_iff hlt hr
    omega
  · exact iff_of_false (by omega) (by omega)

variable (z : ℕ) (doy : ℕ)

theorem yearStart_year_le : yearStart (year z) ≤ z :=
  (le_year_iff _ z).1 (Nat.le_refl _)

theorem lt_yearStart_succ : z < yearStart (year z + 1) := by
  by_contra h
  exact absurd ((le_year_iff (year z + 1) z).2 (Nat.not_lt.1 h)) (by simp)

theorem dayOfYear_add : dayOfYear z + yearStart (yearOfEra (z % 146097)) = z % 146097 := by
  have hyear : yearStart (year z) =
      146097 * (z / 146097) + yearStart (yearOfEra (z % 146097)) := by
    rw [year, Nat.add_comm, yearStart_add]
  have hle := yearStart_year_le z
  rw [dayOfYear]
  omega

theorem dayOfYear_le : dayOfYear z ≤ 365 := by
  have hlt := lt_yearStart_succ z
  simp only [dayOfYear, yearStart] at *
  omega

theorem year_mono {a b : ℕ} (h : a ≤ b) : year a ≤ year b :=
  (le_year_iff _ b).2 (Nat.le_trans (yearStart_year_le a) h)

theorem month_le {doy : ℕ} (h : doy ≤ 365) : month doy ≤ 11 := by
  simp only [month]
  omega

theorem day_bounds : 1 ≤ day doy ∧ day doy ≤ 31 := by
  simp only [day, month]
  omega

theorem dayOfYear_eq : doy + 1 = (153 * month doy + 2) / 5 + day doy := by
  simp only [day, month]
  omega

/-- **A later day has a later date.** -/
theorem lex_of_lt {a b : ℕ} (h : a < b) :
    year a < year b ∨ year a = year b ∧ (month (dayOfYear a) < month (dayOfYear b) ∨
      month (dayOfYear a) = month (dayOfYear b) ∧ day (dayOfYear a) < day (dayOfYear b)) := by
  rcases Nat.lt_or_eq_of_le (year_mono (Nat.le_of_lt h)) with hlt | heq
  · exact .inl hlt
  · have hdoy : dayOfYear a < dayOfYear b := by
      rw [dayOfYear, dayOfYear, heq]
      exact Nat.sub_lt_sub_right (heq ▸ yearStart_year_le a) h
    refine .inr ⟨heq, ?_⟩
    generalize dayOfYear a = i at hdoy ⊢
    generalize dayOfYear b = j at hdoy ⊢
    have hm : month i ≤ month j := by
      simp only [month]
      omega
    rcases Nat.lt_or_eq_of_le hm with hlt | he
    · exact .inl hlt
    · have hi := dayOfYear_eq i
      have hj := dayOfYear_eq j
      exact .inr ⟨he, by omega⟩

def Leap (y : ℕ) : Prop := y % 4 = 0 ∧ y % 100 ≠ 0 ∨ y % 400 = 0

instance : DecidablePred Leap := fun _ => inferInstanceAs (Decidable (_ ∨ _))

/-- The days of a month, January being 1. -/
def monthDays (y m : ℕ) : ℕ :=
  if m = 2 then if Leap y then 29 else 28 else if m = 4 ∨ m = 6 ∨ m = 9 ∨ m = 11 then 30 else 31

@[ext]
structure Date where
  year : ℕ
  month : ℕ
  day : ℕ
  month_pos : 1 ≤ month
  month_le : month ≤ 12
  day_pos : 1 ≤ day
  day_le : day ≤ monthDays year month

theorem monthDays_le (y m : ℕ) : 28 ≤ monthDays y m ∧ monthDays y m ≤ 31 := by
  simp only [monthDays]
  split_ifs <;> omega

/-- The calendar's month of one that counts from March. -/
def monthNumber (mp : ℕ) : ℕ := if mp < 10 then mp + 3 else mp - 9

/-- The calendar's year of one that begins in March. -/
def yearNumber (y mp : ℕ) : ℕ := if mp < 10 then y else y + 1

theorem yearStart_succ (y : ℕ) :
    yearStart (y + 1) = yearStart y + if Leap (y + 1) then 366 else 365 := by
  have hdiv : ∀ k, (y + 1) / k = y / k + if (y + 1) % k = 0 then 1 else 0 := fun k => by
    rw [Nat.succ_div]
    simp [Nat.dvd_iff_mod_eq_zero]
  rw [yearStart, yearStart, hdiv 4, hdiv 100, hdiv 400]
  by_cases hleap : Leap (y + 1)
  · rw [if_pos hleap]
    unfold Leap at hleap
    split_ifs <;> omega
  · rw [if_neg hleap]
    unfold Leap at hleap
    split_ifs <;> omega

theorem day_le_monthDays : day (dayOfYear z) ≤
    monthDays (yearNumber (year z) (month (dayOfYear z))) (monthNumber (month (dayOfYear z))) := by
  have hlt := lt_yearStart_succ z
  have hle := yearStart_year_le z
  have hmonth := month_le (dayOfYear_le z)
  have hdoy : dayOfYear z < if Leap (year z + 1) then 366 else 365 := by
    rw [yearStart_succ] at hlt
    rw [dayOfYear]
    omega
  generalize dayOfYear z = doy at hmonth hdoy ⊢
  have hfirst : month doy * 153 ≤ 5 * doy + 2 ∧ 5 * doy + 2 < month doy * 153 + 153 := by
    simp only [month]
    omega
  rw [day, monthDays, yearNumber, monthNumber]
  -- February ends with the year, every other month where the next one begins
  split_ifs at hdoy ⊢ <;> omega

def Date.ofDay (z : ℕ) : Date where
  year := yearNumber (Gregorian.year z) (Gregorian.month (dayOfYear z))
  month := monthNumber (Gregorian.month (dayOfYear z))
  day := Gregorian.day (dayOfYear z)
  month_pos := by
    simp only [monthNumber]
    split_ifs <;> omega
  month_le := by
    have := Gregorian.month_le (dayOfYear_le z)
    simp only [monthNumber]
    split_ifs <;> omega
  day_pos := (day_bounds _).1
  day_le := day_le_monthDays z

/-- The days before a month of the calendar, the months counted from January of the year 0 on. -/
def monthStart : ℕ → ℕ
  | 0 => 0
  | k + 1 => monthStart k + monthDays (k / 12) (k % 12 + 1)

/-- The months before a date's. -/
def Date.months (D : Date) : ℕ := 12 * D.year + (D.month - 1)

/-- The days before a date, from the first of January of the year 0 on. -/
def Date.days (D : Date) : ℕ := monthStart D.months + (D.day - 1)

theorem monthStart_mono {j k : ℕ} (h : j ≤ k) : monthStart j ≤ monthStart k := by
  induction h with
  | refl => exact Nat.le_refl _
  | step _ ih => exact Nat.le_trans ih (Nat.le_add_right _ _)

/-- A month's dates are before every later month. -/
theorem Date.days_lt {D : Date} {k : ℕ} (h : D.months < k) : D.days < monthStart k := by
  have hnext := monthStart_mono (Nat.succ_le_of_lt h)
  obtain ⟨y, m, d, hpos, hmonth, hfirst, hlast⟩ := D
  have hyear : (12 * y + (m - 1)) / 12 = y := by omega
  have hmod : (12 * y + (m - 1)) % 12 + 1 = m := by omega
  simp only [monthStart, months, days, hyear, hmod] at *
  omega

/-- **Dates are in the order of their days.** -/
theorem Date.days_lt_iff (D E : Date) : D.days < E.days ↔
    D.year < E.year ∨ D.year = E.year ∧
    (D.month < E.month ∨ D.month = E.month ∧ D.day < E.day) := by
  have hlt := fun h : D.months < E.months => days_lt h
  have hgt := fun h : E.months < D.months => days_lt h
  have heq : D.months = E.months → monthStart D.months = monthStart E.months := congrArg monthStart
  obtain ⟨y, m, d, hpos, hmonth, hfirst, hlast⟩ := D
  obtain ⟨y', m', d', hpos', hmonth', hfirst', hlast'⟩ := E
  simp only [days, months] at *
  omega

end Gregorian
