import Mu300.Traffic.Ledger
import Mathlib.Algebra.BigOperators.Ring.Finset

/-!
# Billing cycles

A cycle begins on the reset day of a month, or on the month's last day when that is earlier. There
is one for each month, so cycles are counted by the months since January of the year 0.
-/

namespace Mu300.Traffic

open Shell Digits Gregorian List Bool

/-! ## Months -/

theorem dim_bounds (y m : ℤ) : 28 ≤ dim y m ∧ dim y m ≤ 31 := by
  simp only [dim]
  split_ifs <;> omega

theorem rday_bounds {reset : ℤ} (h : 1 ≤ reset ∧ reset ≤ 31) (y m : ℤ) :
    1 ≤ rday reset y m ∧ rday reset y m ≤ 31 ∧ rday reset y m ≤ dim y m := by
  have := dim_bounds y m
  simp only [rday]
  split_ifs <;> omega

/-- The first day of the cycle of a month. -/
def start (reset M : ℤ) : Text := ymd (M / 12) (M % 12 + 1) (rday reset (M / 12) (M % 12 + 1))

/-- The cycle a date is in: that of its month, or the one before. -/
def cycle (reset : ℤ) (D : Date) : ℤ :=
  if rday reset D.year D.month ≤ D.day then 12 * D.year + D.month - 1 else 12 * D.year + D.month - 2

variable {D : Date}

theorem legible_date (h : D.year ≤ 9999) : Legible D.year D.month D.day := by
  have := D.month_le
  have := D.day_le
  have := monthDays_le D.year D.month
  exact ⟨by omega, by omega, by omega⟩

/-- A month whose year has four digits, or is one of the 999 before the year 0. -/
def InRange (M : ℤ) : Prop := -11988 ≤ M ∧ M < 120000

variable {reset M N : ℤ}

theorem start_eq {y m : ℤ} (hm : 1 ≤ m ∧ m ≤ 12) (hM : M = 12 * y + m - 1) :
    start reset M = ymd y m (rday reset y m) := by
  have hy : M / 12 = y := by omega
  have hm' : M % 12 + 1 = m := by omega
  rw [start, hy, hm']

/-! ## Where the program goes -/

/-- What `cstart` makes of a date: the start of its month's cycle, or of the one before. -/
theorem cstart_ymd {y m d : ℤ} (h : Legible y m d) (hm : 1 ≤ m ∧ m ≤ 12) :
    cstart reset (ymd y m d) =
      start reset (if rday reset y m ≤ d then 12 * y + m - 1 else 12 * y + m - 2) := by
  obtain ⟨hry, hrm, hrd⟩ := number_ymd h
  simp only [cstart, hry, hrm, hrd, ge_iff_le]
  split_ifs with hd hjan
  · exact (start_eq hm (by omega)).symm
  · exact (start_eq (by omega) (by omega)).symm
  · exact (start_eq (by omega) (by omega)).symm

theorem cstart_dateText (h : D.year ≤ 9999) :
    cstart reset (dateText D) = start reset (cycle reset D) := by
  have := D.month_pos
  have := D.month_le
  exact cstart_ymd (legible_date h) (by omega)

/-! ## Dates and cycles -/

theorem cycle_bounds (reset : ℤ) (hD : D.year ≤ 9999) :
    -1 ≤ cycle reset D ∧ cycle reset D < 120000 := by
  have := D.month_pos
  have := D.month_le
  simp only [cycle]
  split_ifs <;> omega

theorem inRange_cycle (reset : ℤ) (hD : D.year ≤ 9999) : InRange (cycle reset D) := by
  have := cycle_bounds reset hD
  exact ⟨by omega, by omega⟩

theorem not_before_negative (hD : D.year ≤ 9999) (m d : ℤ) :
    before (dateText D) (ymd (-1) m d) = false := by
  have hdigit : ∀ ch : Char, ch.isDigit → ¬ ch.toNat ≤ '-'.toNat := by
    intro ch hch hle
    have hlow : '0'.toNat ≤ ch.toNat := by
      simp only [Char.isDigit, and_eq_true, decide_eq_true_eq] at hch
      exact hch.1
    exact absurd (Nat.le_trans hlow hle) (by decide)
  have hlen := length_fixed 4 D.year
  cases hfixed : fixed 4 D.year with
  | nil => simp [hfixed] at hlen
  | cons ch cs =>
    have hch := hdigit ch (isDigit_of_mem_fixed (hfixed ▸ mem_cons_self))
    rw [dateText, ymd, zeroPad_natCast (by omega), hfixed, ymd, show zeroPad 4 (-1) =
      ['-', '0', '0', '1'] by decide]
    simp only [cons_append, before, or_eq_false_iff, and_eq_false_iff, decide_eq_false_iff_not]
    omega

/-- The first day that has a date. -/
def firstDate : Date := ⟨0, 1, 1, by decide, by decide, by decide, by decide⟩

theorem cycle_firstDate_le (reset : ℤ) (D : Date) : cycle reset firstDate ≤ cycle reset D := by
  have hfirst : cycle reset firstDate = if rday reset 0 1 ≤ 1 then 0 else -1 := rfl
  have hmonth := D.month_pos
  have hday := D.day_pos
  rw [hfirst, cycle]
  by_cases hjan : D.year = 0 ∧ D.month = 1
  · rw [hjan.1, hjan.2, Nat.cast_zero, Nat.cast_one]
    split_ifs <;> omega
  · split_ifs <;> omega

/-- A start of a cycle with a date in it. -/
def IsStart (reset : ℤ) (s : Text) : Prop :=
  ∃ D : Date, D.year ≤ 9999 ∧ s = cstart reset (dateText D)

/-- The cycle that begins in December 9999. -/
def LastCycle (reset : ℤ) (D : Date) : Prop := D.year = 9999 ∧ D.month = 12 ∧ reset ≤ D.day

instance LastCycle.decidable (reset : ℤ) (D : Date) : Decidable (LastCycle reset D) :=
  inferInstanceAs (Decidable (D.year = 9999 ∧ D.month = 12 ∧ reset ≤ D.day))

section

variable (h : 1 ≤ reset ∧ reset ≤ 31)

include h

theorem legible_start (hM : InRange M) :
    Legible (M / 12) (M % 12 + 1) (rday reset (M / 12) (M % 12 + 1)) := by
  obtain ⟨hlow, hhigh⟩ := hM
  have := rday_bounds h (M / 12) (M % 12 + 1)
  exact ⟨by omega, by omega, by omega⟩

theorem cstart_start (hM : InRange M) :
    cstart reset (start reset M) = start reset M := by
  have hM' : 12 * (M / 12) + (M % 12 + 1) - 1 = M := by omega
  rw [start, cstart_ymd (legible_start h hM) (by omega), if_pos (Int.le_refl _), hM', start]

theorem cnext_start (hM : InRange M) :
    cnext reset (start reset M) = start reset (M + 1) := by
  obtain ⟨hry, hrm, -⟩ := number_ymd (legible_start h hM)
  rw [start, cnext, hry, hrm]
  split_ifs with hdec
  · exact (start_eq (by omega) (by omega)).symm
  · exact (start_eq (by omega) (by omega)).symm

/-- `s = cstart(prevday(s))`. -/
def back (reset : ℤ) (s : Text) : Text := cstart reset (prevday s)

theorem back_start (hM : InRange M) (hM' : InRange (M - 1)) :
    back reset (start reset M) = start reset (M - 1) := by
  have hrday := rday_bounds h (M / 12) (M % 12 + 1)
  have hlast := rday_bounds h ((M - 1) / 12) ((M - 1) % 12 + 1)
  have hdim := dim_bounds ((M - 1) / 12) ((M - 1) % 12 + 1)
  obtain ⟨hlow, -⟩ := hM'
  have hhigh : M < 120000 := hM.2
  obtain ⟨hry, hrm, hrd⟩ := number_ymd (legible_start h hM)
  rw [back, start, prevday, hry, hrm, hrd]
  split_ifs with hone hjan
  · -- from the first of January to the end of December
    have hy : (M - 1) / 12 = M / 12 - 1 := by omega
    have hm : (M - 1) % 12 + 1 = 12 := by omega
    have hindex : 12 * (M / 12 - 1) + 12 - 1 = M - 1 := by omega
    rw [hy, hm] at hlast hdim
    rw [cstart_ymd ⟨by omega, by omega, by omega⟩ (by omega), if_pos hlast.2.2, hindex]
  · have hy : (M - 1) / 12 = M / 12 := by omega
    have hm : (M - 1) % 12 + 1 = M % 12 + 1 - 1 := by omega
    have hindex : 12 * (M / 12) + (M % 12 + 1 - 1) - 1 = M - 1 := by omega
    rw [hy, hm] at hlast hdim
    rw [cstart_ymd ⟨by omega, by omega, by omega⟩ (by omega), if_pos hlast.2.2, hindex]
  · have hindex : 12 * (M / 12) + (M % 12 + 1) - 2 = M - 1 := by omega
    rw [cstart_ymd ⟨by omega, by omega, by omega⟩ (by omega), if_neg (by omega), hindex]

theorem back_iterate (hM : InRange M) {k : ℕ}
    (hk : InRange (M - k)) : (back reset)^[k] (start reset M) = start reset (M - k) := by
  induction k with
  | zero => simp
  | succ k ih =>
    obtain ⟨hlow, hhigh⟩ := hk
    have hk' : InRange (M - k) := ⟨by omega, by have := hM.2; omega⟩
    have hindex : M - (k : ℤ) - 1 = M - ((k + 1 : ℕ) : ℤ) := by omega
    rw [Function.iterate_succ_apply', ih hk', back_start h hk' ⟨by omega, by omega⟩, hindex]

/-- **A date is before the start of a cycle** exactly if its own cycle is. -/
theorem before_start_iff (hD : D.year ≤ 9999)
    (hlow : -1 ≤ M) (hhigh : M < 120000) : before (dateText D) (start reset M) ↔
      cycle reset D < M := by
  have hmonth := D.month_pos
  have hmonth' := D.month_le
  have hday := (legible_date hD).day
  rcases Int.lt_or_le M 0 with hneg | hpos
  · obtain rfl : M = -1 := by omega
    have hcycle := (cycle_bounds reset hD).1
    rw [start, show (-1 : ℤ) / 12 = -1 by decide, not_before_negative hD]
    exact iff_of_false (by decide) (by omega)
  · have hrday := rday_bounds h (M / 12) (M % 12 + 1)
    obtain ⟨y, hy⟩ := Int.eq_ofNat_of_zero_le (show 0 ≤ M / 12 by omega)
    obtain ⟨m, hm⟩ := Int.eq_ofNat_of_zero_le (show 0 ≤ M % 12 + 1 by omega)
    obtain ⟨d, hd⟩ := Int.eq_ofNat_of_zero_le (show 0 ≤ rday reset (M / 12) (M % 12 + 1) by omega)
    rw [start, hd, hy, hm, dateText,
      before_ymd_iff (by omega) (by omega) (by omega) (by omega) (by omega) (by omega), cycle]
    rcases Int.lt_trichotomy (12 * (D.year : ℤ) + D.month - 1) M with hlt | heq | hgt
    · exact iff_of_true (by omega) (by split_ifs <;> omega)
    · -- the month is the same, and so is the day the cycle begins on
      have hyear : (D.year : ℤ) = y := by omega
      have hmon : (D.month : ℤ) = m := by omega
      rw [hy, hm] at hd
      rw [hyear, hmon, hd]
      split_ifs <;> omega
    · exact iff_of_false (by omega) (by split_ifs <;> omega)

theorem start_inj (hM : InRange M) (hN : InRange N)
    (he : start reset M = start reset N) : M = N := by
  obtain ⟨hy, hm, -⟩ := number_ymd (legible_start h hM)
  obtain ⟨hy', hm', -⟩ := number_ymd (legible_start h hN)
  rw [← start] at hy hm hy' hm'
  rw [he] at hy hm
  omega

def startDate (M : ℕ) : Date where
  year := M / 12
  month := M % 12 + 1
  day := (rday reset (M / 12 : ℕ) (M % 12 + 1 : ℕ)).toNat
  month_pos := by omega
  month_le := by omega
  day_pos := by
    have := rday_bounds h (M / 12 : ℕ) (M % 12 + 1 : ℕ)
    omega
  day_le := by
    have := rday_bounds h (M / 12 : ℕ) (M % 12 + 1 : ℕ)
    have := dim_natCast (M / 12) (M % 12 + 1)
    omega

theorem cycle_startDate (M : ℕ) : cycle reset (startDate h M) = M := by
  have hle : rday reset (startDate h M).year (startDate h M).month ≤ (startDate h M).day :=
    Int.self_le_toNat _
  rw [cycle, if_pos hle]
  change 12 * ((M / 12 : ℕ) : ℤ) + ((M % 12 + 1 : ℕ) : ℤ) - 1 = M
  omega

theorem exists_date (hlow : cycle reset firstDate ≤ M)
    (hhigh : M < 120000) : ∃ D : Date, D.year ≤ 9999 ∧ cycle reset D = M := by
  rcases Int.lt_or_le M 0 with hneg | hpos
  · have hfirst := (cycle_bounds reset (D := firstDate) (by decide)).1
    exact ⟨firstDate, by decide, by omega⟩
  · lift M to ℕ using hpos
    refine ⟨startDate h M, ?_, cycle_startDate h M⟩
    change M / 12 ≤ 9999
    omega

theorem start_natCast (M : ℕ) : start reset M = dateText (startDate h M) := by
  have hrday := rday_bounds h (M / 12 : ℕ) (M % 12 + 1 : ℕ)
  have hcast : ((rday reset (M / 12 : ℕ) (M % 12 + 1 : ℕ)).toNat : ℤ) =
      rday reset (M / 12 : ℕ) (M % 12 + 1 : ℕ) := Int.toNat_of_nonneg (by omega)
  change _ = ymd (M / 12 : ℕ) (M % 12 + 1 : ℕ)
    ((rday reset (M / 12 : ℕ) (M % 12 + 1 : ℕ)).toNat : ℤ)
  rw [hcast]
  rfl

theorem lt_of_before_start (hM : -1 ≤ M) (hM' : M < 120000)
    (hN : -1 ≤ N) (hN' : N < 120000) (hb : before (start reset M) (start reset N)) : M < N := by
  rcases Int.lt_or_le M 0 with hneg | hpos
  · by_contra hge
    have he : M = N := by omega
    rw [he, not_before_self] at hb
    cases hb
  · lift M to ℕ using hpos
    have hyear : (startDate h M).year ≤ 9999 := by
      change M / 12 ≤ 9999
      omega
    rw [start_natCast h, before_start_iff h hyear hN hN', cycle_startDate] at hb
    exact hb

/-! ## The tiling -/

theorem cycle_lt_of_not_last (hD : D.year ≤ 9999)
    (hlast : ¬ LastCycle reset D) : cycle reset D + 1 < 120000 := by
  have hmonth := D.month_le
  rw [cycle]
  by_cases hdec : D.year = 9999 ∧ D.month = 12
  · have hrday : rday reset (9999 : ℕ) (12 : ℕ) = reset := by
      have hdim : dim (9999 : ℕ) (12 : ℕ) = 31 := by decide
      rw [rday, hdim, if_neg (by omega)]
    have hday : ¬ reset ≤ D.day := fun hle => hlast ⟨hdec.1, hdec.2, hle⟩
    rw [hdec.1, hdec.2, hrday, if_neg hday]
    decide
  · split_ifs <;> omega

theorem cnext_last (hlast : LastCycle reset D) :
    cnext reset (cstart reset (dateText D)) = ymd 10000 1 reset ∧
      before (ymd 10000 1 reset) (cstart reset (dateText D)) := by
  obtain ⟨hyear, hmonth, hday⟩ := hlast
  have hrday : ∀ y m, dim y m = 31 → rday reset y m = reset := fun y m hdim => by
    rw [rday, hdim, if_neg (by omega)]
  have hcycle : cycle reset D = 119999 := by
    rw [cycle, hyear, hmonth, hrday (9999 : ℕ) (12 : ℕ) (by decide), if_pos hday]
    decide
  rw [cstart_dateText (by omega), hcycle, cnext_start h ⟨by decide, by decide⟩]
  -- the texts differ in their first digit
  exact ⟨congrArg (ymd 10000 1) (hrday 10000 1 (by decide)), rfl⟩

theorem isStart_start (hlow : cycle reset firstDate ≤ M)
    (hhigh : M < 120000) : IsStart reset (start reset M) := by
  obtain ⟨D, hD, hcycle⟩ := exists_date h hlow hhigh
  exact ⟨D, hD, by rw [cstart_dateText hD, hcycle]⟩

theorem inside_iff {E : Date} (hE : E.year ≤ 9999)
    (hlow : -1 ≤ M) (hhigh : M + 1 < 120000) :
    (!before (dateText E) (start reset M) && before (dateText E) (start reset (M + 1))) =
      decide (cycle reset E = M) := by
  have hM := before_start_iff h hE hlow (by omega)
  have hM' := before_start_iff h hE (M := M + 1) (by omega) hhigh
  rw [Bool.eq_iff_iff, and_eq_true, not_eq_true', ← not_eq_true, hM, hM', decide_eq_true_eq]
  omega

end

theorem sum_filter_parts {α : Type} (f : α → ℤ) (p : ℕ → α → Bool) (N : ℕ) {es : List α}
    (h : ∀ e ∈ es, ∃ j < N, ∀ i < N, p i e = decide (i = j)) :
    ∑ i ∈ Finset.range N, ((es.filter (p i)).map f).sum = (es.map f).sum := by
  induction es with
  | nil => simp
  | cons e es ih =>
    obtain ⟨j, hj, hp⟩ := h e mem_cons_self
    have hcons : ∀ i ∈ Finset.range N, (((e :: es).filter (p i)).map f).sum =
        (if i = j then f e else 0) + ((es.filter (p i)).map f).sum := by
      intro i hi
      rw [filter_cons, hp i (Finset.mem_range.1 hi)]
      by_cases hij : i = j
      · simp [hij]
      · simp [hij]
    rw [Finset.sum_congr rfl hcons, Finset.sum_add_distrib, Finset.sum_ite_eq',
      if_pos (Finset.mem_range.2 hj),
      ih fun e' he' => h e' (.tail _ he'), map_cons, sum_cons]

/-- A cycle whose end has a text before that of its start has no day. -/
theorem sums_of_before {s stop : Text} (h : before stop s) (es : List Day) :
    sums es s stop = (0, 0) := by
  have hnone : es.filter (fun e => !before e.key s && before e.key stop) = [] := by
    rw [filter_eq_nil_iff]
    intro e _ hin
    rw [and_eq_true, before_iff] at hin
    rw [before_iff.2 (List.lt_trans hin.2 (before_iff.1 h))] at hin
    cases hin.1
  rw [sums, hnone]
  rfl

/-- **The cycles tile the calendar**, for every reset day and every date up to the year 9999, except
that the cycle that begins in December 9999 has no end there: the text of the year 10000 is before
that of each of its dates, and no day is found. -/
theorem cycles_tile (h : 1 ≤ reset ∧ reset ≤ 31) {D : Date} (hD : D.year ≤ 9999) :
    let s := cstart reset (dateText D)
    (before (dateText D) s = false ∧ cstart reset s = s) ∧
      (¬ LastCycle reset D → before (dateText D) (cnext reset s) ∧ IsStart reset (cnext reset s) ∧
        ∀ E : Date, E.year ≤ 9999 → before (dateText E) s = false →
          before (dateText E) (cnext reset s) → cstart reset (dateText E) = s) ∧
      (LastCycle reset D → cnext reset s = ymd 10000 1 reset ∧
        (∀ E : Date, E.year ≤ 9999 → cstart reset (dateText E) = s →
          before (cnext reset s) (dateText E)) ∧
        ∀ es : List Day, sums es s (cnext reset s) = (0, 0)) ∧
      ∃ N, (∀ j ≤ N, IsStart reset ((back reset)^[j] s)) ∧
        (∀ j < N, cnext reset ((back reset)^[j + 1] s) = (back reset)^[j] s) ∧
        (∀ E : Date, E.year ≤ 9999 → before (cstart reset (dateText E)) s →
          ∃! j, j ≤ N ∧ (back reset)^[j] s = cstart reset (dateText E)) ∧
        (¬ LastCycle reset D → ∀ es : List Day,
          (∀ e ∈ es, ∃ E : Date, E.year ≤ 9999 ∧ e.key = dateText E ∧
            before e.key (cnext reset s)) →
          ∑ j ∈ Finset.range (N + 1),
            (sums es ((back reset)^[j] s) (cnext reset ((back reset)^[j] s))).1 =
            (es.map Day.rx).sum ∧
          ∑ j ∈ Finset.range (N + 1),
            (sums es ((back reset)^[j] s) (cnext reset ((back reset)^[j] s))).2 =
            (es.map Day.tx).sum) := by
  obtain ⟨hlow, hhigh⟩ := cycle_bounds reset hD
  have hrange := inRange_cycle reset hD
  have hfirst := (cycle_bounds reset (D := firstDate) (by decide)).1
  have hle := cycle_firstDate_le reset D
  obtain ⟨N, hN⟩ := Int.eq_ofNat_of_zero_le (Int.sub_nonneg_of_le hle)
  have hin : ∀ j ≤ N, InRange (cycle reset D - j) := fun j hj => ⟨by omega, by omega⟩
  have hback : ∀ j ≤ N, (back reset)^[j] (start reset (cycle reset D)) =
      start reset (cycle reset D - j) := fun j hj => back_iterate h hrange (hin j hj)
  have hnext : ∀ j ≤ N, cnext reset (start reset (cycle reset D - j)) =
      start reset (cycle reset D - j + 1) := fun j hj => cnext_start h (hin j hj)
  have hnot : ∀ E : Date, E.year ≤ 9999 →
      before (dateText E) (cstart reset (dateText E)) = false := by
    intro E hE
    obtain ⟨hlowE, hhighE⟩ := cycle_bounds reset hE
    rw [cstart_dateText hE, eq_false_iff, ne_eq, before_start_iff h hE hlowE hhighE]
    omega
  have hlastNext := cnext_last h (D := D)
  have hnotD := hnot D hD
  simp only [cstart_dateText hD] at hlastNext hnotD ⊢
  refine ⟨⟨hnotD, cstart_start h hrange⟩,
    fun hlast => ?_, fun hlast => ?_, N, fun j hj => ?_, fun j hj => ?_,
    fun E hE hb => ?_, fun hlast es hes => ?_⟩
  · have hlt := cycle_lt_of_not_last h hD hlast
    rw [cnext_start h hrange]
    refine ⟨(before_start_iff h hD (by omega) hlt).2 (by omega), isStart_start h (by omega) hlt, ?_⟩
    intro E hE hnot hbefore
    have hcycle := inside_iff h hE hlow hlt
    rw [hnot, hbefore] at hcycle
    rw [cstart_dateText hE, of_decide_eq_true hcycle.symm]
  · obtain ⟨hnext, hbefore⟩ := hlastNext hlast
    rw [hnext]
    refine ⟨rfl, fun E hE hs => ?_, sums_of_before hbefore⟩
    have hle := hnot E hE
    rw [hs, eq_false_iff, ne_eq, before_iff] at hle
    rw [before_iff] at hbefore ⊢
    by_contra hnot
    exact hle (List.lt_of_le_of_lt (List.not_lt.1 hnot) hbefore)
  · rw [hback j hj]
    exact isStart_start h (by omega) (by omega)
  · have hindex : cycle reset D - ((j + 1 : ℕ) : ℤ) + 1 = cycle reset D - j := by omega
    rw [hback (j + 1) hj, hback j (by omega), hnext (j + 1) hj, hindex]
  · -- the step that gets there is as many as there are months between
    obtain ⟨hlowE, hhighE⟩ := cycle_bounds reset hE
    have hleE := cycle_firstDate_le reset E
    rw [cstart_dateText hE] at hb ⊢
    have hlt := lt_of_before_start h hlowE hhighE hlow hhigh hb
    obtain ⟨k, hk⟩ := Int.eq_ofNat_of_zero_le (Int.sub_nonneg_of_le (Int.le_of_lt hlt))
    have hcycle : cycle reset D - k = cycle reset E := by omega
    refine ⟨k, ⟨by omega, by rw [hback k (by omega), hcycle]⟩, ?_⟩
    rintro j ⟨hj, hsame⟩
    rw [hback j hj] at hsame
    have := start_inj h (hin j hj) (inRange_cycle _ hE) hsame
    omega
  · have hlt := cycle_lt_of_not_last h hD hlast
    have hparts : ∀ e ∈ es,
      ∃ j < N + 1, ∀ i < N + 1, (!before e.key (start reset (cycle reset D - i)) &&
          before e.key (start reset (cycle reset D - i + 1))) = decide (i = j) := by
      intro e he
      obtain ⟨E, hE, hkey, hbefore⟩ := hes e he
      have hleE := cycle_firstDate_le reset E
      rw [hkey, cnext_start h hrange, before_start_iff h hE (by omega) hlt] at hbefore
      obtain ⟨k, hk⟩ := Int.eq_ofNat_of_zero_le (show 0 ≤ cycle reset D - cycle reset E by omega)
      refine ⟨k, by omega, fun i hi => ?_⟩
      rw [hkey, inside_iff h hE (by omega) (by omega), decide_eq_decide]
      omega
    have hsums : ∀ j ∈ Finset.range (N + 1),
        sums es ((back reset)^[j] (start reset (cycle reset D)))
            (cnext reset ((back reset)^[j] (start reset (cycle reset D)))) =
          sums es (start reset (cycle reset D - j)) (start reset (cycle reset D - j + 1)) := by
      intro j hj
      have hj' := Nat.le_of_lt_succ (Finset.mem_range.1 hj)
      rw [hback j hj', hnext j hj']
    constructor
    · rw [Finset.sum_congr rfl fun j hj => by rw [hsums j hj]]
      exact sum_filter_parts Day.rx _ (N + 1) hparts
    · rw [Finset.sum_congr rfl fun j hj => by rw [hsums j hj]]
      exact sum_filter_parts Day.tx _ (N + 1) hparts

def leapDate : Date where
  year := 2024
  month := 2
  day := 29
  month_pos := by decide
  month_le := by decide
  day_pos := by decide
  day_le := by decide

/-- With a reset day of 31 the leap day is a start, and the next one is 2024-03-31. -/
theorem cycles_tile_leapDate :
    cstart 31 (dateText leapDate) = "2024-02-29" ∧
      cnext 31 (cstart 31 (dateText leapDate)) = "2024-03-31" ∧
      ¬ LastCycle 31 leapDate ∧
      before (dateText leapDate) (cnext 31 (cstart 31 (dateText leapDate))) :=
  ⟨by decide, by decide, by decide, ((cycles_tile (by decide) (by decide)).2.1 (by decide)).1⟩

def lastDate : Date where
  year := 9999
  month := 12
  day := 31
  month_pos := by decide
  month_le := by decide
  day_pos := by decide
  day_le := by decide

/-- Its text is not before the text of the cycle's end, so that no cycle has the last day's
bytes. -/
theorem last_day_in_no_cycle :
    cstart 1 (dateText lastDate) = "9999-12-01" ∧
      cnext 1 (cstart 1 (dateText lastDate)) = "10000-01-01" ∧
      before (dateText lastDate) (cnext 1 (cstart 1 (dateText lastDate))) = false ∧
      ∀ s, IsStart 1 s → sums [⟨dateText lastDate, 5, 7⟩] s (cnext 1 s) = (0, 0) := by
  have hcycle : cycle 1 lastDate = 119999 := by decide
  refine ⟨by decide, by decide, by decide, ?_⟩
  rintro s ⟨E, hE, rfl⟩
  obtain ⟨hlow, hhigh⟩ := cycle_bounds 1 hE
  rw [cstart_dateText hE, cnext_start (by decide) (inRange_cycle _ hE)]
  by_cases hend : cycle 1 E = 119999
  · rw [hend]
    decide
  · have hout := inside_iff (show 1 ≤ (1 : ℤ) ∧ (1 : ℤ) ≤ 31 by decide) (E := lastDate) (by decide)
      hlow (by omega)
    rw [hcycle, decide_eq_false (Ne.symm hend)] at hout
    simp only [sums, filter_cons, hout]
    rfl

end Mu300.Traffic
