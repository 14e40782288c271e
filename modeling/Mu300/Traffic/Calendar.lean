import Mu300.Lib.Digits
import Mu300.Lib.Gregorian

/-!
# The calendar of the traffic ledger

The date functions of the awk program in `mu300-traffic`. Its `int()` rounds towards zero and
its `%` takes the sign of the dividend; a date is a text and is compared as one.
-/

namespace Mu300.Traffic

open Shell Digits List Char Int

/-! ## Dates -/

/-- `sprintf("%0<w>d", n)`. -/
def zeroPad (w : ℕ) : ℤ → Text
  | .ofNat n => if n < 10 ^ w then fixed w n else Nat.toDigits 10 n
  | .negSucc n => '-' :: if n + 1 < 10 ^ (w - 1) then fixed (w - 1) (n + 1)
    else Nat.toDigits 10 (n + 1)

def ymd (y m d : ℤ) : Text := zeroPad 4 y ++ '-' :: (zeroPad 2 m ++ '-' :: zeroPad 2 d)

/-- The body of `civil`: the date of a day, counted from 1 March of the year 0. -/
def civilDate (z : ℤ) : Text :=
  let era := z.tdiv 146097
  let doe := z - era * 146097
  let yoe := (doe - doe.tdiv 1460 + doe.tdiv 36524 - doe.tdiv 146096).tdiv 365
  let y := yoe + era * 400
  let doy := doe - (365 * yoe + yoe.tdiv 4 - yoe.tdiv 100)
  let mp := (5 * doy + 2).tdiv 153
  let d := doy - (153 * mp + 2).tdiv 5 + 1
  let m := if mp < 10 then mp + 3 else mp - 9
  ymd (y + if m ≤ 2 then 1 else 0) m d

/-- `civil`: the local day of the instant `t`. -/
def civil (off t : ℤ) : Text := civilDate ((t + off).tdiv 86400 + 719468)

/-- `nextmid`: the midnight after it. -/
def nextmid (off t : ℤ) : ℤ := t - (t + off).tmod 86400 + 86400

/-! ## Billing cycles -/

/-- `substr(day, i, n) + 0`: the whole number it begins with. -/
def number (day : Text) (i n : ℕ) : ℤ :=
  let t := (day.drop (i - 1)).take n
  if t.head? = some '-' then -(value (t.tail.takeWhile isDigit) : ℤ)
  else value ((if t.head? = some '+' then t.tail else t).takeWhile isDigit)

/-- `dim`: the days of a month. -/
def dim (y m : ℤ) : ℤ :=
  if m = 2 then
    if y.tmod 4 = 0 ∧ y.tmod 100 ≠ 0 ∨ y.tmod 400 = 0 then 29 else 28
  else if m = 4 ∨ m = 6 ∨ m = 9 ∨ m = 11 then 30 else 31

/-- `rday`: the day a cycle starts on. -/
def rday (reset y m : ℤ) : ℤ := if reset > dim y m then dim y m else reset

/-- `cstart`: the first day of the billing cycle a day is in. -/
def cstart (reset : ℤ) (day : Text) : Text :=
  let y := number day 1 4
  let m := number day 6 2
  let d := number day 9 2
  if d ≥ rday reset y m then ymd y m (rday reset y m)
  else
    let (y, m) := if m - 1 < 1 then (y - 1, 12) else (y, m - 1)
    ymd y m (rday reset y m)

/-- `cnext`: the first day of the cycle after the one that starts at `start`. -/
def cnext (reset : ℤ) (start : Text) : Text :=
  let y := number start 1 4
  let m := number start 6 2 + 1
  let (y, m) := if m > 12 then (y + 1, 1) else (y, m)
  ymd y m (rday reset y m)

/-- `dnum`: the number of a day, 1970-01-01 being 0. -/
def dnum (s : Text) : ℤ :=
  let y := number s 1 4
  let m := number s 6 2
  let d := number s 9 2
  let y := y - if m ≤ 2 then 1 else 0
  let era := y.tdiv 400
  let yoe := y - era * 400
  let doy := (153 * (if m > 2 then m - 3 else m + 9) + 2).tdiv 5 + d - 1
  era * 146097 + yoe * 365 + yoe.tdiv 4 - yoe.tdiv 100 + doy - 719468

/-- `prevday`: the day before. -/
def prevday (day : Text) : Text :=
  let y := number day 1 4
  let m := number day 6 2
  let d := number day 9 2 - 1
  if d < 1 then
    let (y, m) := if m - 1 < 1 then (y - 1, 12) else (y, m - 1)
    ymd y m (dim y m)
  else ymd y m d

/-- What a day must look like in the ledger. -/
def dateShape (k : Text) : Bool :=
  k.length = 10 && (k.take 4).all isDigit && (k.drop 4).head? = some '-' &&
    ((k.drop 5).take 2).all isDigit && (k.drop 7).head? = some '-' &&
      (k.drop 8).all isDigit

/-! ## Days and their dates -/

open Gregorian in
theorem civilDate_natCast (z : ℕ) :
    civilDate z = ymd (yearNumber (year z) (month (dayOfYear z)))
      (monthNumber (month (dayOfYear z))) (day (dayOfYear z)) := by
  have hlt : z % 146097 < 146097 := Nat.mod_lt _ (by decide)
  have hera : (z : ℤ).tdiv 146097 = (z / 146097 : ℕ) := rfl
  have hdoe : (z : ℤ) - (z / 146097 : ℕ) * 146097 = (z % 146097 : ℕ) := by omega
  have hyoe : ((z % 146097 : ℕ) : ℤ) - ((z % 146097 : ℕ) : ℤ).tdiv 1460 +
      ((z % 146097 : ℕ) : ℤ).tdiv 36524 - ((z % 146097 : ℕ) : ℤ).tdiv 146096 =
        (shrink (z % 146097) : ℕ) := by
    change ((z % 146097 : ℕ) : ℤ) - (z % 146097 / 1460 : ℕ) + (z % 146097 / 36524 : ℕ) -
      (z % 146097 / 146096 : ℕ) = _
    simp only [shrink]
    omega
  have hyear : ((yearOfEra (z % 146097) : ℕ) : ℤ) + (z / 146097 : ℕ) * 400 = (year z : ℕ) := by
    simp only [year]
    omega
  have hdoy : ((z % 146097 : ℕ) : ℤ) - (365 * (yearOfEra (z % 146097) : ℕ) +
      ((yearOfEra (z % 146097) : ℕ) : ℤ).tdiv 4 - ((yearOfEra (z % 146097) : ℕ) : ℤ).tdiv 100) =
        (dayOfYear z : ℕ) := by
    change ((z % 146097 : ℕ) : ℤ) - (365 * (yearOfEra (z % 146097) : ℕ) +
      (yearOfEra (z % 146097) / 4 : ℕ) - (yearOfEra (z % 146097) / 100 : ℕ)) = _
    have hy := yearOfEra_lt hlt
    have hadd := dayOfYear_add z
    simp only [yearStart] at hadd
    omega
  have hmp : (5 * ((dayOfYear z : ℕ) : ℤ) + 2).tdiv 153 = (month (dayOfYear z) : ℕ) := rfl
  have hd : ((dayOfYear z : ℕ) : ℤ) - (153 * ((month (dayOfYear z) : ℕ) : ℤ) + 2).tdiv 5 + 1 =
      (day (dayOfYear z) : ℕ) := by
    change ((dayOfYear z : ℕ) : ℤ) - ((153 * month (dayOfYear z) + 2) / 5 : ℕ) + 1 = _
    simp only [day, month]
    omega
  have hmonth := month_le (dayOfYear_le z)
  have hydef : ((shrink (z % 146097) : ℕ) : ℤ).tdiv 365 = (yearOfEra (z % 146097) : ℕ) := rfl
  simp only [civilDate, hera, hdoe, hyoe, hydef, hdoy, hmp, hd, hyear]
  by_cases hm : month (dayOfYear z) < 10
  · have hm' : ((month (dayOfYear z) : ℕ) : ℤ) < 10 := by omega
    have hgt : ¬ ((month (dayOfYear z) : ℕ) : ℤ) + 3 ≤ 2 := by omega
    simp [yearNumber, monthNumber, hm, hm', hgt]
  · have hm' : ¬ ((month (dayOfYear z) : ℕ) : ℤ) < 10 := by omega
    have hle : ((month (dayOfYear z) - 9 : ℕ) : ℤ) ≤ 2 := by omega
    have hcast : ((month (dayOfYear z) : ℕ) : ℤ) - 9 = (month (dayOfYear z) - 9 : ℕ) := by omega
    simp [yearNumber, monthNumber, hm, hm', hle, hcast]

theorem zeroPad_natCast {w n : ℕ} (h : n < 10 ^ w) : zeroPad w n = fixed w n := by
  change (if n < 10 ^ w then fixed w n else Nat.toDigits 10 n) = _
  rw [if_pos h]

theorem zeroPad_negSucc {w n : ℕ} (h : n + 1 < 10 ^ w) :
    zeroPad (w + 1) (.negSucc n) = '-' :: fixed w (n + 1) := by
  change '-' :: (if n + 1 < 10 ^ w then fixed w (n + 1) else Nat.toDigits 10 (n + 1)) = _
  rw [if_pos h]

/-- Three numbers that are written with four, two and two characters. -/
structure Legible (y m d : ℤ) : Prop where
  year : -1000 < y ∧ y < 10000
  month : 0 ≤ m ∧ m < 100
  day : 0 ≤ d ∧ d < 100

theorem length_zeroPad_year {y : ℤ} (h : -1000 < y ∧ y < 10000) : (zeroPad 4 y).length = 4 := by
  cases y with
  | ofNat n =>
    rw [ofNat_eq_natCast] at h ⊢
    rw [zeroPad_natCast (by omega), length_fixed]
  | negSucc n => rw [zeroPad_negSucc (w := 3) (by omega), length_cons, length_fixed]

theorem number_append (pre t post : Text) :
    number (pre ++ (t ++ post)) (pre.length + 1) t.length = number t 1 t.length := by
  simp [number]

theorem number_fixed {w n : ℕ} (h : n < 10 ^ w) : number (fixed w n) 1 w = n := by
  have hhead : ∀ ch, ¬ ch.isDigit → (fixed w n).head? ≠ some ch := fun ch hch hhead =>
    hch (isDigit_of_mem_fixed (mem_of_mem_head? hhead))
  have htake : (fixed w n).take w = fixed w n := take_of_length_le (by rw [length_fixed])
  have hall : (fixed w n).takeWhile isDigit = fixed w n :=
    takeWhile_eq_self_iff.2 fun _ hch => isDigit_of_mem_fixed hch
  simp only [number, Nat.sub_self, drop_zero, htake]
  rw [if_neg (hhead '-' (by decide)), if_neg (hhead '+' (by decide)), hall, value_fixed h]

theorem number_year {y : ℤ} (h : -1000 < y ∧ y < 10000) : number (zeroPad 4 y) 1 4 = y := by
  cases y with
  | ofNat n =>
    rw [ofNat_eq_natCast] at h ⊢
    rw [zeroPad_natCast (by omega)]
    exact number_fixed (by omega)
  | negSucc n =>
    have hn : n + 1 < 10 ^ 3 := by omega
    have hall : (fixed 3 (n + 1)).takeWhile isDigit = fixed 3 (n + 1) :=
      takeWhile_eq_self_iff.2 fun _ hch => isDigit_of_mem_fixed hch
    have htake : ('-' :: fixed 3 (n + 1)).take 4 = '-' :: fixed 3 (n + 1) :=
        take_of_length_le (by simp)
    rw [zeroPad_negSucc hn]
    simp only [number, Nat.sub_self, drop_zero, htake, head?_cons, if_true, tail_cons, hall,
      value_fixed hn]
    rfl

/-- **A date is read back** as it was written. -/
theorem number_ymd {y m d : ℤ} (h : Legible y m d) : number (ymd y m d) 1 4 = y ∧
    number (ymd y m d) 6 2 = m ∧ number (ymd y m d) 9 2 = d := by
  obtain ⟨hy, hm, hd⟩ := h
  have hlen := length_zeroPad_year hy
  lift m to ℕ using hm.1
  lift d to ℕ using hd.1
  have hm' : m < 10 ^ 2 := by omega
  have hd' : d < 10 ^ 2 := by omega
  rw [ymd, zeroPad_natCast hm', zeroPad_natCast hd']
  have hfirst := number_append [] (zeroPad 4 y) ('-' :: (fixed 2 m ++ '-' :: fixed 2 d))
  have hsecond := number_append (zeroPad 4 y ++ ['-']) (fixed 2 m) ('-' :: fixed 2 d)
  have hthird := number_append (zeroPad 4 y ++ '-' :: (fixed 2 m ++ ['-'])) (fixed 2 d) []
  simp only [nil_append, append_nil, append_assoc, cons_append,
    length_append, length_cons, length_nil, length_fixed, hlen] at hfirst hsecond hthird
  exact ⟨hfirst.trans (number_year hy), hsecond.trans (number_fixed hm'),
    hthird.trans (number_fixed hd')⟩

/-- **Dates are in the order of their texts.** -/
theorem before_ymd_iff {y m d y' m' d' : ℕ} (hy : y < 10000) (hm : m < 100) (hd : d < 100)
    (hy' : y' < 10000) (hm' : m' < 100) (hd' : d' < 100) :
    before (ymd y m d) (ymd y' m' d') ↔ y < y' ∨ y = y' ∧ (m < m' ∨ m = m' ∧ d < d') := by
  rw [ymd, ymd, zeroPad_natCast hy, zeroPad_natCast hm, zeroPad_natCast hd, zeroPad_natCast hy',
    zeroPad_natCast hm', zeroPad_natCast hd', before_fixed_append_iff hy hy',
      before_fixed_append_iff hm hm',
    before_fixed_iff (w := 2) hd hd']

open Gregorian in
theorem date_bounds {z : ℕ} (hz : z < 3652365) : yearNumber (year z) (month (dayOfYear z)) < 10000 ∧
      monthNumber (month (dayOfYear z)) < 100 ∧ day (dayOfYear z) < 100 := by
  have hyear : year z < 10000 := by
    by_contra h
    have := (le_year_iff 10000 z).1 (by omega)
    simp only [yearStart] at this
    omega
  have hmonth := month_le (dayOfYear_le z)
  have hday := day_bounds (dayOfYear z)
  refine ⟨?_, by simp only [monthNumber]; split <;> omega, by omega⟩
  rcases Nat.lt_or_ge (month (dayOfYear z)) 10 with hm | hm
  · simpa [yearNumber, hm] using hyear
  · -- the last year there is ends in December
    have hne : year z ≠ 9999 := by
      intro h
      simp only [dayOfYear, h, yearStart, month] at hm
      omega
    rw [yearNumber, if_neg (by omega)]
    omega

open Gregorian in
theorem before_civilDate {z z' : ℕ} (h : z < z') (hz : z' < 3652365) :
    before (civilDate z) (civilDate z') := by
  obtain ⟨hy', hm', hd'⟩ := date_bounds hz
  obtain ⟨hy, hm, hd⟩ := date_bounds (Nat.lt_trans h hz)
  have hmonth := month_le (dayOfYear_le z)
  have hmonth' := month_le (dayOfYear_le z')
  have hlex := lex_of_lt h
  rw [civilDate_natCast, civilDate_natCast, before_ymd_iff hy hm hd hy' hm' hd']
  simp only [yearNumber, monthNumber]
  split <;> split <;> omega

theorem not_before_civilDate {z z' : ℕ} (h : z ≤ z') (hz : z' < 3652365) :
    before (civilDate z') (civilDate z) = false := by
  rcases Nat.lt_or_eq_of_le h with hlt | rfl
  · exact not_before_of_before (before_civilDate hlt hz)
  · exact not_before_self _

theorem dateShape_ymd {y m d : ℕ} (hy : y < 10000) (hm : m < 100) (hd : d < 100) :
    dateShape (ymd y m d) := by
  have hall : ∀ w n, (fixed w n).all isDigit := fun w n =>
    all_eq_true.2 fun _ hch => isDigit_of_mem_fixed hch
  rw [ymd, zeroPad_natCast hy, zeroPad_natCast hm, zeroPad_natCast hd]
  -- what the wrong part is cut to is empty, or digits all the same
  have hrest : (∀ ch ∈ ((fixed 4 y).drop 5).take 2, ch.isDigit) ∧
      (∀ ch ∈ (fixed 4 y).drop 8, ch.isDigit) ∧ ∀ ch ∈ (fixed 2 m).drop 3, ch.isDigit :=
    ⟨fun ch h => isDigit_of_mem_fixed (mem_of_mem_drop (mem_of_mem_take h)),
      fun ch h => isDigit_of_mem_fixed (mem_of_mem_drop h),
      fun ch h => isDigit_of_mem_fixed (mem_of_mem_drop h)⟩
  simpa [dateShape, take_append, drop_append, hall] using hrest

/-! ## Instants -/

/-- The instants with a date of four digits, by their local time: from 1 March of the year 0
to the end of the year 9999. -/
def Dated (x : ℤ) : Prop := -62162035200 ≤ x ∧ x < 253402300800

theorem Dated.day {x : ℤ} (h : Dated x) : ∃ z : ℕ, x.tdiv 86400 + 719468 = z ∧ z < 3652365 := by
  obtain ⟨h0, h1⟩ := h
  have hlow : (-62162035200 : ℤ).tdiv 86400 ≤ x.tdiv 86400 := Int.tdiv_le_tdiv (by decide) h0
  have hhigh : x.tdiv 86400 ≤ (253402300799 : ℤ).tdiv 86400 :=
      Int.tdiv_le_tdiv (by decide) (by omega)
  have hl : (-62162035200 : ℤ).tdiv 86400 = -719468 := by decide
  have hh : (253402300799 : ℤ).tdiv 86400 = 2932896 := by decide
  obtain ⟨z, hz⟩ := eq_ofNat_of_zero_le (show 0 ≤ x.tdiv 86400 + 719468 by omega)
  exact ⟨z, hz, by omega⟩

/-- **A later instant is not on an earlier day**, each with its own offset from UTC. -/
theorem not_before_civil {off off' t t' : ℤ} (h0 : Dated (t + off)) (h1 : Dated (t' + off'))
    (h : t + off ≤ t' + off') : before (civil off' t') (civil off t) = false := by
  obtain ⟨z, hz, -⟩ := h0.day
  obtain ⟨z', hz', hlt⟩ := h1.day
  rw [civil, civil, hz, hz']
  refine not_before_civilDate ?_ hlt
  have := Int.tdiv_le_tdiv (c := 86400) (by decide) h
  omega

theorem dateShape_civil {off t : ℤ} (h : Dated (t + off)) : dateShape (civil off t) := by
  obtain ⟨z, hz, hlt⟩ := h.day
  obtain ⟨hy, hm, hd⟩ := date_bounds hlt
  rw [civil, hz, civilDate_natCast]
  exact dateShape_ymd hy hm hd

/-! ## Dates and their numbers -/

/-- A date as the ledger writes it. -/
def dateText (D : Gregorian.Date) : Text := ymd D.year D.month D.day

open Gregorian in
theorem dim_natCast (y m : ℕ) : dim y m = monthDays y m := by
  have h2 : ((m : ℤ) = 2) ↔ m = 2 := by omega
  have hleap : ((y : ℤ).tmod 4 = 0 ∧ (y : ℤ).tmod 100 ≠ 0 ∨ (y : ℤ).tmod 400 = 0) ↔ Leap y := by
    change (((y % 4 : ℕ) : ℤ) = 0 ∧ ((y % 100 : ℕ) : ℤ) ≠ 0 ∨ ((y % 400 : ℕ) : ℤ) = 0) ↔ _
    rw [Leap]
    omega
  have hshort : ((m : ℤ) = 4 ∨ (m : ℤ) = 6 ∨ (m : ℤ) = 9 ∨ (m : ℤ) = 11) ↔ m = 4 ∨ m = 6 ∨ m = 9 ∨
    m = 11 := by omega
  simp only [dim, monthDays, h2, hleap, hshort]
  split_ifs <;> rfl

open Gregorian in
/-- **The number of a day**, from its date. -/
theorem dnum_civilDate {z : ℕ} (hz : z < 3652365) : dnum (civilDate z) = z - 719468 := by
  obtain ⟨hy, hm, hd⟩ := date_bounds hz
  have hmonth := month_le (dayOfYear_le z)
  have hdoy := dayOfYear_eq (dayOfYear z)
  have hle := yearStart_year_le z
  have hz' : z = yearStart (year z) + dayOfYear z := by
    rw [dayOfYear]
    omega
  have hera : yearStart (year z) = 146097 * (year z / 400) + yearStart (year z % 400) := by
    rw [← yearStart_add, Nat.div_add_mod]
  have hyoe : yearStart (year z % 400) = 365 * (year z % 400) + year z % 400 / 4 - year
      z % 400 / 100 := by
    have : year z % 400 / 400 = 0 := by omega
    rw [yearStart, this, Nat.add_zero]
  obtain ⟨hry, hrm, hrd⟩ := number_ymd (y := yearNumber (year z) (month (dayOfYear z)))
    (m := monthNumber (month (dayOfYear z))) (d := day (dayOfYear z))
    ⟨by omega, by omega, by omega⟩
  rw [civilDate_natCast, dnum, hry, hrm, hrd]
  -- the year and the month from March on, again
  have hback : ((yearNumber (year z) (month (dayOfYear z)) : ℕ) : ℤ) -
        (if ((monthNumber (month (dayOfYear z)) : ℕ) : ℤ) ≤ 2 then 1 else 0) = (year z : ℕ) ∧
      (if ((monthNumber (month (dayOfYear z)) : ℕ) : ℤ) > 2 then
          ((monthNumber (month (dayOfYear z)) : ℕ) : ℤ) - 3
        else ((monthNumber (month (dayOfYear z)) : ℕ) : ℤ) + 9) = (month (dayOfYear z) : ℕ) := by
    simp only [yearNumber, monthNumber]
    split_ifs <;> omega
  have hera' : ((year z : ℕ) : ℤ).tdiv 400 = (year z / 400 : ℕ) := rfl
  have hrest : ((year z : ℕ) : ℤ) - (year z / 400 : ℕ) * 400 = (year z % 400 : ℕ) := by omega
  have h4 : ((year z % 400 : ℕ) : ℤ).tdiv 4 = (year z % 400 / 4 : ℕ) := rfl
  have h100 : ((year z % 400 : ℕ) : ℤ).tdiv 100 = (year z % 400 / 100 : ℕ) := rfl
  have hmonths : (153 * ((month (dayOfYear z) : ℕ) : ℤ) + 2).tdiv 5 =
    ((153 * month (dayOfYear z) + 2) / 5 : ℕ) := rfl
  simp only [hback.1, hback.2, hera', hrest, h4, h100, hmonths]
  omega

theorem civil_of_nonneg {off t : ℤ} (h : 0 ≤ t + off) : ∃ q : ℕ, (t + off) / 86400 = q ∧
    civil off t = civilDate ((q + 719468 : ℕ) : ℤ) := by
  obtain ⟨q, hq⟩ := eq_ofNat_of_zero_le (ediv_nonneg h (show (0 : ℤ) ≤ 86400 by decide))
  refine ⟨q, hq, ?_⟩
  rw [civil, tdiv_eq_ediv_of_nonneg h, hq]
  rfl

theorem nextmid_of_nonneg {off t : ℤ} (h : 0 ≤ t + off) :
    nextmid off t + off = ((t + off) / 86400 + 1) * 86400 := by
  rw [nextmid, tmod_eq_emod_of_nonneg h]
  omega

theorem civilDate_succ_ne {z : ℕ} (hz : z < 3652365) :
    civilDate ((z + 1 : ℕ) : ℤ) ≠ civilDate z := by
  intro he
  rcases Nat.lt_or_eq_of_le (Nat.succ_le_of_lt hz) with hlt | hlast
  · have hbefore := before_civilDate (Nat.lt_succ_self z) hlt
    rw [he, not_before_self] at hbefore
    cases hbefore
  · obtain rfl : z = 3652364 := by omega
    revert he
    decide +kernel

open Gregorian in
/-- **The calendar of the ledger is right**: for every instant from 1970 on, by local time, and up
to the year 9999. -/
theorem calendar_right {off t : ℤ} (h0 : 0 ≤ t + off) (h1 : t + off < 253402300800) :
    dnum (civil off t) = (t + off) / 86400 ∧
    (∃ D : Date, D.year ≤ 9999 ∧ civil off t = dateText D) ∧
      (∀ t', 0 ≤ t' + off → t' + off < 253402300800 →
        ((t' + off) / 86400 = (t + off) / 86400 → civil off t' = civil off t) ∧
          ((t + off) / 86400 < (t' + off) / 86400 → before (civil off t) (civil off t'))) ∧
      t < nextmid off t ∧ civil off (nextmid off t) ≠ civil off t ∧
      ∀ t', t < t' → t' < nextmid off t → civil off t' = civil off t := by
  obtain ⟨q, hq, hcivil⟩ := civil_of_nonneg h0
  have hz : q + 719468 < 3652365 := by omega
  have hsame : ∀ t', 0 ≤ t' + off → (t' + off) / 86400 = (t + off) / 86400 →
      civil off t' = civil off t := by
    intro t' h0' hday
    obtain ⟨q', hq', hcivil'⟩ := civil_of_nonneg h0'
    rw [hq, hq', natCast_inj] at hday
    rw [hcivil, hcivil', hday]
  have hmid := nextmid_of_nonneg h0
  refine ⟨?_, ⟨.ofDay (q + 719468), ?_, ?_⟩, fun t' h0' h1' => ⟨hsame t' h0', fun hlt => ?_⟩, ?_,
    ?_, fun t' hlt hgt => hsame t' (by omega) (by omega)⟩
  · rw [hcivil, dnum_civilDate hz, hq]
    omega
  · exact Nat.le_of_lt_succ (date_bounds hz).1
  · rw [hcivil, civilDate_natCast]
    rfl
  · obtain ⟨q', hq', hcivil'⟩ := civil_of_nonneg h0'
    rw [hcivil, hcivil']
    exact before_civilDate (by omega) (by omega)
  · omega
  · obtain ⟨q', hq', hcivil'⟩ := civil_of_nonneg (show 0 ≤ nextmid off t + off by omega)
    obtain rfl : q' = q + 1 := by omega
    rw [hcivil, hcivil', Nat.add_right_comm]
    exact civilDate_succ_ne hz

/-- The last minutes of a leap day, one hour east of Greenwich. -/
theorem calendar_right_leap_day : dnum "2024-02-29" = 19782 ∧
    civil 3600 1709247000 = "2024-02-29" ∧ nextmid 3600 1709247000 = 1709247600 ∧
      civil 3600 1709247600 ≠ civil 3600 1709247000 :=
  ⟨by decide +kernel, by decide +kernel, by decide,
    (calendar_right (show (0 : ℤ) ≤ 1709247000 + 3600 by decide) (by decide)).2.2.2.2.1⟩

end Mu300.Traffic
