import Mu300.Lib.Digits
import Mu300.Lib.Gregorian
import Mu300.Sms.Group

/-!
# Time stamps

`ts_secs` counts the days of a year with a table and every fourth year as a leap year. For the years
a stamp can name that is the calendar, whose days are counted here month by month.
-/

namespace Mu300.Sms

open Shell List Gregorian Digits

/-- A time of the years that a timestamp can name. -/
structure Stamp extends Date where
  hour : ℕ
  minute : ℕ
  second : ℕ
  century : 2000 ≤ year ∧ year ≤ 2099
  hour_lt : hour < 24
  minute_lt : minute < 60
  second_lt : second < 60

/-- **The days from 2000 on** are what `ts_secs` counts. -/
theorem monthStart_century {c j : ℕ} (hc : monthStart 24000 = c) (hj : j ≤ 1200) :
    monthStart (24000 + j) = c + (j / 12 * 365 + (j / 12 + 3) / 4 + daysBefore.getD (j % 12) 0 +
      if 2 ≤ j % 12 ∧ j / 12 % 4 = 0 then 1 else 0) := by
  induction j with
  | zero => simp [hc, daysBefore]
  | succ j ih =>
    obtain ⟨y, r, hr, rfl⟩ : ∃ y r, r < 12 ∧ j = 12 * y + r :=
      ⟨j / 12, j % 12, Nat.mod_lt _ (by decide), (Nat.div_add_mod j 12).symm⟩
    have hleap : Leap (2000 + y) ↔ y % 4 = 0 := by simp only [Leap]; omega
    have hyear : (24000 + (12 * y + r)) / 12 = 2000 + y := by omega
    have hmonth : (24000 + (12 * y + r)) % 12 = r := by omega
    rw [← Nat.add_assoc, monthStart, ih (by omega), hyear, hmonth]
    -- the twelve months of a year, February with its day more in every fourth one
    interval_cases r <;>
      simp [monthDays, hleap, daysBefore, Nat.add_assoc, Nat.mul_add_div] <;>
        (try split_ifs) <;> omega

theorem fixed_year {y : ℕ} (h : 2000 ≤ y ∧ y ≤ 2099) :
    fixed 4 y = '2' :: '0' :: fixed 2 (y - 2000) := by
  have hall : ∀ n < 100, fixed 4 (2000 + n) = '2' :: '0' :: fixed 2 n := by decide +kernel
  obtain ⟨n, rfl⟩ := Nat.exists_eq_add_of_le h.1
  rw [Nat.add_sub_cancel_left]
  exact hall n (by omega)

theorem fixed_two {n : ℕ} (h : n < 100) : ∃ a b, fixed 2 n = [a, b] ∧ a.isDigit ∧ b.isDigit ∧
    Nat.ofDigitChars 10 [a, b] 0 = n := by
  have hvalue : ∀ n < 100, Nat.ofDigitChars 10 (fixed 2 n) 0 = n := by decide +kernel
  have hdigit : ∀ n, (Nat.digitChar (n % 10)).isDigit := fun n =>
      isDigit_digitChar (Nat.mod_lt _ (by decide))
  exact ⟨_, _, rfl, hdigit _, hdigit _, hvalue n h⟩

/-- Two digits in a byte, the first one in the low half. -/
def semiOctet (n : ℕ) : ℕ := n / 10 + 16 * (n % 10)

namespace Stamp

variable (s : Stamp)

/-- The time in the decoder's format. -/
def text : Text :=
  fixed 4 s.year ++ '-' :: (fixed 2 s.month ++ '-' :: (fixed 2 s.day ++ ' ' ::
    (fixed 2 s.hour ++ ':' :: (fixed 2 s.minute ++ ':' :: fixed 2 s.second))))

/-- The seconds of the calendar before it. -/
def time : ℕ := s.days * 86400 + s.hour * 3600 + s.minute * 60 + s.second

theorem fields_lt : s.year < 10 ^ 4 ∧ s.month < 100 ∧ s.day < 100 ∧ s.hour < 100 ∧ s.minute < 100 ∧
    s.second < 100 := by
  have hday := Nat.le_trans s.day_le (monthDays_le s.year s.month).2
  have hmonth := s.month_le
  have hyear := s.century
  have hhour := s.hour_lt
  have hminute := s.minute_lt
  have hsecond := s.second_lt
  omega

/-- **The decoder's format** is what `ts_decode` makes of six semi-octets. -/
theorem tsDecode_eq {h : Text} {off : ℕ} (hb : (range 6).map (fun i => byteat h (off + i)) =
    [s.year - 2000, s.month, s.day, s.hour, s.minute, s.second].map semiOctet) :
    tsDecode h off = s.text := by
  obtain ⟨-, hm, hd, hh, hn, he⟩ := s.fields_lt
  have hy : s.year - 2000 < 100 := by
    have := s.century
    omega
  have hpick : ∀ n < 100, pick "0123456789" (semiOctet n &&& 15) ++ pick "0123456789"
      (semiOctet n >>> 4) = fixed 2 n := by
    decide +kernel
  simp only [range_succ, range_zero, nil_append, cons_append, map_cons, map_nil, cons.injEq,
    and_true] at hb
  simp only [tsDecode, range_succ, range_zero, nil_append, cons_append, flatMap_cons, flatMap_nil,
    hb, hpick, hy, hm, hd, hh, hn, he]
  simp [tsSeparator, text, fixed_year s.century]

/-- Digits come in swapped pairs. -/
theorem tsDecode_eq_new_year :
    tsDecode "62101091958500" 0 = text ⟨⟨2026, 1, 1, by decide, by decide, by decide,
    by decide⟩, 19, 59, 58, by decide, by decide, by decide, by decide⟩ :=
  tsDecode_eq _ (by decide +kernel)

theorem days_eq : s.days = monthStart 24000 + ((s.year - 2000) * 365 + (s.year - 2000 + 3) / 4 +
    daysBefore.getD (s.month - 1) 0 + (s.day - 1) +
      if 2 < s.month ∧ (s.year - 2000) % 4 = 0 then 1 else 0) := by
  obtain ⟨hfirst, hlast⟩ := s.century
  have hpos := s.month_pos
  have hle := s.month_le
  obtain ⟨j, hj⟩ : ∃ j, s.months = 24000 + j := Nat.exists_eq_add_of_le (by rw [Date.months]; omega)
  rw [Date.days, hj]
  rw [Date.months] at hj
  have hyear : j / 12 = s.year - 2000 := by omega
  have hmonth : j % 12 = s.month - 1 := by omega
  have htwo : 2 ≤ s.month - 1 ↔ 2 < s.month := by omega
  simp only [monthStart_century rfl (show j ≤ 1200 by omega), hyear, hmonth, htwo]
  omega

/-- **`ts_secs` counts the seconds of the calendar** from the beginning of the year 2000 on. -/
theorem tsSecs_text :
    tsSecs s.text = (s.time : ℤ) - monthStart 24000 * 86400 ∧ 0 ≤ tsSecs s.text := by
  obtain ⟨-, hm, hd, hh, hn, he⟩ := s.fields_lt
  obtain ⟨hfirst, hlast⟩ := s.century
  have hpos := s.month_pos
  have hle := s.month_le
  have hday := s.day_pos
  obtain ⟨y, y', hy, hyd, hyd', hY⟩ := fixed_two (show s.year - 2000 < 100 by omega)
  obtain ⟨m, m', hm, hmd, hmd', hM⟩ := fixed_two hm
  obtain ⟨d, d', hd, hdd, hdd', hD⟩ := fixed_two hd
  obtain ⟨h, h', hh, hhd, hhd', hH⟩ := fixed_two hh
  obtain ⟨n, n', hn, hnd, hnd', hN⟩ := fixed_two hn
  obtain ⟨e, e', he, hed, hed', hE⟩ := fixed_two he
  have htext : s.text =
      ['2', '0', y, y', '-', m, m', '-', d, d', ' ', h, h', ':', n, n', ':', e, e'] := by
    simp [text, fixed_year s.century, hy, hm, hd, hh, hn, he]
  have hform : (s.text.zip tsForm).all (fun p => if p.2 = 'D' then p.1.isDigit else p.1 = p.2) := by
    have hlit : tsForm =
      ['2', '0', 'D', 'D', '-', 'D', 'D', '-', 'D', 'D', ' ', 'D', 'D', ':', 'D', 'D', ':',
        'D', 'D'] := rfl
    simp [htext, hlit, hyd, hyd', hmd, hmd', hdd, hdd', hhd, hhd', hnd, hnd', hed, hed']
  rw [tsSecs, if_pos ⟨by rw [htext]; rfl, hform⟩]
  simp only [twoDigits, htext, List.drop, List.take, hY, hM, hD, hH, hN, hE, time, s.days_eq]
  rw [if_neg (by omega)]
  split_ifs <;> omega

/-- **Stamps are in the order of their texts.** -/
theorem before_text_iff (a b : Stamp) : before a.text b.text ↔ a.time < b.time := by
  obtain ⟨hy, hm, hd, hh, hn, he⟩ := a.fields_lt
  obtain ⟨hy', hm', hd', hh', hn', he'⟩ := b.fields_lt
  rw [text, text, before_fixed_append_iff hy hy', before_fixed_append_iff hm hm',
    before_fixed_append_iff hd hd', before_fixed_append_iff hh hh', before_fixed_append_iff hn hn',
    before_fixed_iff he he', time, time]
  have hlt := Date.days_lt_iff a.toDate b.toDate
  have hgt := Date.days_lt_iff b.toDate a.toDate
  have := a.hour_lt
  have := b.hour_lt
  have := a.minute_lt
  have := b.minute_lt
  have := a.second_lt
  have := b.second_lt
  omega

end Stamp

/-- `ts_near`, for a `GROUP_WINDOW` of any length. -/
def tsNearBy (window : ℤ) (a b : Text) : Bool :=
  tsSecs a < 0 || tsSecs b < 0 ||
    (if tsSecs b < tsSecs a then tsSecs a - tsSecs b else tsSecs b - tsSecs a) ≤ window

theorem tsNear_eq (a b : Text) : tsNear a b = tsNearBy 600 a b := by
  have habs : (tsSecs a - tsSecs b).natAbs ≤ 600 ↔
      (if tsSecs b < tsSecs a then tsSecs a - tsSecs b else tsSecs b - tsSecs a) ≤ 600 := by
    split_ifs <;> omega
  simp only [tsNear, tsNearBy, habs]

/-- **The distance of time stamps is exact**, and their texts are in the order of the times. -/
theorem stamp_distance_exact (a b : Stamp) :
    tsSecs b.text - tsSecs a.text = (b.time : ℤ) - a.time ∧
      (∀ window, tsNearBy window a.text b.text ↔ |(b.time : ℤ) - a.time| ≤ window) ∧
      (tsNear a.text b.text ↔ |(b.time : ℤ) - a.time| ≤ 600) ∧
      (before a.text b.text ↔ a.time < b.time) := by
  obtain ⟨ha, hpos⟩ := a.tsSecs_text
  obtain ⟨hb, hpos'⟩ := b.tsSecs_text
  have hnear : ∀ window, tsNearBy window a.text b.text ↔ |(b.time : ℤ) - a.time| ≤ window := by
    intro window
    simp only [tsNearBy, Int.not_lt.2 hpos, Int.not_lt.2 hpos', decide_false, Bool.false_or,
      decide_eq_true_eq, abs_le]
    split_ifs <;> omega
  refine ⟨by omega, hnear, ?_, Stamp.before_text_iff a b⟩
  rw [tsNear_eq]
  exact hnear 600

end Mu300.Sms
