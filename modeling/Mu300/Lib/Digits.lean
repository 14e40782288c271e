import Mathlib.Algebra.Group.Nat.Defs
import Mu300.Lib.Shell

/-!
# Decimals of a fixed width

* `fixed w n` — the last `w` decimal digits of `n`; `value` — the number that digits spell.
* `before_fixed_iff` — as texts they are in the order of the numbers.
* `value_fixed` — the digits spell the number again; `fixed_value` — and the other way round.
* `value_append` — the number of two runs of digits.
-/

namespace Digits

open Shell List

/-- The last `w` digits of `n`. -/
def fixed : ℕ → ℕ → Text
  | 0, _ => []
  | w + 1, n => fixed w (n / 10) ++ [Nat.digitChar (n % 10)]

@[simp] theorem length_fixed (w n : ℕ) : (fixed w n).length = w := by
  induction w generalizing n with
  | zero => rfl
  | succ w ih => simp [fixed, ih]

variable {n w m : ℕ} {ch : Char}

theorem digitChar_lt_digitChar (h : m < n) (hn : n < 10) :
    (Nat.digitChar m).toNat < (Nat.digitChar n).toNat := by
  revert m
  revert n
  decide

theorem isDigit_digitChar (h : n < 10) : (Nat.digitChar n).isDigit := by
  revert n
  decide

theorem isDigit_of_mem_fixed (h : ch ∈ fixed w n) : ch.isDigit := by
  induction w generalizing n with
  | zero => simp [fixed] at h
  | succ w ih =>
    rcases mem_append.1 h with h | h
    · exact ih h
    · rw [mem_singleton.1 h]
      exact isDigit_digitChar (Nat.mod_lt _ (by decide))

theorem before_fixed (h : m < n) (hn : n < 10 ^ w) : before (fixed w m) (fixed w n) := by
  induction w generalizing m n with
  | zero =>
    rw [Nat.pow_zero, Nat.lt_one_iff] at hn
    simp [hn] at h
  | succ w ih =>
    rcases Nat.lt_or_ge (m / 10) (n / 10) with hd | hd
    · have hn' : n / 10 < 10 ^ w := Nat.div_lt_of_lt_mul (by rwa [Nat.pow_succ'] at hn)
      exact (before_append_iff (by simp) _ _).2 (.inl (ih hd hn'))
    · have he : m / 10 = n / 10 := by omega
      have hdigit := digitChar_lt_digitChar (m := m % 10) (by omega) (Nat.mod_lt n (by decide))
      rw [fixed, fixed, he, before_append_left]
      simp [before, hdigit]

theorem before_fixed_iff (hm : m < 10 ^ w) (hn : n < 10 ^ w) :
    before (fixed w m) (fixed w n) ↔ m < n := by
  refine ⟨fun h => ?_, fun h => before_fixed h hn⟩
  by_contra hle
  rcases Nat.lt_or_eq_of_le (Nat.not_lt.1 hle) with hlt | rfl
  · rw [not_before_of_before (before_fixed hlt hm)] at h
    cases h
  · rw [not_before_self] at h
    cases h

def value (ds : Text) : ℕ := ds.foldl (fun v ch => v * 10 + (ch.toNat - '0'.toNat)) 0

theorem value_concat (ds : Text) (ch : Char) :
    value (ds ++ [ch]) = value ds * 10 + (ch.toNat - '0'.toNat) := by
  simp [value]

theorem value_digitChar (h : n < 10) : (Nat.digitChar n).toNat - '0'.toNat = n := by
  revert n
  decide

theorem value_fixed (h : n < 10 ^ w) : value (fixed w n) = n := by
  induction w generalizing n with
  | zero =>
    rw [Nat.pow_zero, Nat.lt_one_iff] at h
    rw [h]
    rfl
  | succ w ih =>
    have hdiv : n / 10 < 10 ^ w := Nat.div_lt_of_lt_mul (by rwa [Nat.pow_succ'] at h)
    rw [fixed, value_concat, ih hdiv, value_digitChar (Nat.mod_lt n (by decide))]
    omega

theorem value_toDigits (n : ℕ) : value (Nat.toDigits 10 n) = n := by
  have hvalue : ∀ ds : Text, value ds = Nat.ofDigitChars 10 ds 0 := by
    intro ds
    simp [value, Nat.ofDigitChars, Nat.mul_comm]
  rw [hvalue, Nat.ofDigitChars_toDigits (by decide) (by decide)]

theorem fixed_inj (hm : m < 10 ^ w) (hn : n < 10 ^ w) : fixed w m = fixed w n ↔ m = n := by
  refine ⟨fun h => ?_, fun h => by rw [h]⟩
  rw [← value_fixed hm, h, value_fixed hn]

/-- A number and what ends it are compared before what follows. -/
theorem before_fixed_append_iff (hm : m < 10 ^ w) (hn : n < 10 ^ w) (a b : Text) :
    before (fixed w m ++ ch :: a) (fixed w n ++ ch :: b) ↔ m < n ∨ m = n ∧ before a b := by
  have hsame : before (ch :: a) (ch :: b) = before a b := before_append_left [ch] a b
  rw [before_append_iff (by simp), hsame, before_fixed_iff hm hn, fixed_inj hm hn]

theorem value_append (a b : Text) : value (a ++ b) = value a * 10 ^ b.length + value b := by
  induction b using reverseRecOn with
  | nil => simp [value]
  | append_singleton b ch ih =>
    rw [← append_assoc, value_concat, value_concat, ih, length_append, length_singleton,
      Nat.pow_succ]
    simp only [Nat.add_mul, Nat.mul_assoc]
    omega

theorem digitChar_of_isDigit (h : ch.isDigit) :
    Nat.digitChar (ch.toNat - '0'.toNat) = ch ∧ ch.toNat - '0'.toNat < 10 := by
  have hbounds : 48 ≤ ch.toNat ∧ ch.toNat ≤ 57 := by
    simp only [Char.isDigit, Bool.and_eq_true, decide_eq_true_eq] at h
    exact ⟨UInt32.le_iff_toNat_le.1 h.1, UInt32.le_iff_toNat_le.1 h.2⟩
  have hzero : '0'.toNat = 48 := rfl
  have hlt : ch.toNat - '0'.toNat < 10 := by omega
  rw [← Char.toNat_inj, Nat.toNat_digitChar_of_lt_ten hlt]
  omega

theorem fixed_value {ds : Text} (h : ∀ ch ∈ ds, ch.isDigit) :
    fixed ds.length (value ds) = ds ∧ value ds < 10 ^ ds.length := by
  induction ds using reverseRecOn with
  | nil => exact ⟨rfl, Nat.one_pos⟩
  | append_singleton ds ch ih =>
    obtain ⟨hfixed, hlt⟩ := ih fun ch' hch' => h ch' (mem_append_left _ hch')
    obtain ⟨hchar, hdigit⟩ := digitChar_of_isDigit (h ch (mem_append_right _ mem_cons_self))
    rw [value_concat, length_append, length_singleton]
    constructor
    · rw [fixed, Nat.add_comm, Nat.add_mul_div_right _ _ (by decide), Nat.div_eq_of_lt hdigit,
        Nat.add_mul_mod_self_right, Nat.mod_eq_of_lt hdigit, Nat.zero_add, hfixed, hchar]
    · omega

end Digits
