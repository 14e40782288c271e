import Mathlib.Algebra.Group.Nat.Defs
import Mathlib.Algebra.Ring.Int.Defs

/-!
# Signed machine words

The operations of `Int64` and `Int32` wrap. Where the exact result fits, they are the exact ones.

* `add_toInt`, `sub_toInt`, `mul_toInt`, `div_toInt` — for `Int64`.
* `bmod_of_fits` — the one reason for all of them.
-/

namespace Mu300.Signed

theorem bmod_of_fits {x : ℤ} (h0 : -2 ^ 63 ≤ x) (h1 : x < 2 ^ 63) : x.bmod (2 ^ 64) = x :=
  Int.bmod_eq_of_le (by omega) (by omega)

section Int64

variable {a b : Int64} {x y : ℤ}

section

variable (ha : a.toInt = x) (hb : b.toInt = y)

include ha hb

theorem add_toInt (h0 : -2 ^ 63 ≤ x + y) (h1 : x + y < 2 ^ 63) : (a + b).toInt = x + y := by
  rw [Int64.toInt_add, ha, hb, bmod_of_fits h0 h1]

theorem sub_toInt (h0 : -2 ^ 63 ≤ x - y) (h1 : x - y < 2 ^ 63) : (a - b).toInt = x - y := by
  rw [Int64.toInt_sub, ha, hb, bmod_of_fits h0 h1]

theorem mul_toInt (h0 : -2 ^ 63 ≤ x * y) (h1 : x * y < 2 ^ 63) : (a * b).toInt = x * y := by
  rw [Int64.toInt_mul, ha, hb, bmod_of_fits h0 h1]

theorem div_toInt (hy : 0 < y) : (a / b).toInt = x.tdiv y := by
  have hne : b ≠ -1 := by
    rintro rfl
    rw [← hb] at hy
    exact absurd hy (by decide)
  rw [Int64.toInt_div_of_ne_right _ _ hne, ha, hb]

end

end Int64

end Mu300.Signed
