import Mathlib.NumberTheory.LucasPrimality
import Mathlib.Tactic.NormNum.Prime

/-!
# Powers modulo a number

* `powMod` — a power modulo `m`, square by square; `powMod_eq` says it is that power.
* `lucas`, `prime_of_lucas` — Lucas's test on it: `p` is prime if the factors of `p - 1` are.
-/

namespace ModPow

/-- `b ^ e % m` for an exponent of at most `k` bits. -/
def powMod (m b : ℕ) : ℕ → ℕ → ℕ
  | 0, _ => 1 % m
  | k + 1, e => powMod m b k (e / 2) ^ 2 * b ^ (e % 2) % m

theorem powMod_eq (m b : ℕ) {k e : ℕ} (h : e < 2 ^ k) : powMod m b k e = b ^ e % m := by
  induction k generalizing e with
  | zero =>
    obtain rfl : e = 0 := by simpa using h
    rfl
  | succ k ih =>
    have hsquare : (b ^ (e / 2) % m) ^ 2 * b ^ (e % 2) ≡ (b ^ (e / 2)) ^ 2 * b ^ (e % 2) [MOD m] :=
      ((Nat.mod_modEq _ _).pow 2).mul_right _
    rw [powMod, ih (by omega), hsquare, ← pow_mul, ← pow_add, Nat.mul_comm, Nat.div_add_mod]

theorem cast_powMod (m b : ℕ) {k e : ℕ} (h : e < 2 ^ k) :
    (powMod m b k e : ZMod m) = (b : ZMod m) ^ e := by
  rw [powMod_eq m b h, ZMod.natCast_mod, Nat.cast_pow]

/-- Lucas's test of a `p` of at most 256 bits with the base `a`, for the factors of `p - 1`. -/
def lucas (p a : ℕ) (factors : List ℕ) : Bool :=
  1 < p && p < 2 ^ 256 && factors.prod = p - 1 && powMod p a 256 (p - 1) = 1 &&
    factors.all fun q => powMod p a 256 ((p - 1) / q) ≠ 1

theorem prime_of_lucas {p : ℕ} (a : ℕ) (factors : List ℕ) (hprime : ∀ q ∈ factors, q.Prime)
    (h : lucas p a factors) : p.Prime := by
  simp only [lucas, Bool.and_eq_true, decide_eq_true_eq, List.all_eq_true] at h
  obtain ⟨⟨⟨⟨hp, hsize⟩, hprod⟩, hone⟩, hne⟩ := h
  refine lucas_primality p a ?_ fun q hq hdvd => ?_
  · rw [← cast_powMod p a (k := 256) (by omega), hone, Nat.cast_one]
  · rw [← hprod] at hdvd
    obtain ⟨r, hr, hqr⟩ := (Prime.dvd_prod_iff hq.prime).1 hdvd
    obtain rfl := (Nat.prime_dvd_prime_iff_eq hq (hprime r hr)).1 hqr
    have hlt : (p - 1) / q < 2 ^ 256 := (Nat.div_le_self _ _).trans_lt (by omega)
    intro heq
    rw [← cast_powMod p a hlt] at heq
    have hmod := (ZMod.natCast_eq_natCast_iff' _ 1 p).1 (by simpa using heq)
    rw [powMod_eq p a hlt, Nat.mod_mod, ← powMod_eq p a hlt, Nat.mod_eq_of_lt hp] at hmod
    exact hne q hr hmod

end ModPow
