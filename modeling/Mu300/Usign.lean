import Mathlib.NumberTheory.LegendreSymbol.Basic
import Mu300.Lib.Bytes
import Mu300.Lib.ModPow

/-!
# Points of a usign key

`_decompress` of `tools/usign-verify.py` and the decoding of RFC 8032, 5.1.3.
-/

namespace Mu300.Usign

open Bytes ModPow Int

def P : ℕ := 2 ^ 255 - 19

/-- Python's `pow(b, e, P)`, for an exponent of at most 256 bits. -/
def pow (b : ℤ) (e : ℕ) : ℕ := powMod P (b % P).toNat 256 e

def D : ℕ := (-121665 * (pow 121666 (P - 2) : ℤ) % P).toNat

def sqrtM1 : ℕ := pow 2 ((P - 1) / 4)

/-- `_recover_x`. What is compared with 0 is a product that was not reduced. -/
def recoverX (y sign : ℕ) : Option ℕ :=
  if P ≤ y then none
  else
    let x2 : ℤ := (y * y - 1) * pow (D * y * y + 1) (P - 2)
    if x2 = 0 then if sign ≠ 0 then none else some 0
    else
      let root := pow x2 ((P + 3) / 8)
      let x := if (root * root - x2) % P ≠ 0 then root * sqrtM1 % P else root
      if (x * x - x2) % P ≠ 0 then none else some (if x &&& 1 ≠ sign then P - x else x)

/-- `_decompress`: a point in extended coordinates. -/
def decompress (s : List UInt8) : Option (ℕ × ℕ × ℕ × ℕ) :=
  if s.length ≠ 32 then none
  else
    let y := leNat s &&& (1 <<< 255 - 1)
    (recoverX y (leNat s >>> 255)).map fun x => (x, y, 1, x * y % P)

/-- The constant of the curve. -/
def d : ZMod P := -121665 * 121666⁻¹

/-- The point that a string is decoded to: the upper bit is the parity of x, the rest is y, and x is
a root of `(y² - 1) / (d y² + 1)`. Decoding fails where there is none. -/
structure Decodes (s : List UInt8) (x y : ℕ) : Prop where
  length : s.length = 32
  y_eq : y = leNat s % 2 ^ 255
  y_lt : y < P
  root : (x : ZMod P) ^ 2 * (d * y ^ 2 + 1) = y ^ 2 - 1
  x_lt : x < P
  parity : x % 2 = leNat s / 2 ^ 255

/-! ## The field -/

theorem prime_P : P.Prime := by
  have h₁ : Nat.Prime 1919519569386763 :=
    prime_of_lucas 2 [2, 3, 7, 19, 47, 47, 127, 8574133] (by norm_num) (by decide +kernel)
  have h₂ : Nat.Prime 2773320623 :=
    prime_of_lucas 5 [2, 2437, 569003] (by norm_num) (by decide +kernel)
  have h₃ : Nat.Prime 72106336199 :=
    prime_of_lucas 7 [2, 13, 2773320623] (by simp [h₂]; norm_num) (by decide +kernel)
  have h₄ : Nat.Prime 75445702479781427272750846543864801 :=
    prime_of_lucas 7 [2, 2, 2, 2, 2, 3, 3, 5, 5, 75707, 72106336199, 1919519569386763]
      (by simp [h₁, h₃]; norm_num) (by decide +kernel)
  have h₅ : Nat.Prime 31757755568855353 :=
    prime_of_lucas 10 [2, 2, 2, 3, 31, 107, 223, 4153, 430751] (by norm_num) (by decide +kernel)
  have h₆ : Nat.Prime 74058212732561358302231226437062788676166966415465897661863160754340907 :=
    prime_of_lucas 2 [2, 3, 353, 57467, 132049, 1923133, 31757755568855353,
      75445702479781427272750846543864801] (by simp [h₄, h₅]; norm_num) (by decide +kernel)
  exact prime_of_lucas 2 [2, 2, 3, 65147,
    74058212732561358302231226437062788676166966415465897661863160754340907]
      (by simp [h₆]; norm_num) (by decide +kernel)

instance prime_fact : Fact P.Prime := ⟨prime_P⟩

theorem cast_pow (b : ℤ) {e : ℕ} (he : e < 2 ^ 256) : (pow b e : ZMod P) = (b : ZMod P) ^ e := by
  have hbase : (((b % P).toNat : ℕ) : ℤ) = b % P :=
      toNat_of_nonneg (emod_nonneg _ (by norm_num [P]))
  rw [pow, cast_powMod P _ he, ← cast_natCast (R := ZMod P), hbase, ZMod.intCast_mod]

theorem pow_sub_two (a : ZMod P) : a ^ (P - 2) = a⁻¹ := by
  by_cases ha : a = 0
  · rw [ha, inv_zero, zero_pow (by norm_num [P])]
  · refine eq_inv_of_mul_eq_one_left ?_
    rw [← pow_succ]
    exact ZMod.pow_card_sub_one_eq_one ha

theorem cast_D : (D : ZMod P) = d := by
  have hD : (D : ℤ) = -121665 * (pow 121666 (P - 2) : ℤ) % P :=
    toNat_of_nonneg (emod_nonneg _ (by norm_num [P]))
  rw [← cast_natCast (R := ZMod P), hD, ZMod.intCast_mod, cast_mul, cast_natCast,
    cast_pow _ (by norm_num [P]), pow_sub_two, d]
  norm_num

theorem sqrtM1_sq : (sqrtM1 : ZMod P) ^ 2 = -1 := by
  have h : ((sqrtM1 ^ 2 + 1 : ℕ) : ZMod P) = 0 :=
      (ZMod.natCast_eq_zero_iff _ _).2 (by decide +kernel)
  push_cast at h
  exact eq_neg_of_add_eq_zero_left h

/-- The denominator is never 0: -1 is a square, and `d` is none. -/
theorem denominator_ne_zero (y : ZMod P) : d * y ^ 2 + 1 ≠ 0 := by
  intro h
  have hy : y ≠ 0 := by
    rintro rfl
    simp at h
  have hsquare : d = (sqrtM1 / y) ^ 2 := by
    rw [div_pow, sqrtM1_sq, eq_div_iff (pow_ne_zero 2 hy)]
    exact eq_neg_of_add_eq_zero_left h
  have hd : d ≠ 0 := by
    rintro h0
    simp [h0] at h
  have hone := (ZMod.euler_criterion P hd).1 ⟨sqrtM1 / y, by rw [← sq, hsquare]⟩
  have hzero : ((2 : ℕ) : ZMod P) = 0 := by
    have hpow : pow D (P / 2) + 1 = P := by decide +kernel
    have hcast := congrArg (Nat.cast : ℕ → ZMod P) hpow
    rw [Nat.cast_add, cast_pow _ (by norm_num [P]), cast_natCast, cast_D, hone,
      ZMod.natCast_self] at hcast
    rw [← hcast]
    norm_num
  exact absurd ((ZMod.natCast_eq_zero_iff 2 P).1 hzero) (by norm_num [P])

theorem exists_root {r w : ZMod P} (h : r ^ 2 = w) :
    (w ^ ((P + 3) / 8)) ^ 2 = w ∨ (w ^ ((P + 3) / 8) * sqrtM1) ^ 2 = w := by
  have hhalf : 2 * ((P + 3) / 8 * 2) = P / 2 + 2 := by norm_num [P]
  rw [mul_pow, sqrtM1_sq, ← pow_mul, ← h, ← pow_mul, hhalf, pow_add]
  by_cases hr : r = 0
  · simp [hr]
  · rcases ZMod.pow_div_two_eq_neg_one_or_one P hr with h1 | h1
    · simp [h1]
    · simp [h1]

theorem pow_lt (b : ℤ) {e : ℕ} (he : e < 2 ^ 256) : pow b e < P := by
  rw [pow, powMod_eq P _ he]
  exact Nat.mod_lt _ prime_P.pos

theorem cast_sub_one : ((P - 1 : ℕ) : ZMod P) = -1 := by
  rw [Nat.cast_sub prime_P.one_lt.le, ZMod.natCast_self, Nat.cast_one, zero_sub]

theorem eq_of_cast {a b : ℕ} (ha : a < P) (hb : b < P) (h : (a : ZMod P) = b) : a = b := by
  rwa [ZMod.natCast_eq_natCast_iff', Nat.mod_eq_of_lt ha, Nat.mod_eq_of_lt hb] at h

/-- Of the two roots the one with the right parity is taken. -/
theorem select_iff {c x sign : ℕ} (hc : c < P) (hsign : sign < 2) (hzero : c = 0 → sign = 0) :
    (if c &&& 1 ≠ sign then P - c else c) = x ↔ x < P ∧ x % 2 = sign ∧
    (x : ZMod P) ^ 2 = c ^ 2 := by
  have hodd : P % 2 = 1 := by norm_num [P]
  rw [Nat.and_one_is_mod]
  constructor
  · rintro rfl
    split
    · refine ⟨by omega, by omega, ?_⟩
      rw [Nat.cast_sub hc.le, ZMod.natCast_self, zero_sub, neg_sq]
    · exact ⟨hc, by omega, rfl⟩
  · rintro ⟨hx, hparity, hroot⟩
    rcases sq_eq_sq_iff_eq_or_eq_neg.1 hroot with heq | heq
    · rw [eq_of_cast hx hc heq] at hparity ⊢
      rw [if_neg (not_not.2 hparity)]
    · rw [← sub_eq_zero, sub_neg_eq_add, ← Nat.cast_add, ZMod.natCast_eq_zero_iff] at heq
      obtain ⟨k, hk⟩ := heq
      have : k < 2 := by
        by_contra hge
        have := Nat.mul_le_mul_left P (not_lt.1 hge)
        omega
      split <;> interval_cases k <;> omega

theorem recoverX_iff {x y sign : ℕ} (hy : y < P) (hsign : sign < 2) (hgood : y = P - 1 → sign = 0) :
    recoverX y sign = some x ↔ x < P ∧ x % 2 = sign ∧ (x : ZMod P) ^ 2 * (d * y ^ 2 + 1) =
      y ^ 2 - 1 := by
  rw [← eq_div_iff (denominator_ne_zero y), recoverX, if_neg hy.not_ge]
  obtain ⟨x2, hx2⟩ : ∃ x2 : ℤ, x2 = (y * y - 1) * pow (D * y * y + 1) (P - 2) := ⟨_, rfl⟩
  have hcast : (x2 : ZMod P) = (y ^ 2 - 1) / (d * y ^ 2 + 1) := by
    rw [hx2, div_eq_mul_inv, ← pow_sub_two]
    push_cast
    rw [cast_pow _ (by norm_num [P])]
    push_cast
    rw [cast_D]
    ring
  have htest : ∀ c : ℕ, ((c * c - x2) % P = 0 ↔ (c : ZMod P) ^ 2 = x2) := fun c => by
    rw [← dvd_iff_emod_eq_zero, ← ZMod.intCast_zmod_eq_zero_iff_dvd, cast_sub,
      sub_eq_zero, sq]
    push_cast
    rfl
  rw [← hcast, ← hx2]
  by_cases h0 : x2 = 0
  · -- the only root is 0
    have h := select_iff (x := x) (c := 0) prime_P.pos hsign
    by_cases hs : sign = 0
    · simpa [h0, hs] using h fun _ => hs
    · simp only [h0, if_true, if_pos hs, cast_zero, reduceCtorEq, false_iff]
      rintro ⟨hx, hparity, hroot⟩
      rw [sq_eq_zero_iff, ZMod.natCast_eq_zero_iff] at hroot
      have := Nat.eq_zero_of_dvd_of_lt hroot hx
      omega
  · have hlt : (P + 3) / 8 < 2 ^ 256 := by norm_num [P]
    have hc := cast_pow x2 hlt
    have hcP := pow_lt x2 hlt
    rw [if_neg h0]
    generalize pow x2 ((P + 3) / 8) = c at hc hcP ⊢
    dsimp only
    obtain ⟨e, he⟩ : ∃ e, e = if (c * c - x2) % P ≠ 0 then c * sqrtM1 % P else c := ⟨_, rfl⟩
    rw [← he]
    have heP : e < P := by
      rw [he]
      split
      · exact Nat.mod_lt _ prime_P.pos
      · exact hcP
    -- it is a root if there is one
    have hroot : ∀ r : ZMod P, r ^ 2 = x2 → (e : ZMod P) ^ 2 = x2 := fun r hr => by
      have hor := exists_root hr
      rw [← hc] at hor
      rw [he]
      split
      · next hne =>
        rw [ZMod.natCast_mod, Nat.cast_mul]
        exact hor.resolve_left fun h => hne ((htest c).2 h)
      · next heq => exact (htest c).1 (not_not.1 heq)
    by_cases hes : (e : ZMod P) ^ 2 = x2
    · have hzero : e = 0 → sign = 0 := fun h => by
        rw [h, hcast, Nat.cast_zero, zero_pow two_ne_zero, eq_comm, div_eq_zero_iff, sub_eq_zero,
          sq_eq_one_iff] at hes
        rcases hes.resolve_right (denominator_ne_zero y) with h1 | h1
        · -- then the product is 0
          have hy1 : y = 1 := eq_of_cast hy prime_P.one_lt (by rw [h1, Nat.cast_one])
          rw [hy1, Nat.cast_one, one_mul, sub_self, zero_mul] at hx2
          exact absurd hx2 h0
        · refine hgood (eq_of_cast hy (Nat.sub_lt prime_P.pos one_pos) ?_)
          rw [h1, cast_sub_one]
      rw [if_neg (not_not.2 ((htest e).2 hes)), Option.some.injEq, select_iff heP hsign hzero, hes]
    · rw [if_pos fun h => hes ((htest e).1 h)]
      simp only [reduceCtorEq, false_iff]
      exact fun h => hes (hroot x h.2.2)

theorem leNat_lt_of_length {s : List UInt8} (h : s.length = 32) : leNat s < 2 ^ 256 := by
  simpa [h] using leNat_lt s

/-- **Decoding is RFC 8032's** for every string but one. -/
theorem decompress_iff (s : List UInt8) :
    (∀ pt, decompress s = some pt ↔ ∃ x y, Decodes s x y ∧ pt = (x, y, 1, x * y % P)) ↔
      s ≠ leBytes 32 (2 ^ 255 + (P - 1)) := by
  constructor
  · rintro h rfl
    obtain ⟨x, y, hd, hpt⟩ := (h (P, P - 1, 1, 0)).1 (by decide +kernel)
    exact absurd hd.x_lt (by rw [← (Prod.mk.inj hpt).1]; exact lt_irrefl P)
  · intro hne pt
    by_cases hlen : s.length = 32
    · have hlt := leNat_lt_of_length hlen
      rw [decompress, if_neg (not_not.2 hlen), Nat.shiftRight_eq_div_pow, Nat.one_shiftLeft,
        Nat.and_two_pow_sub_one_eq_mod]
      have hgood : leNat s % 2 ^ 255 = P - 1 → leNat s / 2 ^ 255 = 0 := fun hy => by
        by_contra hsign
        refine hne ((leBytes_leNat hlen).symm.trans (congrArg (leBytes 32) ?_))
        omega
      constructor
      · intro h
        obtain ⟨x, hx, rfl⟩ := Option.map_eq_some_iff.1 h
        have hy : leNat s % 2 ^ 255 < P := by
          by_contra hge
          rw [recoverX, if_pos (not_lt.1 hge)] at hx
          cases hx
        obtain ⟨hxP, hparity, hroot⟩ := (recoverX_iff hy (by omega) hgood).1 hx
        exact ⟨x, _, ⟨hlen, rfl, hy, hroot, hxP, hparity⟩, rfl⟩
      · rintro ⟨x, y, ⟨-, rfl, hy, hroot, hxP, hparity⟩, rfl⟩
        exact Option.map_eq_some_iff.2
          ⟨x, (recoverX_iff hy (by omega) hgood).2 ⟨hxP, hparity, hroot⟩, rfl⟩
    · rw [decompress, if_pos hlen]
      constructor
      · rintro ⟨⟩
      · rintro ⟨x, y, hd, -⟩
        exact absurd hd.length hlen

/-- The string that the decoding refuses, and `_decompress` makes a point with an x of `P` of. -/
theorem decompress_minus_one :
    ∃ s : List UInt8, s.length = 32 ∧ decompress s = some (P, P - 1, 1, 0) ∧
    ¬ ∃ x y, Decodes s x y := by
  refine ⟨leBytes 32 (2 ^ 255 + (P - 1)), by decide, by decide +kernel, ?_⟩
  rintro ⟨x, y, h⟩
  have hparity : x % 2 = 1 := h.parity.trans (by decide +kernel)
  have hroot := h.root
  rw [h.y_eq.trans (show _ = P - 1 by decide +kernel), cast_sub_one, neg_one_sq, sub_self,
    mul_eq_zero, sq_eq_zero_iff] at hroot
  have hx := hroot.resolve_right (neg_one_sq (R := ZMod P) ▸ denominator_ne_zero (-1))
  rw [eq_of_cast h.x_lt prime_P.pos (by rw [hx, Nat.cast_zero])] at hparity
  cases hparity

end Mu300.Usign
