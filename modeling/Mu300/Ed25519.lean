import Mu300.Lib.Edwards
import Mu300.Usign

/-!
# Signatures of usign

`ed25519_verify` of `tools/usign-verify.py` computes in extended coordinates, without a division.
What it decides is an equation of points of the curve: none of the sums on the way has a Z of 0,
whatever key and signature are given.
-/

namespace Mu300.Usign

open Bytes Edwards Int

/-- The group order. -/
def Q : ℕ := 2 ^ 252 + 27742317777372353535851937790883648493

/-- A point in extended coordinates. -/
structure Point where
  (x y z t : ℤ)

def add (a b : Point) : Point :=
  let A := (a.y - a.x) * (b.y - b.x) % P
  let B := (a.y + a.x) * (b.y + b.x) % P
  let C := 2 * a.t * b.t * D % P
  let Dd := 2 * a.z * b.z % P
  let (E, F, G, H) := (B - A, Dd - C, Dd + C, B + A)
  ⟨E * F % P, G * H % P, F * G % P, E * H % P⟩

def mul (s : ℕ) (pt : Point) : Point := doubleAdd add ⟨0, 1, 1, 0⟩ pt s

def equal (a b : Point) : Bool := (a.x * b.z - b.x * a.z) % P = 0 && (a.y * b.z - b.y * a.z) % P = 0

def ofTuple (pt : ℕ × ℕ × ℕ × ℕ) : Point := ⟨pt.1, pt.2.1, pt.2.2.1, pt.2.2.2⟩

/-- `_GY`. -/
def baseY : ℕ := 4 * pow 5 (P - 2) % P

/-- `_G`. -/
def base : Point :=
  let x := (recoverX baseY 0).getD 0
  ofTuple (x, baseY, 1, x * baseY % P)

def ed25519Verify (sha512 : List UInt8 → List UInt8) (key msg sig : List UInt8) : Bool :=
  if key.length ≠ 32 ∨ sig.length ≠ 64 then false
  else
    match decompress key, decompress (sig.take 32) with
    | some A, some R =>
      let s := leNat (sig.drop 32)
      if Q ≤ s then false
      else
        let h := leNat (sha512 (sig.take 32 ++ key ++ msg)) % Q
        equal (mul s base) (add (ofTuple R) (mul h (ofTuple A)))
    | _, _ => false

/-- A point of the curve so many times, by its law of addition. -/
def times (s : ℕ) (p : ZMod P × ZMod P) : ZMod P × ZMod P := doubleAdd (sum d) (0, 1) p s

/-- Extended coordinates of a point of the curve. -/
structure Represents (a : Point) (p : ZMod P × ZMod P) : Prop where
  on : On d p
  z : (a.z : ZMod P) ≠ 0
  x : (a.x : ZMod P) = p.1 * a.z
  y : (a.y : ZMod P) = p.2 * a.z
  t : (a.t : ZMod P) = p.1 * p.2 * a.z

variable {a b : Point} {p q : ZMod P × ZMod P} {x y : ℕ}

theorem Represents.add (ha : Represents a p) (hb : Represents b q) :
    Represents (add a b) (sum d p q) := by
  have h2 : ((2 : ℕ) : ZMod P) ≠ 0 :=
      fun h => absurd ((ZMod.natCast_eq_zero_iff 2 P).1 h) (by norm_num [P])
  rw [Nat.cast_ofNat] at h2
  have he := product_sq_ne_one sqrtM1_sq h2 denominator_ne_zero ha.on hb.on
  obtain ⟨hplus, hminus⟩ := denominators_ne_zero he
  obtain ⟨c, hc⟩ : ∃ c : ZMod P, c = (2 * (a.z * b.z)) ^ 2 := ⟨_, rfl⟩
  have hcast : ((Usign.add a b).x : ZMod P) = c * ((p.1 * q.2 + p.2 * q.1) * (1 - product d p q)) ∧
      ((Usign.add a b).y : ZMod P) = c * ((p.2 * q.2 + p.1 * q.1) * (1 + product d p q)) ∧
      ((Usign.add a b).z : ZMod P) = c * ((1 - product d p q) * (1 + product d p q)) ∧
      ((Usign.add a b).t : ZMod P) = c * ((p.1 * q.2 + p.2 * q.1) * (p.2 * q.2 + p.1 * q.1)) := by
    simp only [Usign.add, ZMod.intCast_mod, cast_mul, cast_add, cast_sub,
      cast_ofNat, cast_natCast, cast_D, ha.x, ha.y, ha.t, hb.x, hb.y, hb.t, product, hc]
    refine ⟨?_, ?_, ?_, ?_⟩ <;> ring
  obtain ⟨hx, hy, hz, ht⟩ := hcast
  refine ⟨on_sum he ha.on hb.on, ?_, ?_, ?_, ?_⟩
  · rw [hz, hc]
    exact mul_ne_zero (pow_ne_zero 2 (mul_ne_zero h2 (mul_ne_zero ha.z hb.z)))
      (mul_ne_zero hminus hplus)
  · rw [hx, hz, sum]
    field_simp
  · rw [hy, hz, sum]
    field_simp
  · rw [ht, hz, sum]
    field_simp

theorem Represents.mul (s : ℕ) (ha : Represents a p) : Represents (mul s a) (times s p) :=
  doubleAdd_rel .add s ⟨by simp [On], by simp, by simp, by simp, by simp⟩ ha

theorem Represents.equal_iff (ha : Represents a p) (hb : Represents b q) : equal a b ↔ p = q := by
  simp only [equal, Bool.and_eq_true, decide_eq_true_eq, ← dvd_iff_emod_eq_zero,
    ← ZMod.intCast_zmod_eq_zero_iff_dvd, cast_sub, cast_mul, ha.x, ha.y, hb.x, hb.y,
      Prod.ext_iff]
  constructor
  · rintro ⟨hx, hy⟩
    have hz : (a.z * b.z : ZMod P) ≠ 0 := mul_ne_zero ha.z hb.z
    exact ⟨mul_right_cancel₀ hz (by linear_combination hx),
      mul_right_cancel₀ hz (by linear_combination hy)⟩
  · rintro ⟨hx, hy⟩
    rw [hx, hy]
    constructor <;> ring

/-- What `_recover_x` finds is on the curve, also for the string that RFC 8032 refuses. -/
theorem represents_of_recoverX {sign : ℕ} (hsign : sign < 2) (h : recoverX y sign = some x) :
    Represents (ofTuple (x, y, 1, x * y % P)) (x, y) := by
  have hy : y < P := by
    by_contra hge
    rw [recoverX, if_pos (not_lt.1 hge)] at h
    cases h
  have hroot : (x : ZMod P) ^ 2 * (d * y ^ 2 + 1) = y ^ 2 - 1 := by
    by_cases hgood : y = P - 1 → sign = 0
    · exact ((recoverX_iff hy hsign hgood).1 h).2.2
    · obtain ⟨rfl, hs⟩ := Classical.not_imp.1 hgood
      obtain rfl : sign = 1 := by omega
      obtain rfl : P = x :=
          Option.some.inj ((show recoverX (P - 1) 1 = some P by decide +kernel).symm.trans h)
      simp [cast_sub_one]
  refine ⟨?_, by simp [ofTuple], by simp [ofTuple], by simp [ofTuple], by simp [ofTuple]⟩
  simp only [On]
  linear_combination -hroot

theorem represents_of_decompress {s : List UInt8} {pt : ℕ × ℕ × ℕ × ℕ}
    (h : decompress s = some pt) : Represents (ofTuple pt) (pt.1, pt.2.1) := by
  rw [decompress] at h
  split at h
  · cases h
  · next hlen =>
    obtain ⟨x, hx, rfl⟩ := Option.map_eq_some_iff.1 h
    refine represents_of_recoverX ?_ hx
    have := leNat_lt_of_length (not_not.1 hlen)
    rw [Nat.shiftRight_eq_div_pow]
    omega

theorem represents_base : Represents base (base.x, base.y) := by
  obtain ⟨x, hx⟩ : ∃ x, recoverX baseY 0 = some x := Option.isSome_iff_exists.1 (by decide +kernel)
  have hbase : base = ofTuple (x, baseY, 1, x * baseY % P) := by rw [base, hx, Option.getD_some]
  have := represents_of_recoverX two_pos hx
  rw [hbase]
  exact_mod_cast this

/-- **A signature is valid** exactly if key and signature are those of two points of the curve for
which the equation of Ed25519 holds, by the law of addition of the curve. -/
theorem ed25519Verify_iff (sha512 : List UInt8 → List UInt8) (key msg sig : List UInt8) :
    ed25519Verify sha512 key msg sig ↔ key.length = 32 ∧ sig.length = 64 ∧ leNat (sig.drop 32) < Q ∧
      ∃ A R, decompress key = some A ∧ decompress (sig.take 32) = some R ∧
        On d ((A.1, A.2.1) : ZMod P × ZMod P) ∧ On d ((R.1, R.2.1) : ZMod P × ZMod P) ∧
        times (leNat (sig.drop 32)) (base.x, base.y) =
          sum d (R.1, R.2.1) (times (leNat (sha512 (sig.take 32 ++ key ++ msg)) % Q)
            (A.1, A.2.1)) := by
  rw [ed25519Verify]
  split
  · next h =>
    simp only [Bool.false_eq_true, false_iff]
    tauto
  · next h =>
    obtain ⟨hk, hs⟩ := not_or.1 h
    rw [not_not] at hk hs
    simp only [hk, hs, true_and]
    split
    · next A R hA hR =>
      have hA' := represents_of_decompress hA
      have hR' := represents_of_decompress hR
      have heq := (represents_base.mul (leNat (sig.drop 32))).equal_iff
        (hR'.add (hA'.mul (leNat (sha512 (sig.take 32 ++ key ++ msg)) % Q)))
      constructor
      · intro hv
        split at hv
        · cases hv
        · next hlt => exact ⟨not_le.1 hlt, A, R, hA, hR, hA'.on, hR'.on, heq.1 hv⟩
      · rintro ⟨hlt, A', R', hA₁, hR₁, -, -, hv⟩
        cases hA.symm.trans hA₁
        cases hR.symm.trans hR₁
        rw [if_neg hlt.not_ge]
        exact heq.2 hv
    · next hno =>
      simp only [Bool.false_eq_true, false_iff]
      rintro ⟨-, A, R, hA, hR, -⟩
      exact hno A R hA hR

end Mu300.Usign
