import Mathlib.Tactic.FieldSimp
import Mathlib.Tactic.LinearCombination

/-!
# Twisted Edwards curves

The curve `y² - x² = 1 + d x² y²` over a field in which -1 is a square and `d` is none. The law of
addition has no exceptions there: its denominators are never 0.
-/

namespace Edwards

variable {K : Type*} [Field K] {d i a b : K} {p q : K × K}

def On (d : K) (p : K × K) : Prop := p.2 ^ 2 - p.1 ^ 2 = 1 + d * p.1 ^ 2 * p.2 ^ 2

def product (d : K) (p q : K × K) : K := d * p.1 * q.1 * p.2 * q.2

def sum (d : K) (p q : K × K) : K × K :=
  ((p.1 * q.2 + p.2 * q.1) / (1 + product d p q), (p.2 * q.2 + p.1 * q.1) / (1 - product d p q))

theorem eq_zero_of_sq (hi : i ^ 2 = -1) (hd : ∀ y, d * y ^ 2 + 1 ≠ 0) (h : a ^ 2 = d * b ^ 2) :
    a = 0 := by
  by_contra ha
  refine hd (i * b / a) ?_
  field_simp
  linear_combination (d * b ^ 2) * hi + h

theorem product_sq_ne_one (hi : i ^ 2 = -1) (h2 : (2 : K) ≠ 0) (hd : ∀ y, d * y ^ 2 + 1 ≠ 0)
    (hp : On d p) (hq : On d q) : product d p q ^ 2 ≠ 1 := by
  intro he
  have hne : product d p q ≠ 0 := fun h => by simp [h] at he
  -- with either sign this is a square that is `d` times a square
  have hzero : ∀ s : K, s ^ 2 = 1 → i * p.1 + s * product d p q * p.2 = 0 := by
    intro s hs
    refine eq_zero_of_sq (b := p.1 * p.2 * (i * q.1 + s * q.2)) hi hd ?_
    simp only [On, product] at *
    grind
  have hy : 2 * product d p q * p.2 = 0 := by
    linear_combination hzero 1 (one_pow 2) - hzero (-1) (by norm_num)
  simp only [mul_eq_zero, h2, hne, false_or] at hy
  simp [product, hy] at hne

theorem denominators_ne_zero (h : product d p q ^ 2 ≠ 1) :
    1 + product d p q ≠ 0 ∧ 1 - product d p q ≠ 0 :=
  ⟨fun h0 => h (by linear_combination (product d p q - 1) * h0),
    fun h0 => h (by linear_combination (-product d p q - 1) * h0)⟩

theorem on_sum (h : product d p q ^ 2 ≠ 1) (hp : On d p) (hq : On d q) : On d (sum d p q) := by
  obtain ⟨hplus, hminus⟩ := denominators_ne_zero h
  have hpoly : (p.2 * q.2 + p.1 * q.1) ^ 2 * (1 + product d p q) ^ 2 -
      (p.1 * q.2 + p.2 * q.1) ^ 2 * (1 - product d p q) ^ 2 =
        (1 + product d p q) ^ 2 * (1 - product d p q) ^ 2 +
        d * (p.1 * q.2 + p.2 * q.1) ^ 2 * (p.2 * q.2 + p.1 * q.1) ^ 2 := by
    simp only [On, product] at *
    clear h hplus hminus
    grind
  simp only [On, sum]
  field_simp
  linear_combination hpoly

/-- Double and add: `pt` so many times behind `r`. -/
def doubleAdd {α : Type*} (add : α → α → α) (r pt : α) (s : ℕ) : α :=
  if 0 < s then doubleAdd add (if s &&& 1 ≠ 0 then add r pt else r) (add pt pt) (s >>> 1) else r
termination_by s
decreasing_by rw [Nat.shiftRight_eq_div_pow]; omega

theorem doubleAdd_rel {α β : Type*} {R : α → β → Prop} {add : α → α → α} {add' : β → β → β}
    (h : ∀ {a b p q}, R a p → R b q → R (add a b) (add' p q)) {a b : α} {p q : β} (s : ℕ)
    (ha : R a p) (hb : R b q) : R (doubleAdd add a b s) (doubleAdd add' p q s) := by
  fun_induction doubleAdd add a b s generalizing p q with
  | case1 a b s hs ih =>
    rw [doubleAdd.eq_def add', if_pos hs]
    refine ih ?_ (h hb hb)
    split
    · exact h ha hb
    · exact ha
  | case2 a b s hs =>
    rw [doubleAdd, if_neg hs]
    exact ha

end Edwards
