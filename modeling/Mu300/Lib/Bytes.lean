import Mathlib.Data.List.Basic
import Mathlib.Order.Interval.Set.Basic
import Mathlib.Tactic.Ring

/-!
# Buffers: slices, in-place writes, little-endian fields

A buffer is a list. Three layers, each with the lemmas that let a proof about a
program reason by position and never unfold a definition here:

* `slice b off n` — the read `b[off:off+n]`, cut off at the end of the buffer.
* `poke b off w` — the in-place write of `w` at `off`. `getElem?_poke` says what
  every position holds afterwards.
* `SameOutside S b d` — the frame: `d` is `b` up to the positions in `S`. Writes
  compose by `SameOutside.trans`, and a read that stays outside `S` is unchanged.
-/

namespace Bytes

open List

universe u

variable {α : Type u} {b : List α} {off n k : ℕ}

/-! ## Slices -/

/-- The read `b[off:off+n]`: `n` elements from `off` on, fewer at the end of the buffer. -/
def slice (b : List α) (off n : ℕ) : List α := (b.drop off).take n

theorem length_slice (b : List α) (off n : ℕ) :
    (slice b off n).length = min n (b.length - off) := by
  rw [slice, length_take, length_drop]

theorem length_slice_of_le (h : off + n ≤ b.length) : (slice b off n).length = n := by
  rw [length_slice]
  omega

theorem getElem?_slice (b : List α) (off n i : ℕ) :
    (slice b off n)[i]? = if i < n then b[off + i]? else none := by
  rw [slice, getElem?_take]
  split
  · rw [getElem?_drop]
  · rfl

theorem slice_congr {d : List α}
    (h : ∀ i, off ≤ i → i < off + n → b[i]? = d[i]?) : slice b off n = slice d off n := by
  apply ext_getElem?
  intro i
  rw [getElem?_slice, getElem?_slice]
  split
  · exact h _ (by omega) (by omega)
  · rfl

theorem slice_slice {o m : ℕ} (h : o + m ≤ n) :
    slice (slice b off n) o m = slice b (off + o) m := by
  apply ext_getElem?
  intro i
  rw [getElem?_slice, getElem?_slice, getElem?_slice, Nat.add_assoc]
  split
  · rw [if_pos (by omega)]
  · rfl

/-! ## In-place writes -/

/-- The write of `w` over the elements of `b` from `off` on. -/
def poke (b : List α) (off : ℕ) (w : List α) : List α :=
  b.take off ++ w ++ b.drop (off + w.length)

section

variable {b w : List α} {off : ℕ}

theorem length_poke (h : off + w.length ≤ b.length) : (poke b off w).length = b.length := by
  simp only [poke, length_append, length_take, length_drop]
  omega

theorem getElem?_poke (h : off + w.length ≤ b.length) (i : ℕ) : (poke b off w)[i]? =
      if off ≤ i ∧ i < off + w.length then w[i - off]? else b[i]? := by
  have htake : (b.take off).length = off := by rw [length_take]; omega
  rw [poke, append_assoc, getElem?_append, htake]
  by_cases hlo : i < off
  · rw [if_pos hlo, if_neg (by omega), getElem?_take, if_pos hlo]
  · rw [if_neg hlo, getElem?_append]
    by_cases hhi : i - off < w.length
    · rw [if_pos hhi, if_pos (by omega)]
    · rw [if_neg hhi, if_neg (by omega), getElem?_drop]
      congr 1
      omega

theorem slice_poke_apart {o : ℕ} (h : off + w.length ≤ b.length)
    (hon : o + n ≤ off ∨ off + w.length ≤ o) : slice (poke b off w) o n = slice b o n := by
  apply slice_congr
  intro i hlo hhi
  rw [getElem?_poke h, if_neg (by omega)]

theorem slice_poke_self (hn : w.length = n) (h : off + n ≤ b.length) :
    slice (poke b off w) off n = w := by
  subst hn
  apply ext_getElem?
  intro i
  rw [getElem?_slice]
  split
  · rw [getElem?_poke h, if_pos (by omega)]
    congr 1
    omega
  · rw [getElem?_eq_none (by omega)]

theorem slice_poke_inside {o : ℕ} (h : off + o + w.length ≤ b.length) (ho : o + w.length ≤ n) :
    slice (poke b (off + o) w) off n = poke (slice b off n) o w := by
  have hlen := length_slice b off n
  apply ext_getElem?
  intro i
  rw [getElem?_slice, getElem?_poke (by omega), getElem?_poke (by omega), getElem?_slice]
  by_cases hi : i < n
  · rw [if_pos hi, if_pos hi]
    by_cases hin : o ≤ i ∧ i < o + w.length
    · rw [if_pos hin, if_pos (by omega)]
      congr 1
      omega
    · rw [if_neg hin, if_neg (by omega)]
  · rw [if_neg hi, if_neg (by omega), if_neg hi]

end

theorem poke_poke_self {v w : List α} (h : off + v.length ≤ b.length)
    (hvw : v.length = w.length) : poke (poke b off v) off w = poke b off w := by
  have hlen := length_poke h
  apply ext_getElem?
  intro i
  rw [getElem?_poke (by omega), getElem?_poke (by omega), getElem?_poke (by omega), hvw]
  split <;> rfl

theorem poke_slice_self (h : off + n ≤ b.length) : poke b off (slice b off n) = b := by
  have hlen := length_slice_of_le h
  apply ext_getElem?
  intro i
  rw [getElem?_poke (by omega), hlen]
  split
  · rw [getElem?_slice, if_pos (by omega)]
    congr 1
    omega
  · rfl

/-! ## The frame of a change -/

/-- `d` is `b` with nothing changed but positions in `S`. -/
def SameOutside (S : Set ℕ) (b d : List α) : Prop :=
  d.length = b.length ∧ ∀ i, i ∉ S → d[i]? = b[i]?

namespace SameOutside

variable {S T : Set ℕ} {b d e : List α}

theorem refl (S : Set ℕ) (b : List α) : SameOutside S b b := ⟨rfl, fun _ _ => rfl⟩

theorem trans (h : SameOutside S b d) (h' : SameOutside T d e) : SameOutside (S ∪ T) b e := by
  refine ⟨h'.1.trans h.1, ?_⟩
  intro i hi
  rw [Set.mem_union, not_or] at hi
  exact (h'.2 i hi.2).trans (h.2 i hi.1)

theorem slice_eq (h : SameOutside S b d)
    (hd : ∀ i, off ≤ i → i < off + n → i ∉ S) : slice d off n = slice b off n :=
  slice_congr fun i hlo hhi => h.2 i (hd i hlo hhi)

theorem of_poke {w : List α} (h : off + w.length ≤ b.length) :
    SameOutside (Set.Ico off (off + w.length)) b (poke b off w) := by
  refine ⟨length_poke h, ?_⟩
  intro i hi
  rw [Set.mem_Ico] at hi
  rw [getElem?_poke h, if_neg hi]

end SameOutside

/-! ## Little-endian numbers -/

/-- `v` in `k` bytes, lowest first (the low `k` bytes of a `v` that is too wide). -/
def leBytes : ℕ → ℕ → List UInt8
  | 0, _ => []
  | k + 1, v => UInt8.ofNat (v % 256) :: leBytes k (v / 256)

/-- The number a byte list spells, lowest byte first. -/
def leNat : List UInt8 → ℕ
  | [] => 0
  | b :: bs => b.toNat + 256 * leNat bs

@[simp] theorem length_leBytes (k v : ℕ) : (leBytes k v).length = k := by
  induction k generalizing v with
  | zero => rfl
  | succ k ih => rw [leBytes, length_cons, ih]

theorem leNat_lt (bs : List UInt8) : leNat bs < 256 ^ bs.length := by
  induction bs with
  | nil => exact Nat.one_pos
  | cons b bs ih =>
    have hb := b.toNat_lt
    rw [leNat, length_cons, Nat.pow_succ]
    omega

theorem leNat_leBytes {v : ℕ} (h : v < 256 ^ k) : leNat (leBytes k v) = v := by
  induction k generalizing v with
  | zero => rw [Nat.pow_zero] at h; rw [leBytes, leNat]; omega
  | succ k ih =>
    have hq : v / 256 < 256 ^ k := by
      rw [Nat.pow_succ] at h
      exact Nat.div_lt_of_lt_mul (by rwa [Nat.mul_comm] at h)
    rw [leBytes, leNat, ih hq, UInt8.toNat_ofNat']
    omega

theorem leBytes_leNat {bs : List UInt8} (h : bs.length = k) : leBytes k (leNat bs) = bs := by
  subst h
  induction bs with
  | nil => rfl
  | cons b bs ih =>
    have hb := b.toNat_lt
    have hmod : (b.toNat + 256 * leNat bs) % 256 = b.toNat := by omega
    have hdiv : (b.toNat + 256 * leNat bs) / 256 = leNat bs := by omega
    rw [length_cons, leNat, leBytes, hmod, hdiv, ih, UInt8.ofNat_toNat]

end Bytes
