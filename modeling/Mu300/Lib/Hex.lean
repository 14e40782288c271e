import Mathlib.Data.Nat.Digits.Lemmas
import Mu300.Lib.Shell

/-!
# Hexadecimal texts

* `octets` — a list of octets, two digits each.
* `value` — the number that a text spells.
* `value_take_pad2` — the first two digits of a number are the number itself only below 256.
-/

namespace Hex

open Shell List

def digit (d : ℕ) : Char := ("0123456789ABCDEF".toList).getD d '0'

/-- The value of a digit, in either case; 9 for anything else. -/
def hexval (c : Char) : ℕ :=
  if '0' ≤ c.toUpper ∧ c.toUpper ≤ '9' then c.toUpper.toNat - '0'.toNat
  else if 'A' ≤ c.toUpper ∧ c.toUpper ≤ 'F' then c.toUpper.toNat - 'A'.toNat + 10
  else 9

/-- `printf "%02X"`. -/
def pad2 (n : ℕ) : Text :=
  if n < 16 then ['0', digit n] else (Nat.digits 16 n).reverse.map digit

def octets (os : List UInt8) : Text := os.flatMap fun b => pad2 b.toNat

def value (t : Text) : ℕ := Nat.ofDigits 16 (t.reverse.map hexval)

@[simp] theorem hexval_digit {d : ℕ} (h : d < 16) : hexval (digit d) = d := by
  revert d
  decide

variable {n : ℕ}

theorem pad2_of_lt (h : n < 256) : pad2 n = [digit (n / 16), digit (n % 16)] := by
  rw [pad2]
  split
  · rename_i hn
    rw [Nat.div_eq_of_lt hn, Nat.mod_eq_of_lt hn]
    rfl
  · have hd : n / 16 < 16 := Nat.div_lt_of_lt_mul h
    have hpos : 0 < n / 16 := Nat.div_pos (by omega) (by decide)
    rw [Nat.digits_def' (by decide) (by omega), Nat.digits_of_lt 16 _ hpos.ne' hd]
    rfl

theorem length_pad2_of_lt (h : n < 256) : (pad2 n).length = 2 := by
  rw [pad2_of_lt h]
  rfl

theorem pad2_of_le (h : 256 ≤ n) : pad2 n = (Nat.digits 16 n).reverse.map digit := by
  rw [pad2, if_neg (by omega)]

theorem length_pad2_of_le (h : 256 ≤ n) : 2 < (pad2 n).length := by
  rw [pad2_of_le h, length_map, length_reverse]
  exact (Nat.lt_digits_length_iff (by decide) n).2 (by omega)

theorem map_hexval_digit {ds : List ℕ} (h : ∀ d ∈ ds, d < 16) : (ds.map digit).map hexval = ds := by
  rw [map_map]
  exact (map_congr_left fun d hd => hexval_digit (h d hd)).trans (map_id _)

theorem value_take_pad2 (n : ℕ) : value ((pad2 n).take 2) = n / 16 ^ ((pad2 n).length - 2) := by
  rcases Nat.lt_or_ge n 256 with h | h
  · have hd : n / 16 < 16 := Nat.div_lt_of_lt_mul h
    have hm : n % 16 < 16 := Nat.mod_lt _ (by decide)
    rw [length_pad2_of_lt h, pad2_of_lt h, value]
    simp only [take_succ_cons, take_zero, reverse_cons, reverse_nil, nil_append, cons_append,
      map_cons, map_nil,
      hexval_digit hd, hexval_digit hm, Nat.ofDigits_cons, Nat.ofDigits_nil, Nat.sub_self,
        pow_zero, Nat.div_one]
    omega
  · have hlen : (pad2 n).length = (Nat.digits 16 n).length := by
      rw [pad2_of_le h, length_map, length_reverse]
    rw [hlen, pad2_of_le h, value, Nat.self_div_pow_eq_ofDigits_drop _ n (by decide)]
    congr 1
    rw [← map_take, ← map_reverse, reverse_take, length_reverse, reverse_reverse]
    exact map_hexval_digit fun d hd => Nat.digits_lt_base (by decide) (mem_of_mem_drop hd)

/-! ## Octets -/

theorem octets_cons (b : UInt8) (os : List UInt8) :
    octets (b :: os) = digit (b.toNat / 16) :: digit (b.toNat % 16) :: octets os := by
  rw [octets, flatMap_cons, pad2_of_lt (UInt8.toNat_lt b)]
  rfl

theorem octets_append (os os' : List UInt8) : octets (os ++ os') = octets os ++ octets os' :=
  flatMap_append

@[simp] theorem length_octets (os : List UInt8) : (octets os).length = 2 * os.length := by
  induction os with
  | nil => rfl
  | cons b os ih =>
    rw [octets_cons, length_cons, length_cons, ih, length_cons]
    omega

end Hex
