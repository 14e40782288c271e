import Mu300.Sms.Received

/-!
# Septets in octets

The septets of a text and the octets that they are packed into are the digits of one number, the
lowest first: `octetValue` is that number.
-/

namespace Mu300.Sms

open Shell Hex List UInt8

/-- The number whose digits to the base 256 are these. -/
def octetValue (os : List UInt8) : ℕ := Nat.ofDigits 256 (os.map toNat)

theorem octetValue_lt (os : List UInt8) : octetValue os < 256 ^ os.length := by
  have hlt := Nat.ofDigits_lt_base_pow_length (b := 256) (l := os.map toNat) (by decide)
    (by simpa using fun b _ => toNat_lt b)
  rwa [length_map] at hlt

theorem octetValue_append (os os' : List UInt8) :
    octetValue (os ++ os') = octetValue os + 256 ^ os.length * octetValue os' := by
  simp [octetValue, Nat.ofDigits_append]

theorem octetValue_cons (b : UInt8) (os : List UInt8) :
    octetValue (b :: os) = b.toNat + 256 * octetValue os := Nat.ofDigits_cons

/-! ## Reading -/

/-- The bits from `r` on, of two octets: seven of them, the second octet read only if needed. -/
theorem septet_of_octets {a b r : ℕ} (ha : a < 256) (hr : r < 8) (m : ℕ) :
    (if 1 < r then a >>> r ||| b <<< (8 - r) else a >>> r) &&& 127 =
      (a + 256 * (b + 256 * m)) / 2 ^ r % 128 := by
  have hor : ∀ i, i ≤ 8 → a >>> i ||| b <<< (8 - i) = b * 2 ^ (8 - i) + a / 2 ^ i := by
    intro i hi
    have hlt : a / 2 ^ i < 2 ^ (8 - i) := by
      rw [Nat.div_lt_iff_lt_mul (by positivity), ← pow_add, Nat.sub_add_cancel hi]
      exact ha
    rw [Nat.or_comm, Nat.shiftRight_eq_div_pow, ← Nat.shiftLeft_add_eq_or_of_lt hlt,
      Nat.shiftLeft_eq]
  rw [Nat.and_two_pow_sub_one_eq_mod _ 7, hor r hr.le, Nat.shiftRight_eq_div_pow]
  interval_cases r <;> simp <;> omega

theorem septetAt_octets (before os : List UInt8) {i : ℕ} (hi : 7 * i + 7 ≤ 8 * os.length) :
    septetAt (octets (before ++ os)) before.length i = octetValue os / 128 ^ i % 128 := by
  obtain ⟨l, a, rest, rfl, hl⟩ : ∃ l a rest, os = l ++ a :: rest ∧ l.length = i * 7 / 8 :=
    ⟨os.take (i * 7 / 8), os[i * 7 / 8], os.drop (i * 7 / 8 + 1), by simp, by simp; omega⟩
  have ha : byteat (octets (before ++ (l ++ a :: rest))) (before.length + i * 7 / 8) = a.toNat :=
    byteat_eq (append_assoc _ _ _).symm (by rw [length_append, hl])
  have hpow : (128 : ℕ) ^ i = 256 ^ l.length * 2 ^ (i * 7 % 8) := by
    rw [hl, show (128 : ℕ) = 2 ^ 7 from rfl, show (256 : ℕ) = 2 ^ 8 from rfl, ← pow_mul,
      ← pow_mul, ← pow_add]
    congr 1
    omega
  rw [octetValue_append, octetValue_cons, hpow, ← Nat.div_div_eq_div_mul,
    Nat.add_mul_div_left _ _ (by positivity), Nat.div_eq_of_lt (octetValue_lt l), Nat.zero_add]
  simp only [septetAt, ha]
  rcases rest with _ | ⟨b, rest⟩
  · have hr : ¬ 1 < i * 7 % 8 := by simp at hi; omega
    have ha := septet_of_octets (b := 0) (toNat_lt a)
      (Nat.mod_lt (i * 7) (by decide : 0 < 8)) 0
    simpa [hr, octetValue] using ha
  · have hb : byteat (octets (before ++ (l ++ a :: b :: rest)))
        (before.length + i * 7 / 8 + 1) = b.toNat :=
      byteat_eq (l := before ++ l ++ [a]) (r := rest) (by simp) (by simp [hl]; omega)
    rw [hb, octetValue_cons, septet_of_octets (toNat_lt a) (Nat.mod_lt _ (by decide))]

variable {os : List UInt8} {ss : List ℕ}

/-- The septets behind `k` others, of which the lowest bits may be anything. -/
theorem map_septetAt (before : List UInt8) {k v : ℕ}
    (hval : octetValue os = v + 128 ^ k * Nat.ofDigits 128 ss) (hv : v < 128 ^ k)
    (hss : ∀ s ∈ ss, s < 128) (hlen : 7 * (k + ss.length) ≤ 8 * os.length) :
    ((range (k + ss.length)).drop k).map (septetAt (octets (before ++ os)) before.length) = ss := by
  refine ext_getElem (by simp) fun i _ hi => ?_
  rw [getElem_map, getElem_drop, getElem_range, septetAt_octets before os (by omega), hval, pow_add,
    ← Nat.div_div_eq_div_mul, Nat.add_mul_div_left _ _ (by positivity), Nat.div_eq_of_lt hv,
      Nat.zero_add,
    Nat.ofDigits_div_pow_eq_ofDigits_drop i (by decide) ss hss, drop_eq_getElem_cons hi,
      Nat.ofDigits_cons,
    Nat.add_mul_mod_self_left, Nat.mod_eq_of_lt (hss _ (getElem_mem hi))]

/-! ## Packing -/

/-- The octets that are full and the bits that are left are the digits of the septets. -/
structure Packing.Holds (p : Packing) (ss : List ℕ) (os : List UInt8) : Prop where
  out : p.out = octets os
  length : 8 * os.length + p.bits = 7 * ss.length
  bits : p.bits < 8
  val : p.val < 2 ^ p.bits
  value : octetValue os + 256 ^ os.length * p.val = Nat.ofDigits 128 ss

theorem pad2_and_255 (n : ℕ) : pad2 (n &&& 255) = octets [ofNat n] := by
  rw [Nat.and_two_pow_sub_one_eq_mod n 8]
  simp [octets]

theorem Packing.Holds.add {p : Packing} (h : p.Holds ss os) {s : ℕ}
    (hs : s < 128) : ∃ os', (p.add s).Holds (ss ++ [s]) os' := by
  have hval : p.val ||| s <<< p.bits = p.val + 2 ^ p.bits * s := by
    rw [Nat.or_comm, ← Nat.shiftLeft_add_eq_or_of_lt h.val, Nat.shiftLeft_eq, Nat.add_comm,
      Nat.mul_comm]
  have hlt : p.val + 2 ^ p.bits * s < 2 ^ (p.bits + 7) := by
    have := h.val
    rw [pow_add]
    nlinarith
  have hpow : (128 : ℕ) ^ ss.length = 256 ^ os.length * 2 ^ p.bits := by
    rw [show (128 : ℕ) = 2 ^ 7 from rfl, show (256 : ℕ) = 2 ^ 8 from rfl, ← pow_mul, ← pow_mul,
      ← pow_add, h.length]
  have hsum : octetValue os + 256 ^ os.length * (p.val + 2 ^ p.bits * s) =
      Nat.ofDigits 128 (ss ++ [s]) := by
    rw [Nat.ofDigits_append, Nat.ofDigits_singleton, hpow, ← h.value]
    ring
  have hlen := h.length
  rw [Packing.add, hval]
  split
  · rename_i hfull
    refine ⟨os ++ [ofNat (p.val + 2 ^ p.bits * s)], ?_, ?_, ?_, ?_, ?_⟩
    · rw [octets_append, ← pad2_and_255, h.out]
    · simp
      omega
    · have := h.bits
      show p.bits + 7 - 8 < 8
      omega
    · rw [Nat.shiftRight_eq_div_pow, Nat.div_lt_iff_lt_mul (by positivity), ← pow_add,
        Nat.sub_add_cancel hfull]
      exact hlt
    · have hdiv := Nat.mod_add_div (p.val + 2 ^ p.bits * s) (2 ^ 8)
      rw [← hsum, octetValue_append, Nat.shiftRight_eq_div_pow, length_append, pow_add,
        Nat.add_assoc, Nat.mul_assoc, ← Nat.mul_add]
      simpa [octetValue] using hdiv
  · rename_i hfull
    exact ⟨os, h.out, by simp; omega, Nat.not_le.1 hfull, hlt, hsum⟩

theorem septetsOf_lt {c s : ℕ} (h : s ∈ septetsOf c) : s < 128 := by
  rw [septetsOf] at h
  split at h
  · rename_i i hi
    obtain rfl := mem_singleton.1 h
    exact (idxOf?_eq_some_iff.1 hi).1
  · have hext : ∀ p ∈ ext, p.1 < 128 := by decide
    rcases hc : ext.find? fun p => p.2 = c with _ | p
    · simp [resc, hc] at h
      omega
    · have := hext p (List.mem_of_find?_eq_some hc)
      simp [resc, hc] at h
      omega

theorem lt_of_mem_septets {cp : List ℕ} {s : ℕ} (h : s ∈ cp.flatMap septetsOf) : s < 128 := by
  obtain ⟨c, -, hc⟩ := mem_flatMap.1 h
  exact septetsOf_lt hc

theorem gsm7Pack_octets (cp : List ℕ) :
    ∃ os, gsm7Pack cp = octets os ∧ os.length = (7 * (cp.flatMap septetsOf).length + 7) / 8 ∧
      octetValue os = Nat.ofDigits 128 (cp.flatMap septetsOf) := by
  have hss : ∀ s ∈ cp.flatMap septetsOf, s < 128 := fun _ => lt_of_mem_septets
  rw [gsm7Pack]
  generalize cp.flatMap septetsOf = ss at hss ⊢
  obtain ⟨os, h⟩ : ∃ os, (ss.foldl Packing.add ⟨[], 0, 0⟩).Holds ss os := by
    induction ss using reverseRecOn with
    | nil => exact ⟨[], rfl, rfl, by decide, by decide, rfl⟩
    | append_singleton ss s ih =>
      obtain ⟨os, h⟩ := ih fun t ht => hss t (mem_append_left _ ht)
      rw [foldl_append]
      exact h.add (hss s (by simp))
  generalize ss.foldl Packing.add ⟨[], 0, 0⟩ = p at h
  obtain ⟨hout, hlen, hbits, hval, hvalue⟩ := h
  rw [Packing.close]
  split
  · refine ⟨os ++ [ofNat p.val], ?_, ?_, ?_⟩
    · rw [octets_append, ← pad2_and_255, hout]
    · simp
      omega
    · have hsmall : p.val < 256 := hval.trans (Nat.pow_lt_pow_right (by decide) hbits)
      rw [← hvalue, octetValue_append]
      simp [octetValue, Nat.mod_eq_of_lt hsmall]
  · have hzero : p.bits = 0 := by omega
    rw [hzero] at hval hlen
    refine ⟨os, hout, by omega, ?_⟩
    simpa [Nat.lt_one_iff.1 hval] using hvalue

end Mu300.Sms
