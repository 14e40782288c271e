import Mathlib.Data.List.Dedup
import Mathlib.Data.Nat.Bitwise
import Mathlib.Data.Nat.ModEq
import Mathlib.Algebra.BigOperators.Group.List.Basic

/-!
# Masks over a table

A table says which value each bit of a mask stands for, the lowest bit first.

* `mask t ws` — the sum of the bits of the entries `ws`, each as often as it is there.
* `unmask t m` — the values whose bit is set.
* `again ws` — the entries that come again later on, `count_again` how often.
* `flags t P` — the mask with exactly the bits of the values of a kind.
-/

namespace Bitmask

open List

variable {α : Type} [DecidableEq α]

def place : List α → α → ℕ
  | [], _ => 0
  | b :: t, w => (if w = b then 1 else 0) + 2 * place t w

/-- The bits of all entries, added up. -/
def mask (t ws : List α) : ℕ := (ws.map (place t)).sum

def unmask (t : List α) (m : ℕ) : List α :=
  (t.zipIdx.filter fun p => m / 2 ^ p.2 % 2 = 1).map Prod.fst

def again : List α → List α
  | [] => []
  | w :: ws => if w ∈ ws then w :: again ws else again ws

/-- The mask that has exactly the bits of the values of a kind. -/
def flags (t : List α) (P : α → Bool) : ℕ := t.foldr (fun b m => (P b).toNat + 2 * m) 0

section

variable {t ws : List α} {b w : α} {P : α → Bool} {m i : ℕ}

theorem place_eq_zero (h : w ∉ t) : place t w = 0 := by
  induction t with
  | nil => rfl
  | cons b t ih =>
    rw [mem_cons, not_or] at h
    rw [place, if_neg h.1, ih h.2]

theorem mask_cons (t : List α) (w : α) (ws : List α) : mask t (w :: ws) = place t w + mask t ws :=
  sum_cons

theorem mask_cons_table (b : α) (t ws : List α) :
    mask (b :: t) ws = ws.count b + 2 * mask t ws := by
  induction ws with
  | nil => rfl
  | cons w ws ih =>
    rw [mask_cons, mask_cons, ih, place, count_cons]
    by_cases hw : w = b
    · simp only [hw, beq_self_eq_true, if_true]
      omega
    · simp only [hw, beq_iff_eq, if_false]
      omega

theorem mask_eq_flags (t : List α) (hws : ws.Nodup) : mask t ws = flags t (· ∈ ws) := by
  induction t with
  | nil =>
    have hzero : ∀ n ∈ ws.map (place ([] : List α)), n = 0 := by
      intro n hn
      obtain ⟨w, _, rfl⟩ := mem_map.1 hn
      rfl
    exact sum_eq_zero hzero
  | cons b t ih =>
    have hcount : ws.count b = (decide (b ∈ ws)).toNat := by
      by_cases hb : b ∈ ws
      · rw [count_eq_one_of_mem hws hb, decide_eq_true hb]
        rfl
      · rw [count_eq_zero_of_not_mem hb, decide_eq_false hb]
        rfl
    rw [mask_cons_table, ih, hcount]
    rfl

theorem mask_eq_add_again (t ws : List α) : mask t ws = mask t ws.dedup + mask t (again ws) := by
  induction ws with
  | nil => rfl
  | cons w ws ih =>
    by_cases hw : w ∈ ws
    · rw [again, if_pos hw, dedup_cons_of_mem hw, mask_cons, mask_cons, ih]
      omega
    · rw [again, if_neg hw, dedup_cons_of_notMem hw, mask_cons, mask_cons, ih]
      omega

omit [DecidableEq α] in
theorem testBit_flags (t : List α) (P : α → Bool) (i : ℕ) :
    (flags t P).testBit i = (t[i]?).any P := by
  induction t generalizing i with
  | nil => simp [flags]
  | cons b t ih =>
    have hcons : flags (b :: t) P = Nat.bit (P b) (flags t P) := by
      rw [Nat.bit_val]
      exact Nat.add_comm ..
    cases i with
    | zero => simp [hcons]
    | succ i => rw [hcons, Nat.testBit_bit_succ, ih, List.getElem?_cons_succ]

omit [DecidableEq α] in
theorem mem_unmask : b ∈ unmask t m ↔ ∃ i, t[i]? = some b ∧ m.testBit i := by
  simp only [unmask, mem_map, mem_filter, Nat.testBit_eq_decide_div_mod_eq]
  constructor
  · rintro ⟨⟨b', i⟩, ⟨hmem, hbit⟩, rfl⟩
    exact ⟨i, mk_mem_zipIdx_iff_getElem?.1 hmem, hbit⟩
  · rintro ⟨i, hi, hbit⟩
    exact ⟨(b, i), ⟨mk_mem_zipIdx_iff_getElem?.2 hi, hbit⟩, rfl⟩

omit [DecidableEq α] in
@[simp] theorem unmask_zero (t : List α) : unmask t 0 = [] := by simp [unmask]

/-- What comes again is there once less often. -/
theorem count_again (ws : List α) (b : α) : (again ws).count b = ws.count b - 1 := by
  induction ws with
  | nil => rfl
  | cons w ws ih =>
    by_cases hw : w ∈ ws
    · rw [again, if_pos hw, count_cons, count_cons, ih]
      by_cases hb : w = b
      · have hpos : 0 < ws.count b := count_pos_iff.2 (hb ▸ hw)
        simp only [hb, beq_self_eq_true, if_true]
        omega
      · simp only [beq_iff_eq, if_neg hb]
        omega
    · rw [again, if_neg hw, ih, count_cons]
      by_cases hb : w = b
      · rw [← hb, count_eq_zero_of_not_mem hw]
        simp
      · simp only [beq_iff_eq, if_neg hb]
        omega

omit [DecidableEq α] in
theorem flags_eq_zero (h : ∀ b ∈ t, P b = false) : flags t P = 0 := by
  induction t with
  | nil => rfl
  | cons b t ih =>
    have ht := ih fun c hc => h c (.tail _ hc)
    simp only [flags, foldr_cons] at ht ⊢
    rw [ht, h b mem_cons_self]
    rfl

omit [DecidableEq α] in
theorem flags_add {Q R : α → Bool} (h : ∀ b ∈ t, (R b).toNat = (P b).toNat + (Q b).toNat) :
    flags t R = flags t P + flags t Q := by
  induction t with
  | nil => rfl
  | cons b t ih =>
    have hb := h b mem_cons_self
    have ht := ih fun c hc => h c (.tail _ hc)
    simp only [flags, foldr_cons] at ht ⊢
    omega

omit [DecidableEq α] in
/-- A mask is read as the values of a kind when it has their bits, whatever it has above them. -/
theorem forall_mem_unmask_iff (ht : t.Nodup) :
    (∀ b, b ∈ unmask t m ↔ b ∈ t ∧ P b) ↔ m % 2 ^ t.length = flags t P % 2 ^ t.length := by
  have hbits : (∀ b, b ∈ unmask t m ↔ b ∈ t ∧ P b) ↔
      ∀ i < t.length, m.testBit i = (flags t P).testBit i := by
    constructor
    · intro h i hi
      have hget : t[i]? = some t[i] := List.getElem?_eq_getElem hi
      rw [testBit_flags, hget, Option.any_some, Bool.eq_iff_iff]
      refine .trans ?_ ((h t[i]).trans (and_iff_right (getElem_mem hi)))
      rw [mem_unmask]
      constructor
      · exact fun hm => ⟨i, hget, hm⟩
      · rintro ⟨j, hj, hm⟩
        obtain ⟨hj, hij⟩ := List.getElem?_eq_some_iff.1 hj
        obtain rfl : j = i := (ht.getElem_inj_iff).1 hij
        exact hm
    · intro h b
      rw [mem_unmask]
      constructor
      · rintro ⟨i, hi, hm⟩
        obtain ⟨hlt, rfl⟩ := List.getElem?_eq_some_iff.1 hi
        rw [h i hlt, testBit_flags, hi, Option.any_some] at hm
        exact ⟨getElem_mem hlt, hm⟩
      · rintro ⟨hb, hP⟩
        obtain ⟨i, hlt, rfl⟩ := mem_iff_getElem.1 hb
        have hget : t[i]? = some t[i] := List.getElem?_eq_getElem hlt
        refine ⟨i, hget, ?_⟩
        rw [h i hlt, testBit_flags, hget, Option.any_some]
        exact hP
  rw [hbits]
  constructor
  · intro h
    refine Nat.eq_of_testBit_eq fun i => ?_
    rw [Nat.testBit_mod_two_pow, Nat.testBit_mod_two_pow]
    by_cases hi : i < t.length
    · rw [h i hi]
    · simp [hi]
  · intro h i hi
    have hbit := congrArg (Nat.testBit · i) h
    simpa [hi] using hbit

omit [DecidableEq α] in
/-- Two masks of kinds agree when the kinds do. -/
theorem flags_modEq_iff (ht : t.Nodup) {Q : α → Bool} :
    flags t P ≡ flags t Q [MOD 2 ^ t.length] ↔ ∀ b ∈ t, P b = Q b := by
  have hself := (forall_mem_unmask_iff (P := P) ht).2 rfl
  rw [Nat.ModEq, ← forall_mem_unmask_iff ht]
  refine forall_congr' fun b => ?_
  rw [hself, and_congr_right_iff]
  exact forall_congr' fun _ => Bool.eq_iff_iff.symm

/-- **A mask that was added up** is that of its values, with what comes again carried into it. -/
theorem mask_eq_flags_add (t ws : List α) : mask t ws = flags t (· ∈ ws) + mask t (again ws) := by
  have hflags : flags t (· ∈ ws.dedup) = flags t (· ∈ ws) := by simp
  rw [mask_eq_add_again, mask_eq_flags t ws.nodup_dedup, hflags]

end

end Bitmask
