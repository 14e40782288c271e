import Mathlib.Computability.RegularExpressions

/-!
# The longest beginning that an expression matches

`match(t, /^r/)` of awk takes the longest of all beginnings of `t` that are in the language of `r`.

* `letters` — the letters that stand in an expression: no other letter is in a match of it.
-/

namespace RegularExpression

open List

variable {α : Type} {P : RegularExpression α} {t : List α}

def letters : RegularExpression α → List α
  | zero | epsilon => []
  | char a => [a]
  | plus P Q | comp P Q => P.letters ++ Q.letters
  | star P => P.letters

def oneOf (as : List α) : RegularExpression α := (as.map char).foldr (· + ·) 0

/-- `P?` -/
def opt (P : RegularExpression α) : RegularExpression α := P + 1

/-- `P+` -/
def many (P : RegularExpression α) : RegularExpression α := P * star P

theorem mem_letters (h : t ∈ P.matches') {a : α} (ha : a ∈ t) :
    a ∈ P.letters := by
  induction P generalizing t a with
  | zero => cases h
  | epsilon =>
    obtain rfl : t = [] := h
    cases ha
  | char b =>
    obtain rfl : t = [b] := h
    exact ha
  | plus P Q ihP ihQ =>
    rw [letters, mem_append]
    rcases h with h | h
    · exact .inl (ihP h ha)
    · exact .inr (ihQ h ha)
  | comp P Q ihP ihQ =>
    rw [letters, mem_append]
    obtain ⟨u, hu, v, hv, rfl⟩ := Language.mem_mul.1 h
    rcases mem_append.1 ha with ha | ha
    · exact .inl (ihP hu ha)
    · exact .inr (ihQ hv ha)
  | star P ih =>
    obtain ⟨ts, rfl, hts⟩ := Language.mem_kstar.1 h
    obtain ⟨u, hu, hau⟩ := mem_flatten.1 ha
    exact ih (hts u hu) hau

theorem mem_oneOf {as : List α} (h : t ∈ (oneOf as).matches') : ∃ a ∈ as, t = [a] := by
  induction as with
  | nil => cases h
  | cons a as ih =>
    rcases h with h | h
    · exact ⟨a, mem_cons_self, h⟩
    · obtain ⟨b, hb, ht⟩ := ih h
      exact ⟨b, mem_cons_of_mem _ hb, ht⟩

variable [DecidableEq α]

/-- The length of the longest beginning of `t` that `P` matches: as few letters as possible are left
off. -/
def longest (P : RegularExpression α) (t : List α) : Option ℕ :=
  ((range (t.length + 1)).find? fun n => P.rmatch (t.take (t.length - n))).map (t.length - ·)

theorem rmatch_of_longest {n : ℕ} (h : P.longest t = some n) :
    n ≤ t.length ∧ P.rmatch (t.take n) := by
  obtain ⟨k, hk, rfl⟩ := Option.map_eq_some_iff.1 h
  rw [find?_range_eq_some] at hk
  exact ⟨Nat.sub_le _ _, hk.1⟩

theorem longest_append {u v : List α} (hu : P.rmatch u)
    (hv : ∀ a ∈ v.head?, a ∉ P.letters) : P.longest (u ++ v) = some u.length := by
  have hlen : (u ++ v).length = u.length + v.length := length_append
  have hfind : ((range ((u ++ v).length + 1)).find? fun n =>
      P.rmatch ((u ++ v).take ((u ++ v).length - n))) = some v.length := by
    rw [find?_range_eq_some]
    refine ⟨?_, ?_, fun n hn => ?_⟩
    · rw [hlen, Nat.add_sub_cancel, take_left]
      exact hu
    · rw [mem_range]
      omega
    · -- a longer beginning has the first letter of `v`
      obtain ⟨a, v, rfl⟩ : ∃ a v', v = a :: v' := exists_cons_of_length_pos (by omega)
      have hmem : a ∈ (u ++ a :: v).take ((u ++ a :: v).length - n) := by
        obtain ⟨k, hk⟩ : ∃ k, (u ++ a :: v).length - n = u.length + (k + 1) :=
          ⟨v.length - n, by rw [hlen, length_cons] at *; omega⟩
        rw [hk, take_length_add_append, take_succ_cons]
        exact mem_append_right _ mem_cons_self
      rw [Bool.not_eq_true', Bool.eq_false_iff, ne_eq, rmatch_iff_matches']
      exact fun h => hv a rfl (mem_letters h hmem)
  rw [longest, hfind, Option.map_some, hlen, Nat.add_sub_cancel]

end RegularExpression
