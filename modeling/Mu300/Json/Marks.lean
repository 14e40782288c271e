import Mu300.Json.Strings

/-!
# What the marks hide

The marks are bytes that an escape can bring itself. `cleanctl` and `unmark` see the string with its
marks, not what was written.

* `cleanctl_withMarks` — what `cleanctl` finds: no 2, and nothing outside of an escape.
* `unmark_withMarks` — what is left is the string without the bytes 1 and 2.
-/

namespace Mu300.FlatJson

open Shell List Option Char

variable {a o r t x v : Text} {c : Char} {u : ℕ} (s : Json.Str)

/-! ## Looking between the marks -/

theorem marked_cons (hc : c ≠ soh) : marked (c :: t) = marked t := by
  have hdrop : (c :: t).dropWhile (· ≠ soh) = t.dropWhile (· ≠ soh) :=
      dropWhile_cons_of_pos (decide_eq_true hc)
  rw [marked, marked, hdrop]

theorem marked_mark (hx : stx ∉ x) (t : Text) : marked (mark x ++ t) = some (x, t) := by
  have hne : ∀ c ∈ x, decide (c ≠ stx) := fun c hc => decide_eq_true fun he => hx (he ▸ hc)
  have hstart : (mark x ++ t).dropWhile (· ≠ soh) = soh :: (x ++ stx :: t) := by
    rw [mark, cons_append, cons_append, append_assoc, singleton_append]
    exact dropWhile_cons_of_neg (by simp)
  rw [marked, hstart]
  dsimp only
  rw [dropWhile_append_of_pos hne, takeWhile_append_of_pos hne,
    dropWhile_cons_of_neg (by simp), takeWhile_cons_of_neg (by simp), append_nil]

theorem length_of_marked (h : marked t = some (x, r)) : r.length < t.length := by
  rw [marked] at h
  split at h
  · cases h
  · next t₁ hstart =>
    split at h
    · cases h
    · next rest hend =>
      cases h
      have h₁ := (dropWhile_suffix (· ≠ soh) (l := t)).length_le
      have h₂ := (dropWhile_suffix (· ≠ stx) (l := t₁)).length_le
      rw [hstart, length_cons] at h₁
      rw [hend, length_cons] at h₂
      omega

theorem length_of_cleanctlPass (t t' : Text) (h : cleanctlPass t = .inl t') :
    t'.length < t.length := by
  rw [cleanctlPass] at h
  split at h
  · cases h
  · next hm =>
    split at h
    · cases h
    · cases h
      exact length_of_marked hm

theorem cleanctl_cons (hc : c ≠ soh) (t : Text) : cleanctl (c :: t) = cleanctl t := by
  have hsame : cleanctlPass (c :: t) = cleanctlPass t := by
    rw [cleanctlPass, cleanctlPass, marked_cons hc]
  exact Loop.run_congr length_of_cleanctlPass hsame

theorem cleanctl_mark (hx : stx ∉ x) (t : Text) :
    cleanctl (mark x ++ t) = (badctl x || cleanctl t) := by
  have hpass : cleanctlPass (mark x ++ t) = if badctl x then .inr true else .inl t := by
    rw [cleanctlPass, marked_mark hx]
  cases hbad : badctl x with
  | true =>
    rw [hbad] at hpass
    exact Loop.run_of_inr hpass
  | false =>
    rw [hbad] at hpass
    exact Loop.run_of_inl length_of_cleanctlPass hpass

theorem cleanctl_mark_stx (t : Text) : cleanctl (mark [stx] ++ t) = cleanctl t := by
  have hsplit : mark [stx] ++ t = mark [] ++ stx :: t := rfl
  rw [hsplit, cleanctl_mark not_mem_nil, cleanctl_cons (by decide)]
  rfl

/-! ## The bytes of a character -/

section Bytes

variable {n u l : ℕ}

theorem utf8_eq (h : n.isValidChar) : utf8 n = Unicode.utf8 (ofNat n) := by
  rw [Unicode.utf8_eq, Json.toNat_ofNat h, utf8]
  split_ifs <;> first | rfl | omega

theorem le_of_mem_utf8 (h : n.isValidChar) (hn : 128 ≤ n) (hc : c ∈ utf8 n) : 128 ≤ c.toNat := by
  rw [utf8_eq h] at hc
  exact Unicode.le_toNat_of_mem_utf8 (by rw [Json.toNat_ofNat h]; omega) hc

end Bytes

theorem ctl_of_le (h : 128 ≤ c.toNat) : ctl c = false := by
  rw [ctl, Bool.or_eq_false_iff, Bool.and_eq_false_iff, decide_eq_false_iff_not,
    decide_eq_false_iff_not, decide_eq_false_iff_not]
  omega

/-! ## What `cleanctl` finds -/

/-- The control characters that it finds between the marks. -/
def found (u : ℕ) : Bool := (1 ≤ u && u ≤ 31 || u = 127) && u ≠ 2 && u ≠ 9 && u ≠ 10 && u ≠ 13

theorem cleanctl_utf8_of_lt (hu : u < 128) (t : Text) :
    cleanctl (mark (utf8 u) ++ t) = (found u || cleanctl t) := by
  rw [utf8, if_pos hu]
  by_cases htwo : u = 2
  · subst htwo
    exact cleanctl_mark_stx t
  · have hfound : ∀ u < 128, u ≠ 2 → stx ∉ [ofNat u] ∧ badctl [ofNat u] = found u := by decide
    obtain ⟨hstx, hbad⟩ := hfound u hu htwo
    rw [cleanctl_mark hstx, hbad]

theorem cleanctl_utf8_of_le {n : ℕ} (h : n.isValidChar) (hn : 128 ≤ n) (t : Text) :
    cleanctl (mark (utf8 n) ++ t) = cleanctl t := by
  have hhigh := fun c hc => le_of_mem_utf8 (c := c) h hn hc
  have hstx : stx ∉ utf8 n := fun hmem => absurd (hhigh _ hmem) (by decide)
  have hbad : badctl (utf8 n) = false := by
    have hany : (utf8 n).any ctl = false := by
      rw [List.any_eq_false]
      intro c hc
      rw [ctl_of_le (hhigh c hc)]
      decide
    rw [badctl, hany]
    rfl
  rw [cleanctl_mark hstx, hbad, Bool.false_or]

theorem found_of_le (h : 128 ≤ u) : found u = false := by
  simp only [found, Bool.and_eq_false_iff, Bool.or_eq_false_iff, decide_eq_false_iff_not]
  omega

/-- An item whose character is found. -/
def caught : Json.Item → Bool
  | .raw _ _ => false
  | i => found i.unit

theorem cleanctl_short (e : Json.Short) (t : Text) :
    cleanctl ((if e = .b ∨ e = .f then mark [e.char] else [e.char]) ++ t) =
      (found e.char.toNat || cleanctl t) := by
  cases e with
  | b => exact cleanctl_utf8_of_lt (by decide : 8 < 128) t
  | f => exact cleanctl_utf8_of_lt (by decide : 12 < 128) t
  | quote | backslash | slash | n | r | t => exact cleanctl_cons (by decide) t

/-- **What is found in a value**: an escape of any kind that brings a control character other than
tab, newline and CR, but not the byte 2. -/
theorem cleanctl_withMarks (v : Text) (h : withMarks s = some v) : cleanctl v = s.any caught := by
  fun_induction withMarks s generalizing v with
  | case1 =>
    cases h
    rfl
  | case3 c hc s hctl ih =>
    obtain ⟨w, hw, rfl⟩ := map_eq_some_iff.1 h
    have hne : c ≠ soh := by
      rintro rfl
      exact hctl rfl
    rw [cleanctl_cons hne, ih w hw]
    rfl
  | case4 e s ih =>
    obtain ⟨w, hw, rfl⟩ := map_eq_some_iff.1 h
    rw [cleanctl_short, ih w hw]
    rfl
  | case6 d u hzero hhigh e s l hlow ih =>
    obtain ⟨w, hw, rfl⟩ := map_eq_some_iff.1 h
    rw [cleanctl_utf8_of_le (Json.isValidChar_ofPair hhigh hlow) (Json.le_ofPair u l), ih w hw]
    rw [Json.isHigh_iff] at hhigh
    rw [Json.isLow_iff] at hlow
    have hu : caught (.unicode d) = false := found_of_le (u := u) (by omega)
    have hl : caught (.unicode e) = false := found_of_le (u := l) (by omega)
    rw [any_cons, any_cons, hu, hl, Bool.false_or, Bool.false_or]
  | case10 d s u hzero hhigh hlow ih =>
    obtain ⟨w, hw, rfl⟩ := map_eq_some_iff.1 h
    have hvalid := Json.isValidChar_of_unit d.toNat_lt hhigh hlow
    rw [any_cons, ← ih w hw]
    by_cases hu : u < 128
    · exact cleanctl_utf8_of_lt hu w
    · have hcaught : caught (.unicode d) = false := found_of_le (u := u) (by omega)
      rw [cleanctl_utf8_of_le hvalid (by omega), hcaught, Bool.false_or]
  | case2 | case5 | case7 | case8 | case9 => cases h

/-! ## What `unmark` leaves -/

theorem unmark_append (a b : Text) : unmark (a ++ b) = unmark a ++ unmark b := filter_append ..

theorem unmark_mark (x : Text) : unmark (mark x) = unmark x := by
  rw [mark, ← singleton_append, unmark_append, unmark_append]
  exact append_nil _

theorem unmark_withMarks (v : Text) (h : withMarks s = some v) :
    ∃ t, Json.decode s = some t ∧ unmark v = unmark t := by
  fun_induction withMarks s generalizing v with
  | case1 =>
    cases h
    exact ⟨[], rfl, rfl⟩
  | case3 c hc s hctl ih =>
    obtain ⟨w, hw, rfl⟩ := map_eq_some_iff.1 h
    obtain ⟨t, ht, hsame⟩ := ih w hw
    refine ⟨c :: t, by rw [Json.decode, ht]; rfl, ?_⟩
    rw [← singleton_append, unmark_append, hsame, ← unmark_append]
    rfl
  | case4 e s ih =>
    obtain ⟨w, hw, rfl⟩ := map_eq_some_iff.1 h
    obtain ⟨t, ht, hsame⟩ := ih w hw
    refine ⟨e.char :: t, by rw [Json.decode, ht]; rfl, ?_⟩
    rw [unmark_append, hsame, apply_ite unmark, unmark_mark, ite_self, ← unmark_append]
    rfl
  | case6 d u hzero hhigh e s l hlow ih =>
    obtain ⟨w, hw, rfl⟩ := map_eq_some_iff.1 h
    obtain ⟨t, ht, hsame⟩ := ih w hw
    refine ⟨Unicode.utf8 (ofNat (Json.ofPair u l)) ++ t, ?_, ?_⟩
    · simp [Json.decode, u, l, hhigh, hlow, ht]
    · rw [unmark_append, unmark_mark, utf8_eq (Json.isValidChar_ofPair hhigh hlow), hsame,
        unmark_append]
  | case10 d s u hzero hhigh hlow ih =>
    obtain ⟨w, hw, rfl⟩ := map_eq_some_iff.1 h
    obtain ⟨t, ht, hsame⟩ := ih w hw
    have hvalid := Json.isValidChar_of_unit d.toNat_lt hhigh hlow
    refine ⟨Unicode.utf8 (ofNat u) ++ t, ?_, ?_⟩
    · rw [Json.decode_unit hhigh hlow, ht]
      rfl
    · rw [unmark_append, unmark_mark, utf8_eq hvalid, hsame, unmark_append]
  | case2 | case5 | case7 | case8 | case9 => cases h

/-! ## What `str()` refuses -/

/-- An item that `str()` refuses wherever it stands. -/
def refused : Json.Item → Bool
  | .raw c _ => ctl c
  | .short _ => false
  | .unicode d => d.toNat = 0

theorem withMarks_isSome :
    (withMarks s).isSome ↔ (Json.decode s).isSome ∧ ∀ i ∈ s, refused i = false := by
  fun_induction withMarks s with
  | case1 => simp [Json.decode]
  | case2 c hc s hctl => simp [refused, hctl]
  | case3 c hc s hctl ih => simp [refused, hctl, Json.decode, ih]
  | case4 e s ih => simp [refused, Json.decode, ih]
  | case5 d s u hzero => simp [refused, u, hzero]
  | case6 d u hzero hhigh e s l hlow ih =>
    have hl : l ≠ 0 := by
      rw [Json.isLow_iff] at hlow
      omega
    simp [Json.decode, refused, u, l, hzero, hhigh, hlow, hl, ih]
  | case7 d u hzero hhigh e s l hlow => simp [Json.decode, u, l, hhigh, hlow]
  | case8 d s u hzero hhigh hs => simp [Json.decode, u, hhigh]
  | case9 d s u hzero hhigh hlow => simp [Json.decode.eq_def, u, hhigh, hlow]
  | case10 d s u hzero hhigh hlow ih => simp [Json.decode_unit hhigh hlow, refused, u, hzero, ih]

end Mu300.FlatJson
