import Mu300.Lib.Shell

/-!
# Unicode texts as bytes and as 16-bit units

* `utf8 c` — the bytes of a character, as a text with one character per byte.
* `utf16 c` — its 16-bit units: one, or a surrogate pair beyond U+FFFF.
-/

namespace Unicode

open Shell List Char

/-- The UTF-8 encoding of a character. -/
def utf8 (c : Char) : Text := (String.utf8EncodeChar c).map fun b => ofNat b.toNat

/-- The UTF-16 encoding of a character. -/
def utf16 (c : Char) : List ℕ :=
  if c.toNat ≤ 0xFFFF then [c.toNat]
  else [0xD800 + (c.toNat - 0x10000) / 1024, 0xDC00 + (c.toNat - 0x10000) % 1024]

variable {c a : Char}

theorem toNat_lt (c : Char) : c.toNat < 0x110000 := by
  rcases c.valid with h | h
  · exact Nat.lt_trans h (by decide)
  · exact h.2

/-! ## The four lengths of UTF-8 -/

theorem utf8_eq (c : Char) : utf8 c = if c.toNat ≤ 127 then [c]
    else if c.toNat ≤ 2047 then [ofNat (192 + c.toNat / 64), ofNat (128 + c.toNat % 64)]
    else if c.toNat ≤ 65535 then
      [ofNat (224 + c.toNat / 4096), ofNat (128 + c.toNat / 64 % 64), ofNat (128 + c.toNat % 64)]
    else
      [ofNat (240 + c.toNat / 262144), ofNat (128 + c.toNat / 4096 % 64),
        ofNat (128 + c.toNat / 64 % 64), ofNat (128 + c.toNat % 64)] := by
  have hlt := toNat_lt c
  have hbyte : ∀ {n m : ℕ}, n = m → m < 256 → ofNat (UInt8.ofNat n).toNat = ofNat m := by
    rintro n m rfl hn
    rw [UInt8.toNat_ofNat_of_lt' hn]
  rw [utf8, String.utf8EncodeChar, show c.val.toNat = c.toNat from rfl]
  split_ifs with h₁ h₂ h₃
  · rw [map_singleton, hbyte rfl (by omega), ofNat_toNat]
  · rw [map_cons, map_singleton, hbyte (m := 192 + c.toNat / 64) (by omega) (by omega),
      hbyte (Nat.add_comm _ 128) (by omega)]
  · rw [map_cons, map_cons, map_singleton, hbyte (m := 224 + c.toNat / 4096) (by omega) (by omega),
      hbyte (Nat.add_comm _ 128) (by omega), hbyte (Nat.add_comm _ 128) (by omega)]
  · rw [map_cons, map_cons, map_cons, map_singleton, hbyte (m := 240 + c.toNat / 262144)
      (by omega) (by omega),
      hbyte (Nat.add_comm _ 128) (by omega), hbyte (Nat.add_comm _ 128) (by omega),
      hbyte (Nat.add_comm _ 128) (by omega)]

theorem utf8_of_lt_128 (h : c.toNat < 128) : utf8 c = [c] := by
  rw [utf8_eq, if_pos (by omega)]

theorem utf8_of_lt_2048 (h : ¬ c.toNat < 128) (h' : c.toNat < 2048) :
    utf8 c = [ofNat (192 + c.toNat / 64), ofNat (128 + c.toNat % 64)] := by
  rw [utf8_eq, if_neg (by omega), if_pos (by omega)]

theorem utf8_of_le_65535 (h : ¬ c.toNat < 2048) (h' : c.toNat ≤ 0xFFFF) :
    utf8 c = [ofNat (224 + c.toNat / 4096), ofNat (128 + c.toNat / 64 % 64),
      ofNat (128 + c.toNat % 64)] := by
  rw [utf8_eq, if_neg (by omega), if_neg (by omega), if_pos h']

theorem length_utf8_of_lt (h : 0xFFFF < c.toNat) : (utf8 c).length = 4 := by
  rw [utf8_eq, if_neg (by omega), if_neg (by omega), if_neg (by omega)]
  rfl

theorem toNat_ofNat_of_lt {n : ℕ} (h : n < 256) : (ofNat n).toNat = n := by
  have hv : n.isValidChar := .inl (by omega)
  rw [ofNat, dif_pos hv]
  rfl

theorem le_toNat_of_mem_utf8 (h : ¬ c.toNat < 128) {b : Char} (hb : b ∈ utf8 c) :
    128 ≤ b.toNat := by
  have hlt := toNat_lt c
  have hbyte : ∀ n, 128 ≤ n → n < 256 → 128 ≤ (ofNat n).toNat := by
    intro n hn hn'
    rw [toNat_ofNat_of_lt hn']
    exact hn
  rw [utf8_eq, if_neg (by omega)] at hb
  split_ifs at hb
  · simp only [mem_cons, not_mem_nil, or_false] at hb
    rcases hb with rfl | rfl <;> exact hbyte _ (by omega) (by omega)
  · simp only [mem_cons, not_mem_nil, or_false] at hb
    rcases hb with rfl | rfl | rfl <;> exact hbyte _ (by omega) (by omega)
  · simp only [mem_cons, not_mem_nil, or_false] at hb
    rcases hb with rfl | rfl | rfl | rfl <;> exact hbyte _ (by omega) (by omega)

theorem utf8_ne_nil (c : Char) : utf8 c ≠ [] := by
  rw [utf8_eq]
  split_ifs <;> exact cons_ne_nil _ _

theorem eq_of_mem_utf8 (ha : a.toNat < 128) (h : a ∈ utf8 c) : a = c := by
  by_cases hc : c.toNat < 128
  · rwa [utf8_of_lt_128 hc, mem_singleton] at h
  · exact absurd (le_toNat_of_mem_utf8 hc h) (by omega)

theorem filter_flatMap_utf8 (ha : a.toNat < 128) (text : List Char) :
    (text.flatMap utf8).filter (· ≠ a) = (text.filter (· ≠ a)).flatMap utf8 := by
  induction text with
  | nil => rfl
  | cons c text ih =>
    rw [flatMap_cons, filter_append, ih]
    by_cases hc : c = a
    · rw [hc, utf8_of_lt_128 ha, filter_cons_of_neg (by simp), filter_cons_of_neg (by simp)]
      rfl
    · have hall : (utf8 c).filter (· ≠ a) = utf8 c := by
        refine filter_eq_self.2 fun b hb => decide_eq_true ?_
        rintro rfl
        exact hc (eq_of_mem_utf8 ha hb).symm
      rw [hall, filter_cons_of_pos (by simpa using hc), flatMap_cons]

theorem captured_flatMap_utf8 (text : List Char) :
    captured (text.flatMap utf8) = (captured text).flatMap utf8 := by
  induction text using reverseRecOn with
  | nil => rfl
  | append_singleton text c ih =>
    rw [flatMap_append, flatMap_singleton, captured_concat]
    by_cases hc : c = '\n'
    · rw [hc, utf8_of_lt_128 (by decide), captured_concat, if_pos rfl, if_pos rfl, ih]
    · obtain ⟨bs, b, hb⟩ := eq_nil_or_concat' (utf8 c) |>.resolve_left (utf8_ne_nil c)
      have hne : b ≠ '\n' := by
        rintro rfl
        exact hc (eq_of_mem_utf8 (by decide) (by rw [hb]; simp)).symm
      rw [hb, ← append_assoc, captured_concat, if_neg hne, if_neg hc, flatMap_append,
        flatMap_singleton, hb, append_assoc]

/-! ## UTF-16 -/

theorem utf16_of_le (h : c.toNat ≤ 0xFFFF) : utf16 c = [c.toNat] := if_pos h

theorem utf16_of_lt (h : 0xFFFF < c.toNat) :
    ∃ hi lo, utf16 c = [hi, lo] ∧ 0xD800 ≤ hi ∧ hi < 0xDC00 ∧ 0xDC00 ≤ lo ∧ lo < 0xE000 := by
  have hlt := toNat_lt c
  refine ⟨_, _, if_neg (Nat.not_le.2 h), ?_, ?_, ?_, ?_⟩
  · omega
  · omega
  · omega
  · omega

theorem lt_of_mem_utf16 {u : ℕ} (hu : u ∈ utf16 c) : u < 0x10000 := by
  rcases Nat.lt_or_ge 0xFFFF c.toNat with h | h
  · obtain ⟨hi, lo, heq, -, hhi, -, hlo⟩ := utf16_of_lt h
    rw [heq, mem_cons, mem_singleton] at hu
    rcases hu with rfl | rfl
    · omega
    · omega
  · rw [utf16_of_le h, mem_singleton] at hu
    omega

end Unicode
