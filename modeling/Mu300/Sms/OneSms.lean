import Mu300.Sms.Send

/-!
# A text cut to one SMS

`one_sms` of `mu300-sms-forward`: a text to be forwarded is cut to what one message carries, before
the encoder of `sms-pdu.awk` chooses its alphabet.
-/

namespace Mu300.Sms

open Shell List Char Unicode

/-! ## The cutter -/

/-- Plain ASCII outside the extension table. -/
def plainByte (b : Char) : Bool :=
  b.toNat < 128 && (32 ≤ b.toNat || b = '\n' || b = '\r') &&
    b ∉ ['[', ']', '{', '}', '\\', '^', '~', '|']

def dots : Text := ['.', '.', '.']

/-- The bytes of the character that begins with this one. -/
def charBytes (b : ℕ) : ℕ := if 240 ≤ b then 4 else if 224 ≤ b then 3 else if 192 ≤ b then 2 else 1

/-- Whole characters, up to 70 units: what was taken, its units, and whether something is left.
Every pass takes a byte. -/
def fill : ℕ → Text → Text → ℕ → Text × ℕ × Bool
  | n + 1, b :: s, out, units =>
    let len := charBytes b.toNat
    let u := if len = 4 then 2 else 1
    if 70 < units + u then (out, units, true)
    else fill n ((b :: s).drop len) (out ++ (b :: s).take len) (units + u)
  | _, _, out, units => (out, units, false)

/-- Whole characters go from the end, until there is room for the dots. Every pass takes a unit. -/
def shorten : ℕ → Text → ℕ → Text
  | 0, out, _ => out
  | n + 1, out, units =>
    if 67 < units then
      let out := out.rdropWhile fun b => 128 ≤ b.toNat && b.toNat < 192
      shorten n out.dropLast (units - if 240 ≤ (out.getLast?.map toNat).getD 0 then 2 else 1)
    else out

def oneSms (s : Text) : Text :=
  if s.all plainByte then (if 160 < s.length then s.take 157 ++ dots else s)
  else
    match fill s.length s [] 0 with
    | (out, units, cut) => if cut then shorten units out units ++ dots else out

/-- One message: 160 septets, or 70 units of two octets. -/
def OneMessage (data : UserData) : Prop :=
  if data.dcs = ['0', '0'] then data.udl ≤ 160 else data.udl ≤ 140

instance oneMessageDecidable (data : UserData) : Decidable (OneMessage data) :=
  inferInstanceAs (Decidable (if data.dcs = ['0', '0'] then data.udl ≤ 160 else data.udl ≤ 140))

/-! ## Characters -/

def units (text : List Char) : ℕ := (text.flatMap utf16).length

theorem length_utf16 (c : Char) : (utf16 c).length = if c.toNat ≤ 0xFFFF then 1 else 2 := by
  rw [utf16]
  split <;> rfl

@[simp] theorem units_append (a b : List Char) : units (a ++ b) = units a + units b := by
  simp [units]

theorem units_singleton (c : Char) : units [c] = if c.toNat ≤ 0xFFFF then 1 else 2 := by
  simp [units, length_utf16]

theorem length_le_units (text : List Char) : text.length ≤ units text := by
  induction text with
  | nil => exact Nat.zero_le _
  | cons c text ih =>
    rw [← singleton_append, units_append, units_singleton, length_append, length_singleton]
    split <;> omega

/-- The bytes of a character: the first says how many there are, and the others are not first
bytes. -/
theorem utf8_shape (c : Char) :
    ∃ b rest, Unicode.utf8 c = b :: rest ∧ charBytes b.toNat = rest.length + 1 ∧
    (240 ≤ b.toNat ↔ ¬ c.toNat ≤ 0xFFFF) ∧ (∀ x ∈ rest, 128 ≤ x.toNat ∧ x.toNat < 192) ∧
      ¬ (128 ≤ b.toNat ∧ b.toNat < 192) := by
  have hlt := toNat_lt c
  have hbyte : ∀ {m : ℕ}, m < 256 → (ofNat m).toNat = m := toNat_ofNat_of_lt
  rw [utf8_eq]
  split_ifs with h₁ h₂ h₃
  · exact ⟨c, [], rfl, by simp (disch := omega) only [charBytes, if_neg, length_nil],
      by omega, by simp, by omega⟩
  all_goals
    refine ⟨_, _, rfl, ?_, ?_, ?_, ?_⟩
    · simp (disch := omega) only [hbyte, charBytes, if_pos, if_neg, length_cons, length_nil]
    · simp (disch := omega) only [hbyte]
      omega
    · simp (disch := omega)
        only [mem_cons, not_mem_nil, or_false, forall_eq_or_imp, forall_eq, hbyte]
      omega
    · simp (disch := omega) only [hbyte]
      omega

theorem units_eq_of_shape {c b : Char} (h : 240 ≤ b.toNat ↔ ¬ c.toNat ≤ 0xFFFF) :
    units [c] = if 240 ≤ b.toNat then 2 else 1 := by
  rw [units_singleton]
  split <;> simp_all

/-! ## Cutting -/

theorem exists_fill (n : ℕ) (text taken : List Char) (h : units taken ≤ 70) :
    ∃ mid cut, fill n (text.flatMap Unicode.utf8) (taken.flatMap Unicode.utf8) (units taken) =
      (mid.flatMap Unicode.utf8, units mid, cut) ∧ units mid ≤ 70 := by
  induction n generalizing text taken with
  | zero => exact ⟨taken, false, by simp [fill], h⟩
  | succ n ih =>
    cases text with
    | nil => exact ⟨taken, false, by simp [fill], h⟩
    | cons c text =>
      obtain ⟨b, rest, hb, hlen, hbig, -, -⟩ := utf8_shape c
      have hu : (if charBytes b.toNat = 4 then 2 else 1) = units [c] := by
        rw [units_eq_of_shape hbig, charBytes]
        grind
      rw [flatMap_cons, hb, cons_append, fill]
      simp only [hu]
      split
      · exact ⟨taken, true, rfl, h⟩
      · have hnext := ih text (taken ++ [c]) (by rw [units_append]; omega)
        rw [flatMap_append, flatMap_singleton, units_append, hb] at hnext
        rw [hlen, ← cons_append, ← length_cons (a := b), drop_left, take_left]
        exact hnext

theorem exists_shorten (n : ℕ) (text : List Char) (h : units text ≤ n + 67) :
    ∃ short : List Char, shorten n (text.flatMap Unicode.utf8) (units text) =
      short.flatMap Unicode.utf8 ∧ units short ≤ 67 := by
  induction n generalizing text with
  | zero => exact ⟨text, rfl, by omega⟩
  | succ n ih =>
    rw [shorten]
    split
    · next hlong =>
      rcases eq_nil_or_concat' text with rfl | ⟨start, c, rfl⟩
      · exact absurd hlong (by decide)
      obtain ⟨b, rest, hb, -, hbig, hrest, hfirst⟩ := utf8_shape c
      -- the last character is dropped: the bytes behind its first one, and then that
      have hdrop : ((start ++ [c]).flatMap Unicode.utf8).rdropWhile
          (fun b => 128 ≤ b.toNat && b.toNat < 192) = start.flatMap Unicode.utf8 ++ [b] := by
        have hall : ∀ bs : Text, (∀ x ∈ bs, 128 ≤ x.toNat ∧ x.toNat < 192) →
            (start.flatMap Unicode.utf8 ++ b :: bs).rdropWhile
              (fun b => 128 ≤ b.toNat && b.toNat < 192) = start.flatMap Unicode.utf8 ++ [b] := by
          intro bs
          induction bs using reverseRecOn with
          | nil => exact fun _ => rdropWhile_concat_neg _ _ _ (by simpa using hfirst)
          | append_singleton bs x ihbs =>
            intro hx
            rw [← cons_append, ← append_assoc,
              rdropWhile_concat_pos _ _ _ (by simpa using hx x (by simp))]
            exact ihbs fun y hy => hx y (mem_append_left _ hy)
        rw [flatMap_append, flatMap_singleton, hb]
        exact hall rest hrest
      have hless : units (start ++ [c]) - (if 240 ≤ b.toNat then 2 else 1) = units start := by
        rw [units_append, units_eq_of_shape hbig]
        omega
      simp only [hdrop, getLast?_append, getLast?_singleton, Option.some_or, Option.map_some,
        Option.getD_some, dropLast_concat, hless]
      refine ih start ?_
      rw [units_append, units_eq_of_shape hbig] at h
      split at h <;> omega
    · exact ⟨text, rfl, by omega⟩

theorem exists_cut (text : List Char) (h : ¬ (text.flatMap Unicode.utf8).all plainByte) :
    ∃ short : List Char, oneSms (text.flatMap Unicode.utf8) = short.flatMap Unicode.utf8 ∧
      units short ≤ 70 := by
  obtain ⟨mid, cut, hfill, hmid⟩ :=
      exists_fill (text.flatMap Unicode.utf8).length text [] (by decide)
  have hnil : ([] : List Char).flatMap Unicode.utf8 = [] := rfl
  rw [hnil, show units [] = 0 from rfl] at hfill
  rw [oneSms, if_neg h, hfill]
  cases cut with
  | false => exact ⟨mid, rfl, hmid⟩
  | true =>
    obtain ⟨short, hshort, hle⟩ := exists_shorten (units mid) mid (by omega)
    refine ⟨short ++ dots, ?_, ?_⟩
    · rw [flatMap_append, show dots.flatMap Unicode.utf8 = dots by decide]
      simp [hshort]
    · rw [units_append, show units dots = 3 by decide]
      omega

/-! ## The encoder -/

variable {text : List Char}

theorem oneMessage_of_units (h : units text ≤ 70) :
    OneMessage (userData (text.flatMap Unicode.utf8)) := by
  have hlen := length_le_units text
  have hsept : ((text.map toNat).flatMap septetsOf).length ≤ 2 * text.length := by
    clear h hlen
    induction text with
    | nil => exact Nat.zero_le _
    | cons c text ih =>
      have hc : (septetsOf c.toNat).length ≤ 2 := by
        rw [septetsOf]
        split <;> simp
      simp only [map_cons, flatMap_cons, length_append, length_cons] at ih ⊢
      omega
  simp only [userData, utf8Points_flatMap]
  split
  · exact (hsept.trans (by omega) : _ ≤ 160)
  · simp [OneMessage]
    omega

/-- What the encoder has no septet for, though the cutter takes it for plain. -/
def Strange (c : Char) : Prop := c = ofNat 96 ∨ c = ofNat 127

instance strangeDecidable : DecidablePred Strange := fun _ => inferInstanceAs (Decidable (_ ∨ _))

theorem rgsm_of_plain {c : Char} (h : plainByte c) (hc : ¬ Strange c) : (rgsm c.toNat).isSome := by
  have hall : ∀ n < 128, plainByte (ofNat n) → ¬ Strange (ofNat n) → (rgsm n).isSome := by
    decide +kernel
  have hlt : c.toNat < 128 := by simp_all [plainByte]
  have hn := hall c.toNat hlt
  rw [ofNat_toNat] at hn
  exact hn h hc

theorem flatMap_utf8_of_plain (h : ∀ c ∈ text, plainByte c) : text.flatMap Unicode.utf8 = text := by
  have hone : ∀ c ∈ text, Unicode.utf8 c = [c] := by
    intro c hc
    exact Unicode.utf8_of_lt_128 (by simp_all [plainByte])
  rw [flatMap_congr hone, flatMap_singleton']

/-- Plain ASCII: one message, unless something strange makes the encoder take two octets a
character. -/
theorem oneMessage_plain_iff (h : ∀ c ∈ text, plainByte c) (hlen : text.length ≤ 160) :
    OneMessage (userData text) ↔ text.length ≤ 70 ∨ ∀ c ∈ text, ¬ Strange c := by
  have hpoints := utf8Points_flatMap text
  rw [flatMap_utf8_of_plain h] at hpoints
  by_cases hs : ∀ c ∈ text, ¬ Strange c
  · have hrgsm : ∀ c ∈ text, (rgsm c.toNat).isSome := fun c hc => rgsm_of_plain (h c hc) (hs c hc)
    have henc : gsm7Encodable (text.map toNat) := by
      simp only [gsm7Encodable, all_map, all_eq_true]
      exact fun c hc => by simp [hrgsm c hc]
    have hsept : ((text.map toNat).flatMap septetsOf).length = text.length := by
      rw [length_flatMap, map_map, map_congr_left (g := fun _ => 1), map_const', sum_replicate]
      · simp
      · intro c hc
        obtain ⟨s, hs⟩ := Option.isSome_iff_exists.1 (hrgsm c hc)
        simp [septetsOf, hs]
    refine iff_of_true ?_ (.inr hs)
    simp [userData, hpoints, henc, OneMessage, hsept, hlen]
  · have henc : ¬ gsm7Encodable (text.map toNat) := by
      intro hall
      push Not at hs
      obtain ⟨c, hc, hstrange⟩ := hs
      have := all_eq_true.1 hall c.toNat (mem_map_of_mem hc)
      rcases hstrange with rfl | rfl <;> exact absurd this (by decide)
    simp only [userData, hpoints, henc, OneMessage, hs, or_false]
    simp
    omega

/-- **A forwarded text is one message**, exactly when it is not a text of plain ASCII that is cut to
more than 70 characters with a grave accent or a DEL among them: of such a text the cutter leaves up
to 160 characters, and the encoder takes two octets for each. -/
theorem forwarded_fits_iff (text : List Char) :
    OneMessage (userData (oneSms (text.flatMap Unicode.utf8))) ↔
      ((∀ c ∈ text, plainByte c) → text.length ≤ 70 ∨
        ∀ c ∈ text.take (if 160 < text.length then 157 else 160), ¬ Strange c) := by
  by_cases hplain : ∀ c ∈ text, plainByte c
  · rw [imp_iff_right hplain, flatMap_utf8_of_plain hplain, oneSms, if_pos (all_eq_true.2 hplain)]
    split
    · next hlong =>
      have hdots : ∀ c ∈ dots, plainByte c ∧ ¬ Strange c := by
        intro c hc
        obtain rfl : c = '.' := by simpa [dots] using hc
        decide
      have hlen : (text.take 157 ++ dots).length = 160 := by
        rw [length_append, length_take, Nat.min_eq_left (by omega)]
        rfl
      rw [oneMessage_plain_iff _ hlen.le, or_iff_right (by omega), or_iff_right (by omega),
        forall_mem_append]
      · exact and_iff_left fun c hc => (hdots c hc).2
      · exact forall_mem_append.2
          ⟨fun c hc => hplain c (mem_of_mem_take hc), fun c hc => (hdots c hc).1⟩
    · next hshort =>
      rw [oneMessage_plain_iff hplain (by omega), take_of_length_le (by omega)]
  · refine iff_of_true ?_ fun hall => absurd hall hplain
    obtain ⟨short, hcut, hunits⟩ := exists_cut text (by
      intro hall
      refine hplain fun c hc => ?_
      obtain ⟨b, rest, hb, -⟩ := utf8_shape c
      have hmem := all_eq_true.1 hall b (mem_flatMap.2 ⟨c, hc, by simp [hb]⟩)
      have hlt : b.toNat < 128 := by simp_all [plainByte]
      rwa [Unicode.eq_of_mem_utf8 (c := c) hlt (by simp [hb])] at hmem)
    rw [hcut]
    exact oneMessage_of_units hunits

/-- 71 grave accents: 142 octets of user data. -/
theorem graves_not_one_message :
    ¬ OneMessage (userData (oneSms ((replicate 71 (ofNat 96)).flatMap Unicode.utf8))) := by
  decide +kernel

end Mu300.Sms
