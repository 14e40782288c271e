import Mathlib.Data.Nat.Bitwise
import Mu300.Lib.Hex
import Mu300.NextBoot.Blocks

/-!
# The block of switch.sh

`switch.sh` makes the block of a trial boot in awk, which has numbers and no bits.
-/

namespace Mu300.NextBoot

open Bytes BootControl Shell Crc32 List UInt8

/-! ## The program -/

/-- The loop of `xor32`: the bits that are left, what they add up to so far, and the value of the
next. -/
def xorBits : ℕ → ℕ → ℕ → ℕ → ℕ → ℕ
  | 0, r, _, _, _ => r
  | n + 1, r, p, a, b => xorBits n (if a % 2 ≠ b % 2 then r + p else r) (p * 2) (a / 2) (b / 2)

def xor32 (a b : ℕ) : ℕ := xorBits 32 0 1 a b

/-- `h2i`, of hexadecimal digits. -/
def h2i (s : Text) : ℕ :=
  s.foldl (fun v ch => v * 16 + "0123456789abcdef".toList.idxOf ch.toLower) 0

def crcBit (c : ℕ) : ℕ := if c % 2 = 1 then xor32 (c / 2) 3988292384 else c / 2

/-- `crc32`. -/
def awkCrc32 (bytes : List ℕ) : ℕ :=
  xor32 (bytes.foldl (fun c b => crcBit^[8] (xor32 c b)) 4294967295) 4294967295

/-- The numbers of a text, two digits each. -/
def bytesOf : Text → List ℕ
  | x :: y :: t => h2i [x, y] :: bytesOf t
  | _ => []

/-- `sprintf("%02x")`; also what `od` prints. -/
def hex02 (n : ℕ) : Text := (Hex.pad2 n).map Char.toLower

def hexOf (bs : List UInt8) : Text := bs.flatMap fun b => hex02 b.toNat

/-- The program: the block for a suffix and two bytes. -/
def newBlock (suffix : Slot) (am bm : ℕ) (live : Text) : Text :=
  let b := (((bytesOf live).set 1 suffix.byte.toNat).set 12 am).set 14 bm
  let c := awkCrc32 (b.take 28)
  (b.take 28 ++ [c % 256, c / 256 % 256, c / 256 / 256 % 256, c / 256 / 256 / 256 % 256]).flatMap
    hex02

/-- The block for Linux on `s`, and Android good on the other slot. -/
def makeBlock (s : Slot) (live : Text) : Text :=
  match s with
  | .a => newBlock .a 47 158 live
  | .b => newBlock .b 158 47 live

/-! ## Bits by arithmetic -/

theorem xorBits_eq (n r p a b : ℕ) : xorBits n r p a b = r + p * ((a ^^^ b) % 2 ^ n) := by
  induction n generalizing r p a b with
  | zero => simp [xorBits, Nat.mod_one]
  | succ n ih =>
    have hlow : (a ^^^ b) % 2 = if a % 2 ≠ b % 2 then 1 else 0 := by
      rw [Nat.xor_mod_two_eq]
      split <;> omega
    have hsplit : (a ^^^ b) % 2 ^ (n + 1) = (a ^^^ b) % 2 + 2 * ((a / 2 ^^^ b / 2) % 2 ^ n) := by
      rw [Nat.pow_succ', Nat.mod_mul, Nat.xor_div_two]
    rw [xorBits, ih, hsplit, hlow]
    split <;> ring

theorem xor32_eq {a b : ℕ} (ha : a < 2 ^ 32) (hb : b < 2 ^ 32) : xor32 a b = a ^^^ b := by
  rw [xor32, xorBits_eq, Nat.mod_eq_of_lt (Nat.xor_lt_two_pow ha hb)]
  omega

theorem crcBit_eq (c : UInt32) : crcBit c.toNat = (Crc32.bit c).toNat := by
  have hone : c &&& 1 = 1 ↔ c.toNat % 2 = 1 := by
    rw [← UInt32.toNat_inj, UInt32.toNat_and]
    exact .of_eq (congrArg (· = 1) (Nat.and_one_is_mod _))
  have hhalf : (c >>> 1).toNat = c.toNat / 2 := by
    exact Nat.shiftRight_one _
  have hlt := c.toNat_lt
  rw [crcBit, Crc32.bit]
  by_cases h : c.toNat % 2 = 1
  · rw [if_pos h, if_pos (hone.2 h), UInt32.toNat_xor, hhalf, xor32_eq (by omega) (by decide)]
    rfl
  · rw [if_neg h, if_neg (mt hone.1 h), hhalf]

variable (bs : List UInt8)

theorem awkCrc32_eq : awkCrc32 (bs.map UInt8.toNat) = (crc32 bs).toNat := by
  have hbyte : ∀ (c : UInt32) (b : UInt8), crcBit^[8] (xor32 c.toNat b.toNat) =
      (Crc32.byte c b).toNat := by
    intro c b
    have hb := b.toNat_lt
    rw [xor32_eq c.toNat_lt (by omega), ← toNat_toUInt32, ← UInt32.toNat_xor]
    simp only [Function.iterate_succ_apply, Function.iterate_zero_apply, crcBit_eq, Crc32.byte]
  have hfold : ∀ (bs : List UInt8) (c : UInt32),
      (bs.map toNat).foldl (fun c b => crcBit^[8] (xor32 c b)) c.toNat =
      (bs.foldl Crc32.byte c).toNat := by
    intro bs
    induction bs with
    | nil => exact fun c => rfl
    | cons b bs ih => exact fun c => by rw [map_cons, foldl_cons, hbyte, ih, foldl_cons]
  have hall := hfold bs 0xFFFFFFFF
  rw [awkCrc32, show (4294967295 : ℕ) = (0xFFFFFFFF : UInt32).toNat from rfl, hall,
    xor32_eq (UInt32.toNat_lt _) (UInt32.toNat_lt _), crc32, UInt32.toNat_xor]

/-! ## Texts of blocks -/

theorem bytesOf_hexOf : bytesOf (hexOf bs) = bs.map toNat := by
  have hdigit : ∀ d < 16, "0123456789abcdef".toList.idxOf (Hex.digit d).toLower.toLower = d := by
    decide
  induction bs with
  | nil => rfl
  | cons b bs ih =>
    have hb := b.toNat_lt
    rw [hexOf, flatMap_cons, hex02, Hex.pad2_of_lt hb]
    simp only [map_cons, map_nil, cons_append, nil_append, bytesOf, h2i, foldl_cons, foldl_nil,
      hdigit (b.toNat / 16) (by omega), hdigit (b.toNat % 16) (by omega)]
    congr 1
    omega

theorem hexOf_leBytes (c : ℕ) :
    [c % 256, c / 256 % 256, c / 256 / 256 % 256, c / 256 / 256 / 256 % 256] =
      (leBytes 4 c).map toNat := by
  simp [leBytes]

theorem patch_one (b : Block) (off : ℕ) (v : UInt8) (h : off < 32) :
    (patch b off [v] h).1 = b.1.set off v := by
  change poke b.1 off [v] = _
  rw [poke, set_eq_take_append_cons_drop, if_pos (by omega)]
  simp

theorem newBlock_hexOf (s : Slot) (am bm : UInt8) (live : Block) :
    newBlock s am.toNat bm.toNat (hexOf live.1) =
      hexOf (relabel live 1 [s.byte] (by simp) am bm).1 := by
  simp only [newBlock, bytesOf_hexOf, ← map_set, ← map_take, awkCrc32_eq, hexOf_leBytes,
    ← map_append, flatMap_map]
  change _ = hexOf (withCrc (slice _ 0 28))
  rw [patch_one _ _ _ (by decide), patch_one _ _ _ (by decide), patch_one _ _ _ (by decide)]
  rfl

theorem makeBlock_eq {s : Slot} {live b : Block} (h : switchBlock s live = some b) :
    makeBlock s (hexOf live.1) = hexOf b.1 := by
  unfold switchBlock at h
  split at h
  · cases h
    cases s with
    | a => exact newBlock_hexOf .a 47 158 live
    | b => exact newBlock_hexOf .b 158 47 live
  · cases h

theorem withSlots_eq {live : Block} {t : Slot} (h : slice live.1 0 4 = [95, t.byte, 0, 0])
    (s : Slot) (am bm : UInt8) :
    withSlots live s am bm = relabel live 1 [s.byte] (by simp) am bm := by
  have hpatch : patch live 0 [95, s.byte, 0, 0] (by simp) = patch live 1 [s.byte] (by simp) := by
    have hfront : live.1.take 4 = [95, t.byte, 0, 0] := h
    have hlive : live.1 = [95, t.byte, 0, 0] ++ live.1.drop 4 := by rw [← hfront, take_append_drop]
    apply Subtype.ext
    rw [patch_one _ _ _ (by decide), hlive]
    rfl
  rw [withSlots, relabel, relabel, hpatch]

/-- **Android's switch and the image builder** make the same block for a trial boot of Linux on
either slot, from a live block whose suffix is that of a slot; and the CRC of the switch is
CRC-32. -/
theorem trial_blocks_agree (m : Misc) (hvalid : Valid m.block.1) (t : Slot)
    (hsuffix : slice m.block.1 0 4 = [95, t.byte, 0, 0]) :
    (∃ i, bootloaderControl m.1 = some i ∧
      ∀ s, makeBlock s (hexOf m.block.1) = hexOf (i.trial s).1) ∧
      ∀ bs : List UInt8, awkCrc32 (bs.map UInt8.toNat) = (crc32 bs).toNat := by
  refine ⟨⟨.of m.block, ?_, fun s => ?_⟩, awkCrc32_eq⟩
  · rw [bootloaderControl, dif_pos ⟨m.block.2, hvalid⟩]
    rfl
  · have hswitch : switchBlock s m.block = some ((Images.of m.block).trial s) := by
      unfold switchBlock
      rw [if_pos hvalid.magic]
      cases s with
      | a => exact congrArg some (withSlots_eq hsuffix .a _ _).symm
      | b => exact congrArg some (withSlots_eq hsuffix .b _ _).symm
    exact makeBlock_eq hswitch

/-- A `misc` whose block is for slot a. -/
def miscOfA : Misc := Misc.blank.put (reseal ⟨[95, 97, 0, 0] ++ magic ++ replicate 24 0, rfl⟩)

/-- The awk program's blocks for both slots, from a block of slot a. -/
theorem trial_blocks_of_a :
    Valid miscOfA.block.1 ∧ slice miscOfA.block.1 0 4 = [95, Slot.a.byte, 0, 0] ∧
      ∃ i, bootloaderControl miscOfA.1 = some i ∧
        ∀ s, makeBlock s (hexOf miscOfA.block.1) = hexOf (i.trial s).1 := by
  have hvalid : Valid miscOfA.block.1 := by
    rw [miscOfA, Misc.block_put]
    exact valid_reseal rfl
  have hsuffix : slice miscOfA.block.1 0 4 = [95, Slot.a.byte, 0, 0] := by
    rw [miscOfA, Misc.block_put, slice_reseal _ (by decide)]
    rfl
  exact ⟨hvalid, hsuffix, (trial_blocks_agree miscOfA hvalid .a hsuffix).1⟩

end Mu300.NextBoot
