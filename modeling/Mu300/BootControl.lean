import Mu300.Lib.Bytes
import Mu300.Lib.Crc32

/-!
# The bootloader_control block

The 32 bytes at offset 2048 of `misc` that LK, the initramfs, `mu300-next-boot` and
Android's switch all read or write: the slot suffix, a magic word, one byte of
priority, tries and success per slot, and a CRC-32 over the first 28 bytes.

* `Block` — 32 bytes; `patch` writes into it, `reseal` puts its CRC right.
* `priority`, `tries`, `successful` — the fields of a slot's byte, as a number.
-/

namespace Mu300

open Bytes Crc32

inductive Slot : Type where
  | a | b
  deriving DecidableEq

namespace Slot

def char : Slot → Char
  | a => 'a'
  | b => 'b'

/-- The slot's letter as a byte of the block. -/
def byte : Slot → UInt8
  | a => 97
  | b => 98

def other : Slot → Slot
  | a => b
  | b => a

/-- Where the slot's byte is in the block. -/
def infoPos : Slot → ℕ
  | a => 12
  | b => 14

theorem char_inj {s t : Slot} (h : s.char = t.char) : s = t := by
  revert h
  cases s <;> cases t <;> decide

end Slot

namespace BootControl

/-! ## Blocks -/

abbrev Block := { b : List UInt8 // b.length = 32 }

/-- The magic word, `BCAB`. -/
def magic : List UInt8 := [0x42, 0x43, 0x41, 0x42]

def priority (v : ℕ) : ℕ := v &&& 15

def tries (v : ℕ) : ℕ := (v >>> 4) &&& 7

def successful (v : ℕ) : Prop := v &&& 128 ≠ 0

instance (v : ℕ) : Decidable (successful v) := inferInstanceAs (Decidable (_ ≠ _))

/-- The byte of a slot with priority 15, as the scripts compute it. -/
def infoByte (t s : ℕ) : ℕ := 0x0f ||| (t <<< 4) ||| (s <<< 7)

section

variable {t s : ℕ} (ht : t < 8) (hs : s < 2)

include ht hs

theorem infoByte_lt : infoByte t s < 256 := by
  have h : ∀ t < 8, ∀ s < 2, infoByte t s < 256 := by decide
  exact h t ht s hs

theorem tries_infoByte : tries (infoByte t s) = t := by
  have h : ∀ t < 8, ∀ s < 2, tries (infoByte t s) = t := by decide
  exact h t ht s hs

theorem successful_infoByte : successful (infoByte t s) ↔ s = 1 := by
  have h : ∀ t < 8, ∀ s < 2, (successful (infoByte t s) ↔ s = 1) := by decide
  exact h t ht s hs

theorem priority_infoByte : priority (infoByte t s) = 15 := by
  have h : ∀ t < 8, ∀ s < 2, priority (infoByte t s) = 15 := by decide
  exact h t ht s hs

end

def info (b : List UInt8) (s : Slot) : ℕ := leNat (slice b s.infoPos 1)

/-- 28 bytes with their CRC behind them. -/
def withCrc (body : List UInt8) : List UInt8 := body ++ leBytes 4 (crc32 body).toNat

theorem length_withCrc {body : List UInt8} (h : body.length = 28) : (withCrc body).length = 32 := by
  rw [withCrc, List.length_append, h, length_leBytes]

/-- A block LK takes: the magic word, and the CRC of the rest. -/
@[mk_iff]
structure Valid (b : List UInt8) : Prop where
  magic : slice b 4 4 = magic
  crc : withCrc (slice b 0 28) = b

instance (b : List UInt8) : Decidable (Valid b) := decidable_of_iff _ (valid_iff b).symm

/-- A block with some of its bytes replaced. -/
def patch (b : Block) (off : ℕ) (w : List UInt8) (h : off + w.length ≤ 32) : Block :=
  ⟨poke b.1 off w, by rw [length_poke (by rw [b.2]; exact h), b.2]⟩

variable {w : List UInt8}

theorem slice_patch_self (b : Block) {off n : ℕ} (h : off + w.length ≤ 32)
    (hn : w.length = n) : slice (patch b off w h).1 off n = w :=
  slice_poke_self hn (by rw [b.2, ← hn]; exact h)

theorem slice_patch_apart (b : Block) {off o n : ℕ} (h : off + w.length ≤ 32)
    (hon : o + n ≤ off ∨ off + w.length ≤ o) : slice (patch b off w h).1 o n = slice b.1 o n :=
  slice_poke_apart (by rw [b.2]; exact h) hon

theorem patch_slice_self {b : Block} {off n : ℕ} (h : off + w.length ≤ 32)
    (hn : w.length = n) (hw : slice b.1 off n = w) : patch b off w h = b := by
  subst hn
  have hself : poke b.1 off (slice b.1 off w.length) = b.1 := poke_slice_self (by rw [b.2]; exact h)
  rw [hw] at hself
  exact Subtype.ext hself

/-- A block with the CRC of what is in front of it. -/
def reseal (b : Block) : Block :=
  ⟨withCrc (slice b.1 0 28), length_withCrc (length_slice_of_le (by rw [b.2]; omega))⟩

theorem slice_reseal (b : Block) {off n : ℕ} (hn : off + n ≤ 28) :
    slice (reseal b).1 off n = slice b.1 off n := by
  have hbody : (slice b.1 0 28).length = 28 := length_slice_of_le (by rw [b.2]; omega)
  have hcrc : slice (withCrc (slice b.1 0 28)) off n = slice (slice b.1 0 28) off n := by
    apply slice_congr
    intro i _ hi
    rw [withCrc, List.getElem?_append_left (by omega)]
  rw [reseal, hcrc, slice_slice (by omega), Nat.zero_add]

theorem valid_reseal {b : Block} (h : slice b.1 4 4 = magic) : Valid (reseal b).1 where
  magic := by rw [slice_reseal b (by omega), h]
  crc := by rw [slice_reseal b (by omega), reseal]

@[simp] theorem reseal_reseal (b : Block) : reseal (reseal b) = reseal b :=
  Subtype.ext (congrArg withCrc (slice_reseal b (by omega)))

/-! ## misc -/

/-- Where the block is in `misc`. -/
def blockPos : ℕ := 2048

/-- The `misc` partition: long enough for its block. -/
abbrev Misc := { m : List UInt8 // blockPos + 32 ≤ m.length }

namespace Misc

/-- The block in `misc`. -/
def block (m : Misc) : Block := ⟨slice m.1 blockPos 32, length_slice_of_le m.2⟩

/-- `misc` with another block. -/
def put (m : Misc) (b : Block) : Misc :=
  ⟨poke m.1 blockPos b.1, by
    rw [length_poke (by rw [b.2]; exact m.2)]
    exact m.2⟩

variable (m : Misc)

@[simp] theorem block_put (b : Block) : (m.put b).block = b :=
  Subtype.ext (slice_poke_self b.2 m.2)

@[simp] theorem put_put (b d : Block) : (m.put b).put d = m.put d :=
  Subtype.ext (poke_poke_self (by rw [b.2]; exact m.2) (b.2.trans d.2.symm))

@[simp] theorem put_block : m.put m.block = m := Subtype.ext (poke_slice_self m.2)

/-- Zeros up to the end of the block. -/
def blank : Misc := ⟨List.replicate 2080 0, by rw [List.length_replicate, blockPos]⟩

end Misc

end BootControl

end Mu300
