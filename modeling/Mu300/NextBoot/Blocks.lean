import Mu300.NextBoot.Command

/-!
# Who makes the blocks

Three programs make boot control blocks besides the bootloader: `build-boot-image.py`
puts four of them in the initramfs, which publishes the pair of its slot;
`mu300-next-boot` changes the tries of the published one; Android's `switch.sh` rewrites
the live one.
-/

namespace Mu300.NextBoot

open Bytes BootControl Shell

/-! ## mu300-next-boot -/

variable (s : Slot)

theorem makeBcB_eq (b : Block) (t succ : ℕ) :
    makeBcB s b t succ = reseal (patch b s.infoPos (leBytes 1 (infoByte t succ))
      (by rw [length_leBytes]; cases s <;> decide)) := by
  have hb := b.2
  apply Subtype.ext
  apply congrArg withCrc
  cases s <;>
    simp [slice, patch, poke, Slot.infoPos, List.take_append, List.take_take, leBytes, hb]

theorem infoPos_fits (v : ℕ) : s.infoPos + (leBytes 1 v).length ≤ 32 := by
  rw [length_leBytes]
  cases s <;> decide

theorem valid_makeBcB {s : Slot} {b : Block} (h : slice b.1 4 4 = magic) (t succ : ℕ) :
    Valid (makeBcB s b t succ).1 := by
  rw [makeBcB_eq]
  apply valid_reseal
  rw [slice_patch_apart b (infoPos_fits s _) (by cases s <;> exact .inl (by decide)), h]

theorem info_makeBcB (b : Block) {t succ : ℕ} (ht : t < 8) (hs : succ < 2) :
    info (makeBcB s b t succ).1 s = infoByte t succ := by
  rw [makeBcB_eq, info, slice_reseal _ (by cases s <;> decide),
    slice_patch_self b (infoPos_fits s _) (length_leBytes _ _)]
  exact leNat_leBytes (infoByte_lt ht hs)

/-! ## build-boot-image.py -/

/-- A live block with both slots' bytes and some of its suffix rewritten: `with_slots` in
`build-boot-image.py` writes all of the suffix, the awk in `switch.sh` only the letter. -/
def relabel (b : Block) (off : ℕ) (w : List UInt8) (h : off + w.length ≤ 4) (am bm : UInt8) :
    Block :=
  reseal (patch (patch (patch b off w (by omega)) 12 [am] (by simp)) 14 [bm] (by simp))

/-- `with_slots(suffix, a, b)`. -/
def withSlots (bc : Block) (s : Slot) (am bm : UInt8) : Block :=
  relabel bc 0 [95, s.byte, 0, 0] (by simp) am bm

/-- The four blocks in the initramfs: Android on a or b, and Linux on trial on the other. -/
structure Images where
  androidA : Block
  linuxBTrial : Block
  androidB : Block
  linuxATrial : Block

namespace Images

/-- `misc-bc-slot-$slot.bin`. -/
def android (i : Images) : Slot → Block
  | .a => i.androidA
  | .b => i.androidB

/-- `misc-bc-slot-$slot-trial.bin`. -/
def trial (i : Images) : Slot → Block
  | .a => i.linuxATrial
  | .b => i.linuxBTrial

end Images

/-- The four blocks of a live one. -/
def Images.of (bc : Block) : Images :=
  ⟨withSlots bc .a 0x9f 0x1e, withSlots bc .b 0x9e 0x2f, withSlots bc .b 0x1e 0x9f,
    withSlots bc .a 0x2f 0x9e⟩

/-- `bootloader_control`: the four blocks, from the head of the device's `misc`. -/
def bootloaderControl (miscHead : List UInt8) : Option Images :=
  if h : (slice miscHead blockPos 32).length = 32 ∧ Valid (slice miscHead blockPos 32) then
    some (Images.of ⟨slice miscHead blockPos 32, h.1⟩)
  else none

/-- `publish_slot`: what the initramfs on slot `s` leaves for `mu300-next-boot`. -/
def publishSlot (i : Images) (s : Slot) (cmdline : Option Slot) : Runtime where
  linuxSlotFile := some (line [s.char])
  cmdlineSlot := cmdline
  bcAndroid := some (i.android s.other)
  bcLinuxTrial := some (i.trial s)
  bcSlotA := if s = .b then some i.androidA else none
  bcSlotBTrial := if s = .b then some i.linuxBTrial else none

theorem valid_of_reseal {b : Block} (h : reseal b = b) (hm : slice b.1 4 4 = magic) :
    Valid b.1 := by
  rw [← h]
  exact valid_reseal hm

section Relabel

variable {b : Block} {off : ℕ} {w : List UInt8} (h : off + w.length ≤ 4) (am bm : UInt8)

theorem magic_relabel : slice (relabel b off w h am bm).1 4 4 = slice b.1 4 4 := by
  rw [relabel, slice_reseal _ (by omega), slice_patch_apart _ _ (.inl (by omega)),
    slice_patch_apart _ _ (.inl (by omega)), slice_patch_apart _ _ (.inr h)]

theorem slice_relabel (s : Slot) :
    slice (relabel b off w h am bm).1 s.infoPos 1 = [match s with | .a => am | .b => bm] := by
  cases s with
  | a =>
    rw [relabel, slice_reseal _ (by decide), slice_patch_apart _ _ (.inl (by decide))]
    exact slice_patch_self _ _ rfl
  | b =>
    rw [relabel, slice_reseal _ (by decide)]
    exact slice_patch_self _ _ rfl

@[simp] theorem reseal_relabel : reseal (relabel b off w h am bm) = relabel b off w h am bm :=
  reseal_reseal _

end Relabel

theorem makeBcB_trial (bc : Block) (s : Slot) :
    makeBcB s ((Images.of bc).trial s) 2 0 = (Images.of bc).trial s := by
  have hbyte : slice ((Images.of bc).trial s).1 s.infoPos 1 = leBytes 1 (infoByte 2 0) := by
    cases s <;> exact slice_relabel (by simp) _ _ _
  have hcrc : reseal ((Images.of bc).trial s) = (Images.of bc).trial s := by
    cases s <;> exact reseal_relabel (by simp) _ _
  have hsame := patch_slice_self (infoPos_fits s (infoByte 2 0)) (length_leBytes _ _) hbyte
  rw [makeBcB_eq, hsame, hcrc]

/-- **No arm is degraded** on a system that the initramfs has published its blocks to: the block
that is written has the tries that were asked for, whatever the live block was. -/
theorem armBlock_published (bc : Block) (s : Slot) (cmdline : Option Slot) (strict : Bool) (n : ℕ)
    (succ : Bool) (p : Option Text) (f : Faults) (w : World) :
    armBlock (publishSlot (Images.of bc) s cmdline) strict n succ p f w =
      if f.temp then (if strict then .errexit else .noBlock, w)
      else writeBc (some (makeBcB s ((Images.of bc).trial s) (n + 1) succ.toNat)) p f w := by
  have hslot : (publishSlot (Images.of bc) s cmdline).linuxSlot = s := by cases s <;> rfl
  have hblock : (publishSlot (Images.of bc) s cmdline).bcB = some ((Images.of bc).trial s) := by
    rw [Runtime.bcB, hslot]
    split <;> rfl
  simp only [armBlock, hblock, hslot, makeBcB_trial, ne_eq, not_true_eq_false, if_false]

/-! ## switch.sh -/

/-- The block `mu300-linux` writes from Android, from the live one: Linux on `s` with two
tries, Android good with a lower priority. -/
def switchBlock (s : Slot) (live : Block) : Option Block :=
  if slice live.1 4 4 = magic then
    some (match s with
      | .a => relabel live 1 [Slot.a.byte] (by decide) 47 158
      | .b => relabel live 1 [Slot.b.byte] (by decide) 158 47)
  else none

theorem switchBlock_eq_some {s : Slot} {live b : Block} (h : switchBlock s live = some b) :
    Valid b.1 ∧ info b.1 s = infoByte 2 0 := by
  unfold switchBlock at h
  split at h
  · next hm =>
    cases h
    cases s <;>
      exact ⟨valid_of_reseal (reseal_relabel (by simp) _ _)
        ((magic_relabel (by simp) _ _).trans hm), congrArg leNat (slice_relabel (by simp) _ _ _)⟩
  · cases h

end Mu300.NextBoot
