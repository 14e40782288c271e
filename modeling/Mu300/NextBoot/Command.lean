import Mu300.BootControl
import Mu300.Lib.Shell

/-!
# mu300-next-boot

`/opt/mu300/bin/mu300-next-boot`: what the next boots are, kept in four places that do
not change together — the block in `misc`, the `default-boot` file, and `boot-attempts`
and `boot-lock` in the `.mu300` directory of the Linux disk.

A failed write leaves its target as it was. `misc` can also fail without saying so; the
script reads it back.
-/

namespace Mu300.NextBoot

open Bytes BootControl Shell

/-! ## State -/

/-- The `.mu300` directory of the Linux disk. -/
structure Disk where
  bootAttempts : Option Text
  bootLock : Bool
  bootTries : Option Text

/-- What the script reads and changes. -/
structure World where
  misc : Misc
  /-- `CONF`, the default boot -/
  conf : Option Text
  /-- `none` when `disk_dir` finds no directory -/
  disk : Option Disk

/-- What the initramfs published in `RUN`, and the slot of the command line. -/
structure Runtime where
  linuxSlotFile : Option Text
  cmdlineSlot : Option Slot
  bcAndroid : Option Block
  bcLinuxTrial : Option Block
  /-- the names of an older initramfs, which knew Linux on b only -/
  bcSlotA : Option Block
  bcSlotBTrial : Option Block

/-- How a write of `misc` can fail: `dd` says so, or only the read back does. -/
inductive MiscFault : Type where
  | none | reported | silent
  deriving DecidableEq

/-- Which writes of one command fail. -/
structure Faults where
  /-- another command holds the lock until the wait is over -/
  busy : Bool
  temp : Bool
  attempts : Bool
  lock : Bool
  tries : Bool
  misc : MiscFault
  conf : Bool
  /-- the write that puts `misc` back -/
  undo : Bool

def Faults.none : Faults := ⟨false, false, false, false, false, .none, false, false⟩

/-- The commands that change something. -/
inductive Command : Type where
  | linux
  | android
  | attempts (n : Text)
  | lock
  | unlock
  | trial
  | rearm

/-- How a command ends; its texts are left out. -/
inductive Exit : Type where
  | done
  | busy
  | pairMismatch (linuxSlot : Slot)
  | noBlock
  | miscWrite
  | miscVerify
  | confPutBack
  | confNotPutBack
  | noDisk
  | badAttempts
  | degraded (linuxSlot : Slot) (attempts : ℕ)
  | notLocked
  | notLinux
  /-- `set -e`: a plain command of the script failed -/
  | errexit
  deriving DecidableEq

namespace Exit

/-- The command ended because a write of `misc` or of the default boot failed. -/
def WriteFailed (e : Exit) : Prop :=
  e = miscWrite ∨ e = miscVerify ∨ e = confPutBack ∨ e = confNotPutBack

instance (e : Exit) : Decidable e.WriteFailed := inferInstanceAs (Decidable (_ ∨ _))

end Exit

/-! ## Reading -/

/-- `suffix_of`: the first two bytes of a block. -/
def suffixOf (b : Block) : List UInt8 := slice b.1 0 2

/-- `_$slot`, as bytes. -/
def suffix (s : Slot) : List UInt8 := [95, s.byte]

namespace Runtime

variable (r : Runtime)

/-- `LINUX_SLOT`: the file, or the slot the trial block names, or the command line's. -/
def linuxSlot : Slot :=
  match r.linuxSlotFile.map captured with
  | some ['a'] => .a
  | some ['b'] => .b
  | _ =>
    match r.bcLinuxTrial.map suffixOf with
    | some s => if s = suffix .a then .a else if s = suffix .b then .b else r.cmdlineSlot.getD .b
    | none => r.cmdlineSlot.getD .b

/-- `BC_A`, Android's block. -/
def bcA : Option Block := if r.linuxSlot = .b then r.bcAndroid <|> r.bcSlotA else r.bcAndroid

/-- `BC_B`, the initramfs' own block for Linux, with two tries. -/
def bcB : Option Block :=
  if r.linuxSlot = .b then r.bcLinuxTrial <|> r.bcSlotBTrial else r.bcLinuxTrial

/-- `pair_ok`: a block that is there names the slot it is used for. -/
def pairOk : Prop :=
  (∀ b ∈ r.bcB, suffixOf b = suffix r.linuxSlot) ∧
    ∀ b ∈ r.bcA, suffixOf b = suffix r.linuxSlot.other

instance : Decidable r.pairOk := inferInstanceAs (Decidable (_ ∧ _))

end Runtime

/-- `[1-6]`. -/
def attemptsDigit : Text → Option ℕ
  | ['1'] => some 1
  | ['2'] => some 2
  | ['3'] => some 3
  | ['4'] => some 4
  | ['5'] => some 5
  | ['6'] => some 6
  | _ => none

namespace World

variable (w : World)

/-- `attempts`: what `boot-attempts` says, or 5. -/
def attempts : ℕ :=
  ((w.disk.bind Disk.bootAttempts).bind fun t => attemptsDigit (captured t)).getD 5

def lockWanted : Bool := (w.disk.map Disk.bootLock).getD false

/-- `[ "$(cat "$CONF")" = linux ]`. -/
def defaultLinux : Bool := (w.conf.map captured).getD [] = "linux"

end World

/-! ## Writing -/

/-- `make_bc_b`: the block with other tries, and its CRC. -/
def makeBcB (s : Slot) (b : Block) (t succ : ℕ) : Block :=
  ⟨withCrc (slice b.1 0 s.infoPos ++ leBytes 1 (infoByte t succ) ++
      slice b.1 (s.infoPos + 1) (27 - s.infoPos)), by
    apply length_withCrc
    have hb := b.2
    rw [List.length_append, List.length_append, length_leBytes, length_slice_of_le,
      length_slice_of_le] <;> cases s <;> simp only [Slot.infoPos] <;> omega⟩

/-- `set_conf`: the file whole, or as it was. -/
def setConf (word : Text) (f : Faults) (w : World) : Option World :=
  if f.conf then none else some { w with conf := some (line word) }

/-- The end of `write_bc`, with `misc` written and read back: the default boot that goes
with it, or the previous block again. -/
def commitConf (pending : Option Text) (prev : Block) (f : Faults) (w : World) : Exit × World :=
  match pending with
  | none => (.done, w)
  | some word =>
    match setConf word f w with
    | some w' => (.done, w')
    | none =>
      if f.undo then (.confNotPutBack, w) else (.confPutBack, { w with misc := w.misc.put prev })

/-- `write_bc`: the block into `misc`, read back, then `PENDING_CONF`. -/
def writeBc (block : Option Block) (pending : Option Text) (f : Faults) (w : World) :
    Exit × World :=
  match block with
  | none => (.noBlock, w)
  | some b =>
    let prev := w.misc.block
    match f.misc with
    | .reported => (.miscWrite, w)
    | .silent => if prev = b then commitConf pending prev f w else (.miscVerify, w)
    | .none => commitConf pending prev f { w with misc := w.misc.put b }

/-- `clear_boot_tries`; `none` when the file cannot be written. -/
def clearBootTries (f : Faults) (w : World) : Option World :=
  match w.disk with
  | none => some w
  | some d =>
    if f.tries then none else some { w with disk := some { d with bootTries := some ['0', '\n'] } }

/-- The part of `arm_linux` behind the new count. `strict` is `set -e` at the call: in an
`&&` list nothing but an `exit` ends the script. -/
def armBlock (r : Runtime) (strict : Bool) (n : ℕ) (succ : Bool)
    (pending : Option Text) (f : Faults) (w : World) : Exit × World :=
  match r.bcB with
  | none => (if f.temp && strict then .errexit else .noBlock, w)
  | some b =>
    if makeBcB r.linuxSlot b 2 0 ≠ b then
      -- a degraded arm: the initramfs' own block goes in, and the command fails
      match writeBc (some b) pending f w with
      | (.done, w') => (if succ then .notLocked else .degraded r.linuxSlot n, w')
      | (e, w') => (e, w')
    else if f.temp then (if strict then .errexit else .noBlock, w)
    else writeBc (some (makeBcB r.linuxSlot b (n + 1) succ.toNat)) pending f w

/-- `arm_linux [trial]`. -/
def armLinux (r : Runtime) (strict trial : Bool) (pending : Option Text) (f : Faults) (w : World) :
    Exit × World :=
  let n := w.attempts
  let succ := w.lockWanted && !trial
  match clearBootTries f w with
  | some w' => armBlock r strict n succ pending f w'
  | none => if strict then (.errexit, w) else armBlock r strict n succ pending f w

/-- `attempts N`: the new number, saved. -/
def saveAttempts (n : Text) (f : Faults) (w : World) : World :=
  if f.attempts then w
  else { w with disk := w.disk.map fun d => { d with bootAttempts := some (line n) } }

/-- `lock` and `unlock`: the `boot-lock` file, made or removed. -/
def saveLock (on : Bool) (f : Faults) (w : World) : World :=
  if f.lock then w else { w with disk := w.disk.map fun d => { d with bootLock := on } }

/-- The command's case, behind the lock and `pair_ok`. -/
def command (r : Runtime) (f : Faults) (w : World) : Command → Exit × World
  | .linux => armLinux r true false (some "linux") f w
  | .android => writeBc r.bcA (some "android") f w
  | .attempts n =>
    if n = [] then (.done, w)
    else if attemptsDigit n = none then (.badAttempts, w)
    else if w.disk.isNone then (.noDisk, w)
    else if (saveAttempts n f w).defaultLinux then armLinux r false false none f
      (saveAttempts n f w)
    else (.done, saveAttempts n f w)
  | .lock =>
    if w.disk.isNone then (.noDisk, w)
    else armLinux r true false (some "linux") f (saveLock true f w)
  | .unlock =>
    if (saveLock false f w).defaultLinux then armLinux r true false none f (saveLock false f w)
    else (.done, saveLock false f w)
  | .trial => if w.defaultLinux then armLinux r true true none f w else (.notLinux, w)
  | .rearm =>
    match clearBootTries f w with
    | none => (.errexit, w)
    | some w' => if w'.defaultLinux then armLinux r false false none f w' else (.done, w')

/-- `mu300-next-boot`. -/
def run (r : Runtime) (cmd : Command) (f : Faults) (w : World) : Exit × World :=
  if f.busy then (.busy, w)
  else if ¬ r.pairOk then (.pairMismatch r.linuxSlot, w)
  else command r f w cmd

end Mu300.NextBoot
