import Mu300.BootControl
import Mu300.Lib.Crash
import Mu300.Lib.Refuse

/-!
# The boot chain of the Linux slot

`tools/android-bootchain.sh`: the five images the bootloader loads per slot, copied
from the slot Android runs from to the slot Linux boots from.

SHA-256 is a parameter. Reads are exact.
-/

namespace Mu300.BootChain

open Bytes Crash Crash.Prog Refuse Function

/-- The content of a partition or a file. -/
abbrev Buf := List UInt8

/-- The name of a partition or of a link to one. -/
abbrev Name := List Char

/-- A partition, whatever it is called. -/
abbrev Dev := ℕ

/-! ## Names -/

/-- `${_p}_$slot`. -/
def slotted (p : Name) (s : Slot) : Name := p ++ ['_', s.char]

def bootchainParts : List Name :=
  ["uboot".toList, "sml".toList, "teecfg".toList, "trustos".toList, "vbmeta".toList]

/-- The shell pattern `*pat*`. -/
def contains (s pat : List Char) : Bool := s.tails.any pat.isPrefixOf

/-- `bc_allowed`: a name of the chain, and none that could be something else's. -/
def bcAllowed (p : Name) : Bool :=
  let parts := (bootchainParts.map (' ' :: ·)).flatten ++ [' ']
  contains parts (' ' :: p ++ [' ']) &&
    !(contains p "nv".toList || contains p "cali".toList || contains p "modem".toList ||
      contains p "phy".toList ||
      ["prodnv", "miscdata", "persist", "isedata", "ztecfg", "ztepersist", "boot", "init_boot",
        "vendor_boot", "super", "userdata", "misc", "metadata", "pm_sys"].any (·.toList = p))

/-! ## The device -/

/-- The links in `BC_BY`. Only the two slots of one name may turn out to be one partition;
the script looks for that itself. -/
structure ByName where
  link : Name → Option Dev
  apart : ∀ {n m : Name} {d : Dev}, link n = some d → link m = some d →
    n = m ∨ ∃ p, (n = slotted p .a ∧ m = slotted p .b) ∨ (n = slotted p .b ∧ m = slotted p .a)

/-- What the script reads and changes. -/
structure World where
  content : Dev → Buf
  /-- the images in the backup directory -/
  files : Name → Option Buf
  /-- the partitions written so far -/
  written : List Dev

/-- The partition `d` written, and holding `x` now. -/
def World.put (w : World) (d : Dev) (x : Buf) : World :=
  { w with content := update w.content d x, written := w.written ++ [d] }

theorem World.put_content_self (w : World) (d : Dev) (x : Buf) : (w.put d x).content d = x :=
  update_self ..

theorem World.put_content_of_ne (w : World) {d d' : Dev} (x : Buf) (h : d' ≠ d) :
    (w.put d x).content d' = w.content d' := update_of_ne h ..

/-- The properties the script asks Android for. -/
structure Props where
  model : List Char
  device : List Char
  platform : List Char
  slotSuffix : List Char

/-- Who runs the script, and where. -/
structure Caller where
  /-- `MU300_SKIP_ROOT_CHECK` is set -/
  skipRootCheck : Bool
  root : Bool
  /-- `none` where there is no `getprop` -/
  props : Option Props

structure Answer where
  /-- what it returns -/
  ok : Bool
  /-- what a write leaves in place of what it was to write -/
  left : Option Buf
  /-- what `getprop ro.boot.slot_suffix` says now -/
  slotSuffix : List Char

/-! ## Refusals and results -/

/-- The reasons to stop before anything is written, with what their texts show. -/
inductive Refusal : Type where
  | needsRoot
  | notAndroid
  | notUms9620
  | notDevice (m : List Char)
  | unknownSlot
  | noByName
  | runningLinux (s : Slot)
  | noControlBlock
  | notGood (s : Slot)
  | otherNext (s : Slot)
  | notInChain (p : Name)
  | missing (p : Name)
  | samePartition (p : Name)
  | sizes (p : Name) (sa sl : ℕ)
  | unreadable (p : Name)
  | noDirectory
  | noSums
  | backupMismatch (p : Name) (s : Slot)
  | slotChanged
  deriving DecidableEq

/-- How `bc_sync` ends. -/
inductive Ret : Type where
  | identical
  | copied (names : List Name)
  | refused (r : Refusal)
  /-- a copy did not verify, and the Linux slot was restored -/
  | restored (p : Name)
  /-- a copy did not verify, and these could not be restored -/
  | unrestored (p : Name) (bad : List Name)
  deriving DecidableEq

def Ret.code : Ret → ℕ
  | identical | copied _ => 0
  | refused _ | restored _ => 1
  | unrestored _ _ => 2

/-! ## The checks -/

section Checks

variable {H : Type} [DecidableEq H] (sha : Buf → H) (by_ : ByName) (w : World)

/-- The bytes `bc_hex` shows of a link, none when there is no such file. -/
def bcHex (n : Name) (off k : ℕ) : Buf :=
  match by_.link n with
  | none => []
  | some d => slice (w.content d) off k

/-- `bc_sha` of a partition, empty when there is no such file. -/
def bcSha (n : Name) : Option H := (by_.link n).map fun d => sha (w.content d)

/-- `BC_LINUX_CMDLINE`: `loglevel=5` and a zero byte, at offset 44 of every Linux boot image. -/
def linuxCmdline : Buf := [0x6c, 0x6f, 0x67, 0x6c, 0x65, 0x76, 0x65, 0x6c, 0x3d, 0x35, 0]

def bcIsLinuxImage (n : Name) : Bool := bcHex by_ w n 44 11 = linuxCmdline

/-- The devices the script is for. -/
def checkDevice (props : Props) : Except Refusal Unit :=
  let m := props.model ++ " / ".toList ++ props.device
  if ["U30Air", "U30_Air", "U30 Air", "MU300", "F50", "mu300"].any (contains m ·.toList) then .ok ()
  else if m = "V50 / MU3351".toList then
    refuse (props.platform ≠ "ums9620".toList) .notUms9620
  else .error (.notDevice m)

/-- The running slot and the other one, by `ro.boot.slot_suffix`. -/
def slots (suffix : List Char) : Option (Slot × Slot) :=
  if suffix = "_a".toList then some (.a, .b)
  else if suffix = "_b".toList then some (.b, .a)
  else none

/-- `bc_setup`: `BC_A` and `BC_L`, or a refusal. -/
def bcSetup (caller : Caller) : Except Refusal (Slot × Slot) := do
  refuse (¬ caller.skipRootCheck ∧ ¬ caller.root) .needsRoot
  match caller.props with
  | none => .error .notAndroid
  | some props =>
    checkDevice props
    match slots props.slotSuffix with
    | none => .error .unknownSlot
    | some (bcA, bcL) =>
      let boot := "boot".toList
      refuse ((by_.link "misc".toList).isNone ∨ (by_.link (slotted boot .a)).isNone ∨
        (by_.link (slotted boot .b)).isNone) .noByName
      refuse (bcIsLinuxImage by_ w (slotted boot bcA)) (.runningLinux bcA)
      let bc := bcHex by_ w "misc".toList 2048 32
      refuse (bc.length ≠ 32 ∨ slice bc 4 4 ≠ [0x42, 0x43, 0x41, 0x42]) .noControlBlock
      let meta' (s : Slot) : ℕ := leNat (slice bc (if s = .a then 12 else 14) 1)
      let am := meta' bcA
      let lm := meta' bcL
      refuse (¬ (am.land 128 = 128 ∧ 0 < am.land 15)) (.notGood bcA)
      refuse (am.land 15 < lm.land 15 ∧ ¬ bcIsLinuxImage by_ w (slotted boot bcL)) (.otherNext bcL)
      return (bcA, bcL)

/-- One image that differs: its name and the two hashes, `BC_HA` and `BC_HL`. -/
structure Diff (H : Type) where
  part : Name
  ha : H
  hl : H

/-- One round of `bc_scan`: the pair is there, is two partitions of one size, and is
recorded when its hashes differ. -/
def scanPart (bcA bcL : Slot) (p : Name) : Except Refusal (Option (Diff H)) := do
  refuse (¬ bcAllowed p) (.notInChain p)
  match by_.link (slotted p bcA), by_.link (slotted p bcL) with
  | some da, some dl =>
    refuse (da = dl) (.samePartition p)
    let sa := (w.content da).length
    let sl := (w.content dl).length
    refuse (sa = 0 ∨ sa ≠ sl) (.sizes p sa sl)
    match bcSha sha by_ w (slotted p bcA), bcSha sha by_ w (slotted p bcL) with
    | some ha, some hl => return if ha = hl then none else some ⟨p, ha, hl⟩
    | _, _ => .error (.unreadable p)
  | _, _ => .error (.missing p)

/-- `bc_scan`: the images that differ, in the order of the chain. -/
def bcScan (bcA bcL : Slot) : List Name → Except Refusal (List (Diff H))
  | [] => .ok []
  | p :: ps => do
    let d ← scanPart sha by_ w bcA bcL p
    let ds ← bcScan bcA bcL ps
    return d.toList ++ ds

end Checks

/-! ## The copy -/

section Copy

variable {H : Type} [DecidableEq H] (sha : Buf → H) (by_ : ByName) (bcA bcL : Slot)

/-- A command of which only success or failure matters. -/
def call : Prog Answer World Bool := look fun e _ => e.ok

/-- `$_dir/${_p}_$_sl.img`. -/
def imageName (p : Name) (s : Slot) : Name := slotted p s ++ ".img".toList

/-- `bc_put NAME IMAGE`: only ever a name of the chain and only ever the Linux slot. The
write leaves the image, or anything, and returns what it likes. -/
def bcPut (p image : Name) : Prog Answer World Bool :=
  if ¬ bcAllowed p ∨ bcL = bcA ∨ by_.link (slotted p bcL) = by_.link (slotted p bcA) then
    return false
  else match by_.link (slotted p bcL) with
    | none => return false
    | some d =>
      op (fun e w => match w.files image with
          | none => w
          | some img => w.put d (e.left.getD img))
        fun e w => e.ok && (w.files image).isSome

/-- `bc_put ... && [ "$(bc_sha ...)" = h ]`. -/
def putVerified (p image : Name) (h : H) : Prog Answer World Bool := do
  if ← bcPut by_ bcA bcL p image then
    look fun _ w => bcSha sha by_ w (slotted p bcL) = some h
  else return false

/-- The backup of one image, and whether it matches. -/
def backupOne (p : Name) (s : Slot) (h : H) : Prog Answer World Bool := do
  op (fun e w => {
      w with
      files := update w.files (imageName p s)
        (if e.ok then (by_.link (slotted p s)).map fun d => e.left.getD (w.content d)
        else w.files (imageName p s)) })
    fun _ _ => ()
  look fun _ w => (w.files (imageName p s)).map sha = some h

/-- The backup loop: both slots' copies of every image that differs. -/
def backupAll : List (Diff H) → Prog Answer World (Option Refusal)
  | [] => return none
  | d :: ds => do
    if ← backupOne sha by_ d.part bcL d.hl then
      if ← backupOne sha by_ d.part bcA d.ha then backupAll ds
      else return some (.backupMismatch d.part bcA)
    else return some (.backupMismatch d.part bcL)

/-- The restore loop: the names that could not be put back. -/
def restore : List (Diff H) → Prog Answer World (List Name)
  | [] => return []
  | q :: qs => do
    let ok ← putVerified sha by_ bcA bcL q.part (imageName q.part bcL) q.hl
    let bad ← restore qs
    return if ok then bad else q.part :: bad

/-- The copy loop, with the images it has touched so far. -/
def copyAll (names : List Name) (done : List (Diff H)) : List (Diff H) → Prog Answer World Ret
  | [] => return .copied names
  | d :: ds => do
    if ← putVerified sha by_ bcA bcL d.part (imageName d.part bcA) d.ha then
      copyAll names (done ++ [d]) ds
    else
      -- the Linux slot gets back everything it held, each image read back again
      match ← restore sha by_ bcA bcL (done ++ [d]) with
      | [] => return .restored d.part
      | bad => return .unrestored d.part bad

/-- From the backup on, with something to copy. -/
def copyChain (diffs : List (Diff H)) : Prog Answer World Ret := do
  if ← call then
    if ← call then
      match ← backupAll sha by_ bcA bcL diffs with
      | some r => return .refused r
      | none =>
        -- still Android on the slot it was on at the start
        if (← look fun e _ => e.slotSuffix) = ['_', bcA.char] then
          copyAll sha by_ bcA bcL (diffs.map Diff.part) [] diffs
        else return .refused .slotChanged
    else return .refused .noSums
  else return .refused .noDirectory

end Copy

/-- The checks of `bc_sync`: the slots and the images that differ. -/
def plan {H : Type} [DecidableEq H] (sha : Buf → H) (by_ : ByName) (caller : Caller) (w : World) :
    Except Refusal (Slot × Slot × List (Diff H)) := do
  let (bcA, bcL) ← bcSetup by_ w caller
  let diffs ← bcScan sha by_ w bcA bcL bootchainParts
  return (bcA, bcL, diffs)

def bcSync {H : Type} [DecidableEq H] (sha : Buf → H) (by_ : ByName) (caller : Caller) :
    Prog Answer World Ret := do
  match ← look fun _ w => plan sha by_ caller w with
  | .error r => return .refused r
  | .ok (_, _, []) => return .identical
  | .ok (bcA, bcL, diffs) => copyChain sha by_ bcA bcL diffs

end Mu300.BootChain
