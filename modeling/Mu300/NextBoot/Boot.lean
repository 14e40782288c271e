import Mu300.NextBoot.Blocks

/-!
# Boots

What happens between a reset and a system that is up: the bootloader picks a slot by the
block in `misc` and counts down the tries of one that has not been good yet; the
initramfs of the Linux slot counts the boot once more, in `boot-tries` on the Linux disk.

* `boot`, `boots` — one reset, and several in a row none of which gets to `--rearm`.
-/

namespace Mu300.NextBoot

open Bytes BootControl Shell

/-! ## The bootloader -/

inductive System : Type where
  | linux | android
  deriving DecidableEq

/-- A bootloader that keeps to what is documented of LK, for Linux on slot `s`. -/
structure Bootloader (s : Slot) where
  start : Misc → System × Misc
  /-- a successful slot is booted unchanged -/
  keep : ∀ m : Misc, Valid m.block.1 → priority (info m.block.1 s) = 15 →
    successful (info m.block.1 s) → start m = (.linux, m)
  /-- tries 1 without a success is a boot that failed -/
  fallback : ∀ m : Misc, Valid m.block.1 → ¬ successful (info m.block.1 s) →
    tries (info m.block.1 s) = 1 → (start m).1 = .android
  /-- more tries: one less, in a block that is good again -/
  countDown : ∀ m : Misc, Valid m.block.1 → priority (info m.block.1 s) = 15 →
    ¬ successful (info m.block.1 s) → 1 < tries (info m.block.1 s) →
    (start m).1 = .linux ∧ Valid (start m).2.block.1 ∧ info (start m).2.block.1 s =
      info m.block.1 s - 16

/-! ## Numbers of the shell -/

/-- A number as `$(( ))` keeps it, in 64 bits. -/
def wrap (x : ℤ) : ℤ := x.bmod (2 ^ 64)

/-- A string of digits in `$(( ))`: octal behind a leading zero, the largest number when
it is too long, and `none` for the syntax error of an octal 8 or 9. -/
def shNumber (ds : Text) : Option ℤ :=
  let digit : Char → ℕ := fun ch => ch.toNat - '0'.toNat
  let value (base : ℕ) : ℤ := wrap (min (ds.foldl (fun n ch => n * base + digit ch) 0) (2 ^ 64 - 1))
  if ds.head? = some '0' then if ds.all fun ch => digit ch < 8 then some (value 8) else none
  else some (value 10)

/-- `echo "$n"`. -/
def echo (n : ℤ) : Text :=
  line (if n < 0 then '-' :: Nat.toDigits 10 n.natAbs else Nat.toDigits 10 n.natAbs)

/-- The count in `boot-tries`: nothing and anything but digits is 0. -/
def readTries (file : Option Text) : Option ℤ :=
  let tries := captured (file.getD ['0'])
  if tries = [] ∨ ¬ tries.all Char.isDigit then some 0 else shNumber tries

/-! ## The initramfs -/

/-- `lk_tries`: the tries LK left, of a slot that has not been good. -/
def lkTries (s : Slot) (m : Misc) : Option ℕ :=
  let v := info m.block.1 s
  if slice m.block.1 4 4 ≠ magic ∨ successful v then none else some (tries v)

def lkLocked (s : Slot) (m : Misc) : Prop :=
  slice m.block.1 4 4 = magic ∧ successful (info m.block.1 s)

instance (s : Slot) (m : Misc) : Decidable (lkLocked s m) := inferInstanceAs (Decidable (_ ∧ _))

/-- How `boot_tries_exceeded` counts a boot. -/
inductive Count : Type where
  /-- not in default-Linux mode, or locked -/
  | skipped
  /-- the shell stops at the arithmetic -/
  | died
  | tries (n : ℤ)

/-- The count of this boot, before it is written. -/
def bootTries (s : Slot) (w : World) : Count :=
  if ¬ w.defaultLinux then .skipped
  else if lkLocked s w.misc ∧ w.lockWanted then .skipped
  else
    match readTries (w.disk.bind Disk.bootTries) with
    | none => .died
    | some n =>
      let n := wrap (n + 1)
      -- LK has acted on a count this high, and the slot was armed again from Android
      .tries (if (w.attempts : ℤ) < n ∧ lkTries s w.misc = some 1 then 1 else n)

/-- `mkdir -p .mu300` and `boot-tries` in it. -/
def World.putTries (w : World) (t : Text) : World :=
  { w with disk := some { w.disk.getD ⟨none, false, none⟩ with bootTries := some t } }

/-- `restore_android`, with the initramfs' block for Android's slot. -/
def World.restoreAndroid (w : World) (android : Block) : World :=
  { w with misc := w.misc.put android }

/-- How far a boot gets that does not get to `mu300-boot-ok`. -/
inductive Ending : Type where
  /-- it is over before the count -/
  | early
  /-- it finds no system to start -/
  | noRoot
  /-- power is cut in the write of the count, which leaves so much of it, or behind it -/
  | cut (k : ℕ)
  /-- it goes on to the system -/
  | up

inductive Started : Type where
  | linux
  | android
  /-- Linux, and the count in `boot-tries` sent it to Android -/
  | sentBack
  | died
  deriving DecidableEq

/-- The initramfs of the Linux slot, with LK's block as it finds it. -/
def initramfs (s : Slot) (android : Block) (e : Ending) (w : World) : Started × World :=
  match e with
  | .early => (.linux, w)
  | .noRoot => (.linux, if lkLocked s w.misc then w else w.restoreAndroid android)
  | .cut k =>
    match bootTries s w with
    | .skipped => (.linux, w)
    | .died => (.died, w)
    | .tries n => (.linux, w.putTries ((echo n).take k))
  | .up =>
    match bootTries s w with
    | .skipped => (.linux, if w.defaultLinux then w else w.restoreAndroid android)
    | .died => (.died, w)
    | .tries n =>
      if (w.attempts : ℤ) < n then (.sentBack, (w.putTries (echo 0)).restoreAndroid android)
      else (.linux, w.putTries (echo n))

def boot {s : Slot} (lk : Bootloader s) (android : Block) (e : Ending) (w : World) :
    Started × World :=
  match lk.start w.misc with
  | (.android, m) => (.android, { w with misc := m })
  | (.linux, m) => initramfs s android e { w with misc := m }

def boots {s : Slot} (lk : Bootloader s) (android : Block) :
    List Ending → World → List Started × World
  | [], w => ([], w)
  | e :: es, w =>
    let (x, w) := boot lk android e w
    let (xs, w) := boots lk android es w
    (x :: xs, w)

end Mu300.NextBoot
