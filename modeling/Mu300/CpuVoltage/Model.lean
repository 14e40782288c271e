import Mu300.CpuVoltage.History
import Mu300.Lib.Crash

/-!
# The CPU voltage offset

The files in `.mu300` that carry an offset from one boot to the next, and the two programs
that write them: `cpu_voltage_boot` in `boot/init`, and `mu300-cpu voltage` in the system.

* `State` — the files, and the history of the device beside them.

The kernel has the offset, and does with a value what it likes. No write fails.
-/

namespace Mu300.CpuVoltage

open Shell Crash Crash.Prog

/-! ## Values -/

/-- `set -- $1` with IFS a comma: a comma at the end makes no further field. -/
def commaFields (t : Text) : List Text :=
  let fs := t.splitOn ','
  if fs.getLast? = some [] then fs.dropLast else fs

/-- The digits behind the sign, `${_cv#-}`. -/
def unsigned (f : Text) : Text :=
  match f with
  | '-' :: ds => ds
  | ds => ds

def fieldValue (f : Text) : ℤ :=
  let n : ℕ := (unsigned f).foldl (fun n ch => n * 10 + (ch.toNat - '0'.toNat)) 0
  if f.head? = some '-' then -n else n

/-- One field of `cpuv_valid`: digits, plainly written, in range and in whole steps. -/
def fieldValid (f : Text) : Bool :=
  let ds := unsigned f
  ds ≠ [] && ds.all Char.isDigit && !(ds.head? = some '0' && 1 < ds.length) && ds.length ≤ 6 &&
    f ≠ ['-', '0'] && -25000 ≤ fieldValue f && fieldValue f ≤ 12500 && (fieldValue f).tmod 3125 = 0

def cpuvValid (t : Text) : Bool :=
  t ≠ [] && t.all (fun ch => ch.isDigit || ch = ',' || ch = '-') && (commaFields t).length = 3 &&
    (commaFields t).all fieldValid

/-- `tr -s`: one of several commas in a row. -/
def squeeze : Text → Text
  | ',' :: ',' :: t => squeeze (',' :: t)
  | ch :: t => ch :: squeeze t
  | [] => []

/-- `cpuv_norm`: blanks for commas, none at the ends. -/
def cpuvNorm (t : Text) : Text :=
  let t := squeeze (t.map fun ch => if ch = ' ' || ch = '\t' then ',' else ch)
  let t := if t.head? = some ',' then t.drop 1 else t
  if t.getLast? = some ',' then t.dropLast else t

/-! ## State -/

inductive File : Type where
  /-- `cpu-voltage` -/
  | request
  | trial
  | good
  | armed
  | keepGood
  | rejected
  deriving DecidableEq

/-- The marks on the disk, and the history. -/
structure State where
  files : File → Option Text
  log : Log

namespace State

def put (s : State) (f : File) (t : Option Text) : State :=
  { s with files := Function.update s.files f t }

def note (s : State) (e : Event) : State := { s with log := e :: s.log }

variable (s : State)

@[simp] theorem put_log (f : File) (t : Option Text) : (s.put f t).log = s.log := rfl

@[simp] theorem note_files (e : Event) : (s.note e).files = s.files := rfl

@[simp] theorem note_log (e : Event) : (s.note e).log = e :: s.log := rfl

@[simp] theorem put_files (f g : File) (t : Option Text) :
    (s.put f t).files g = if g = f then t else s.files g := Function.update_apply ..

end State

/-- `$(head -n1 FILE)`. -/
def head (file : Option Text) : Text := (file.getD []).takeWhile (· ≠ '\n')

/-- `$(sed -n 2p FILE)`. -/
def second (file : Option Text) : Text :=
  (((file.getD []).dropWhile (· ≠ '\n')).drop 1).takeWhile (· ≠ '\n')

/-- `cpuv_head`, which drops carriage returns. -/
def cpuvHead (file : Option Text) : Text := (head file).filter (· ≠ '\r')

/-- The word `up`. -/
def up : Text := ['u', 'p']

/-- `_req`: the request, and nothing is `0,0,0`. -/
def req (s : State) : Text := if head (s.files .request) = [] then zero else head (s.files .request)

/-- What the kernel does with a value. -/
inductive Kernel : Type where
  /-- DVFS runs with it within five seconds -/
  | applied
  /-- not taken: the driver still waits for a value -/
  | refused
  /-- DVFS failed with it, or took longer -/
  | failed

structure Reply where
  /-- how much of a text is on the disk while it is written -/
  torn : ℕ
  kernel : Kernel
  /-- `cpuv_firmware_known` -/
  firmware : Bool
  /-- what `voltage_offset_uv` reads -/
  shown : Text

/-- `echo TEXT > FILE`: the file is there with a part of its text, then with all of it. -/
def echoTo (f : File) (t : Text) : Prog Reply State Unit := do
  op (fun e s => s.put f (some ((line t).take e.torn))) fun _ _ => ()
  act fun s => s.put f (some (line t))

/-- `rm -f FILE`. -/
def rm (f : File) : Prog Reply State Unit := act fun s => s.put f none

/-! ## boot/init -/

/-- `cpuv_reject`: the mark of the boot goes last. -/
def cpuvReject (v reason : Text) : Prog Reply State Unit := do
  echoTo .rejected (v ++ ' ' :: reason)
  echoTo .request zero
  rm .trial
  rm .good
  act fun s => (s.put .armed none).note .rejected

def hand (v : Text) : Prog Reply State Unit := act fun s => s.note (.handed v)

/-- keep-good: the boot that ended was up its ten minutes with the good value. -/
def keeps (s : State) : Prop :=
  (s.files .armed).isSome ∧ head (s.files .keepGood) = ['1'] ∧ second (s.files .armed) = up ∧
    head (s.files .armed) = req s ∧ head (s.files .good) = req s ∧ cpuvValid (req s)

instance (s : State) : Decidable (keeps s) := inferInstanceAs (Decidable (_ ∧ _))

/-- `_want`: the request, when it is good or gets its trial; anything else is `0,0,0`. -/
def chooseValue (q : Text) : Prog Reply State Text := do
  if ← test fun s => (s.files .armed).isSome then
    let v ← look fun _ s => head (s.files .armed)
    cpuvReject v "unclean-end"
    return zero
  else if q = zero then
    rm .trial
    rm .good
    return zero
  else if ¬ cpuvValid q then
    cpuvReject q "invalid"
    return zero
  else if ¬ (← look fun e _ => e.firmware) then
    cpuvReject q "unknown-firmware"
    return zero
  else if ← test fun s => head (s.files .good) = q then return q
  else if ← test fun s => head (s.files .trial) = q then
    cpuvReject q "no-good-mark"
    return zero
  else
    echoTo .trial q
    return q

/-- The mark of this boot, on the disk before the kernel has the value. -/
def armBoot (v : Text) : Prog Reply State Text := do
  echoTo .armed v
  if ← test fun s => head (s.files .armed) = v then return v
  else
    rm .armed
    return zero

/-- The offset goes to the kernel, and is taken back when it does not run with it. -/
def handOffset (v : Text) : Prog Reply State Unit := do
  hand v
  match ← look fun e _ => e.kernel with
  | .applied => return ()
  | .refused =>
    cpuvReject v "kernel-refused"
    hand zero
  | .failed => cpuvReject v "kernel-failed"

def cpuVoltageBoot : Prog Reply State Unit := do
  let q ← look fun _ s => req s
  if ← test keeps then rm .armed
  let v ← chooseValue q
  if v = zero then hand zero
  else
    let v ← armBoot v
    if v = zero then hand zero else handOffset v

/-! ## mu300-cpu voltage -/

/-- `voltage_write`: the request by a rename, and no mark for it. -/
def voltageWrite (v : Text) : Prog Reply State Unit := do
  act fun s => (s.put .request (some (line v))).note (.requested v)
  rm .trial
  rm .good
  rm .rejected

/-- `voltage set VALUE`; `checks` is what it asks of the kernel, the firmware and the user. -/
def voltageSet (value : Text) (checks : Bool) : Prog Reply State Unit :=
  let v := cpuvNorm value
  if ¬ cpuvValid v then return ()
  else if v = zero then voltageWrite zero
  else if checks then voltageWrite v
  else return ()

/-- `voltage mark-good`. -/
def voltageMarkGood : Prog Reply State Unit := do
  let a ← look fun _ s => cpuvHead (s.files .armed)
  if a = [] then return ()
  else if (← look fun e _ => e.shown) ≠ a then return ()
  else if ¬ (← look fun _ s => bootUp s.log) then return ()
  else
    if ← test fun s => cpuvHead (s.files .good) ≠ a then
      echoTo .good a
      rm .trial
    if ← test fun s => second (s.files .armed) = up then return ()
    else act fun s => s.put .armed (some (line a ++ line up))

/-- `voltage keep-good on|off`. -/
def voltageKeepGood (on : Bool) : Prog Reply State Unit :=
  if on then echoTo .keepGood ['1'] else rm .keepGood

/-- `voltage shutdown`. -/
def voltageShutdown : Prog Reply State Unit := do
  if ← test fun s => (s.files .armed).isSome then rm .armed

inductive Command : Type where
  | set (value : Text) (checks : Bool)
  | off
  | markGood
  | keepGood (on : Bool)

def Command.prog : Command → Prog Reply State Unit
  | set value checks => voltageSet value checks
  | off => voltageWrite zero
  | markGood => voltageMarkGood
  | keepGood on => voltageKeepGood on

/-! ## The device -/

/-- keep-good is on, and the boot was up ten minutes with the requested, good value. -/
def kept (s : State) : Bool :=
  head (s.files .keepGood) = ['1'] && bootUp s.log && bootHanded (lastRequest s.log) s.log &&
    head (s.files .good) = lastRequest s.log

def State.cut (s : State) : State := s.note (.cut (kept s))

structure Device where
  on : Bool
  state : State

/-- A device behind a program that may have been cut off. -/
def Device.after : Outcome State Unit → Device
  | .done _ s => ⟨true, s⟩
  | .cut s => ⟨false, s.cut⟩

def Device.afterShutdown : Outcome State Unit → Device
  | .done _ s => ⟨false, s.note .shutdown⟩
  | .cut s => ⟨false, s.cut⟩

/-- A device nothing has happened to. -/
def Device.new : Device := ⟨false, ⟨fun _ => none, []⟩⟩

/-- What can be done to a device, with the world's answers to the steps of a program; one
with too few answers is cut off behind the last of them. -/
inductive Action : Type where
  | boot (es : List Reply)
  | command (cmd : Command) (es : List Reply)
  | tenMinutes
  | cut
  | shutdown (es : List Reply)

/-- One action; what a device cannot do, on or off as it is, does nothing. -/
def Device.step : Device → Action → Device
  | ⟨false, s⟩, .boot es => .after (exec cpuVoltageBoot es (s.note .booted))
  | ⟨true, s⟩, .command cmd es => .after (exec cmd.prog es s)
  | ⟨true, s⟩, .tenMinutes => ⟨true, s.note .tenMinutes⟩
  | ⟨true, s⟩, .cut => ⟨false, s.cut⟩
  | ⟨true, s⟩, .shutdown es => .afterShutdown (exec voltageShutdown es s)
  | d, _ => d

/-- A device behind any sequence of boots, commands, shutdowns and power cuts. -/
def Device.run (actions : List Action) : Device := actions.foldl Device.step Device.new

end Mu300.CpuVoltage
