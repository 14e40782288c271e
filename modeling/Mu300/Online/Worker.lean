import Mu300.Lib.Bytes
import Mu300.Lib.Crash

/-!
# The online shrink worker

`tools/f2fs-online/mu300-f2fs-online.c`, the `start` command: Android's mounted
userdata is shrunk in place by the kernel, then the smaller partition table is
written, backup copy first.
-/

namespace Mu300.Online

open Bytes Crash Crash.Prog

/-- The bytes of a file, a device or a region of one. -/
abbrev Buf := List UInt8

/-! ## The F2FS superblocks -/

/-- `le32(p)`, with `p` as a position of the buffer. -/
def le32 (raw : Buf) (p : ℕ) : ℕ := leNat (slice raw p 4)

def le64 (raw : Buf) (p : ℕ) : ℕ := le32 raw p + le32 raw (p + 4) * 2 ^ 32

structure Geometry where
  blocks : ℕ
  sectionBlocks : ℕ
  uuid : Buf
  deriving DecidableEq

/-- `F2FS_SUPER_MAGIC`, also the first word of a superblock. -/
def f2fsMagic : ℕ := 0xf2f52010

/-- `decode`: the geometry, from two superblocks that agree. -/
def decode (raw : Buf) : Option Geometry :=
  let a := 1024
  let b := 5120
  if le32 raw a ≠ f2fsMagic ∨ le32 raw b ≠ f2fsMagic ∨ slice raw a 3072 ≠ slice raw b 3072 ∨
    le32 raw (a + 16) ≠ 12 ∨
      le32 raw (a + 20) ≠ 9 ∨ le32 raw (a + 24) = 0 ∨ 65536 < le32 raw (a + 24) then none
  else
    let g : Geometry := {
      blocks := le64 raw (a + 36)
      sectionBlocks := 512 * le32 raw (a + 24)
      uuid := slice raw (a + 108) 16 }
    if g.blocks = 0 ∨ g.blocks % g.sectionBlocks ≠ 0 then none else some g

/-- The UUID as the worker prints it: two hexadecimal digits a byte. -/
def hexUuid (uuid : Buf) : List Char :=
  uuid.flatMap fun b => [Nat.digitChar (b.toNat / 16), Nat.digitChar (b.toNat % 16)]

/-! ## Inputs -/

def uint64Max : ℕ := 2 ^ 64 - 1

/-- The number a string of digits spells. -/
def digitsNat (s : List Char) : ℕ := s.foldl (fun n d => 10 * n + (d.toNat - '0'.toNat)) 0

/-- `parse_count`: a positive decimal number without a leading zero whose count of
4096-byte blocks still fits 64 bits. -/
def parseCount (s : List Char) : Option ℕ :=
  if s = [] ∨ s.head? = some '0' then none
  else if ¬ s.all Char.isDigit then none
  else
    let n := digitsNat s
    if n = 0 ∨ uint64Max / 4096 < n then none else some n

def validateTarget (g : Geometry) (expected target used : ℕ) : Bool :=
  ¬ (expected ≠ g.blocks ∨ target = 0 ∨ expected ≤ target ∨ target % g.sectionBlocks ≠ 0 ∨
    uint64Max / 4096 < target ∨ uint64Max - 2 ^ 30 < used ∨ target * 4096 ≤ used + 2 ^ 30)

/-- The stages at which the command ends before it has a worker (`failure`). -/
inductive Stage : Type where
  | arguments | values | lock | directory | gptInputs | identity | staleState | target | fork
  deriving DecidableEq

/-- What a receipt says the worker is at. -/
inductive Phase : Type where
  | shrinking | unchanged | committing | complete | recovery | failed
  deriving DecidableEq

inductive Exit : Type where
  /-- refused at a stage, with `failure` -/
  | failure : Stage → Exit
  /-- the worker has no log to write to -/
  | noLog : Exit
  /-- the worker's last receipt -/
  | ended : Phase → Exit
  deriving DecidableEq

/-- The numbers and strings of the command line. -/
structure Values where
  expected : ℕ
  target : ℕ
  tail : ℕ
  diskBytes : ℕ
  uuid : List Char
  deriving DecidableEq

/-- Where the work directory has to be. -/
def workDirStart : List Char := "/dev/mu300-online-".toList

/-- The command line: `start MOUNT DECRYPTED OLD TARGET DISK TAIL_BYTE DISK_BYTES UUID WORK`. -/
def workerValues (argv : List (List Char)) : Except Exit Values :=
  match argv with
  | [_, _, _, _, old, target, _, tail, diskBytes, uuid, work] =>
    match parseCount old, parseCount target, parseCount tail, parseCount diskBytes with
    | some expected, some target, some tail, some diskBytes =>
      if uuid.length ≠ 32 ∨ work.take 18 ≠ workDirStart then .error (.failure .values)
      else .ok { expected, target, tail, diskBytes, uuid }
    | _, _, _, _ => .error (.failure .values)
  | _ => .error (.failure .arguments)

/-- The four images in the work directory, as far as they are regular files. -/
structure Files where
  oldFirst : Option Buf
  oldLast : Option Buf
  newFirst : Option Buf
  newLast : Option Buf
  deriving DecidableEq

/-- The sizes `load_image` takes. -/
def checkImage (file : Option Buf) : Option Buf :=
  file.filter fun p => ¬ (p.length < 512 ∨ 2 * 2 ^ 20 < p.length ∨ p.length % 512 ≠ 0)

/-- What the worker goes by once it has accepted its inputs: images of equal sizes, the
last one at the end of the disk and the first one before it. -/
structure Inputs : Type extends Values where
  oldFirst : Buf
  oldLast : Buf
  newFirst : Buf
  newLast : Buf
  first_length : oldFirst.length = newFirst.length
  last_length : oldLast.length = newLast.length
  ends : tail + oldLast.length = diskBytes
  apart : oldFirst.length < tail
  deriving DecidableEq

def inputs? (v : Values) : Option Buf → Option Buf → Option Buf → Option Buf → Option Inputs
  | some oldFirst, some oldLast, some newFirst, some newLast =>
    if h : oldFirst.length = newFirst.length ∧ oldLast.length = newLast.length ∧
        v.tail < v.diskBytes ∧ v.tail + oldLast.length = v.diskBytes ∧ oldFirst.length < v.tail then
      some {
        v with
        oldFirst, oldLast, newFirst, newLast
        first_length := h.1
        last_length := h.2.1
        ends := h.2.2.2.1
        apart := h.2.2.2.2 }
    else none
  | _, _, _, _ => none

/-- The inputs a command line and a work directory amount to, if they are acceptable. -/
def workerInputs (argv : List (List Char)) (dir : Files) : Option Inputs :=
  match workerValues argv with
  | .error _ => none
  | .ok v => inputs? v (checkImage dir.oldFirst) (checkImage dir.oldLast)
      (checkImage dir.newFirst) (checkImage dir.newLast)

/-! ## The world and its answers -/

/-- The status file: phase and error number (its process number is left out). -/
structure Receipt where
  phase : Phase
  error : ℕ
  deriving DecidableEq

/-- What the worker reads and changes. -/
structure World where
  /-- the whole disk, without the blocks of the mounted F2FS -/
  disk : Buf
  /-- the first 8192 bytes of the F2FS -/
  raw : Buf
  /-- the file `status` of the work directory -/
  status : Option Receipt
  deriving DecidableEq

/-- `statvfs` of the mount. -/
structure Volume where
  readOnly : Bool
  frsize : ℕ
  blocks : ℕ
  bfree : ℕ
  deriving DecidableEq

/-- What opening the mount and the two devices and asking about them gives. -/
structure Facts where
  /-- all opened, and every `fstat` and `fstatfs` came through -/
  opened : Bool
  rawIsBlock : Bool
  diskIsBlock : Bool
  sameDevice : Bool
  fsType : ℕ
  volume : Option Volume
  /-- `BLKGETSIZE64` of the disk comes through -/
  diskSized : Bool
  mappedBytes : Option ℕ
  deriving DecidableEq

/-- How one system call turns out. -/
structure Answer where
  /-- what it returns: success or not -/
  ok : Bool
  /-- whether the change it is for took place, whatever it returns -/
  took : Bool
  errno : ℕ
  /-- the superblocks the kernel leaves if the resize took place -/
  raw : Buf
  facts : Facts
  deriving DecidableEq

/-! ## System calls -/

/-- A call that only succeeds or fails. -/
def call : Prog Answer World Bool := look fun e _ => e.ok

def loadImage (file : Option Buf) : Prog Answer World (Option Buf) :=
  look fun e _ => if e.ok then checkImage file else none

/-- `syncfs`: the error number when it fails. -/
def syncfs : Prog Answer World (Option ℕ) := look fun e _ => if e.ok then none else some e.errno

/-- `!syncfs(mount_fd)`. -/
def synced : Prog Answer World Bool := do return (← syncfs).isNone

def eio : ℕ := 5

def einval : ℕ := 22

/-- `read_geometry`: the error number when the read fails or the superblocks do not decode. -/
def readGeometry : Prog Answer World (Except ℕ Geometry) :=
  look fun e w =>
    if e.ok then
      match decode w.raw with
      | none => .error einval
      | some g => .ok g
    else .error e.errno

/-- `matches`: the image is what the disk holds there (0 when the read fails). -/
def matches? (image : Buf) (pos : ℕ) : Prog Answer World Bool :=
  look fun e w => e.ok && slice w.disk pos image.length = image

/-- The write of `commit_image`: whole or not at all, and what it returns is another matter. -/
def pwrite (image : Buf) (pos : ℕ) : Prog Answer World Bool :=
  op (fun e w => if e.took then { w with disk := poke w.disk pos image } else w) fun e _ => e.ok

/-- `commit_image`: written, synced, read back. -/
def commitImage (image : Buf) (pos : ℕ) : Prog Answer World Bool := do
  if ¬ (← pwrite image pos) then return false
  if ¬ (← call) then return false
  matches? image pos

/-- `receipt`: the status file is replaced whole, or stays when that fails. -/
def receipt (phase : Phase) (error : ℕ) : Prog Answer World Unit :=
  op (fun e w => if e.ok then { w with status := some ⟨phase, error⟩ } else w) fun _ _ => ()

def finish (phase : Phase) (error : ℕ) : Prog Answer World Exit := do
  receipt phase error
  return .ended phase

/-- The resize ioctl: the superblocks afterwards are the kernel's, and its return code
says nothing certain about them. -/
def resizeFs : Prog Answer World (Bool × ℕ) :=
  op (fun e w => if e.took then { w with raw := e.raw } else w) fun e _ => (e.ok, e.errno)

/-! ## The command -/

variable (inp : Inputs)

/-- The checks up to `worker-identity`: the geometry and the volume when they all pass. -/
def identity : Prog Answer World (Option (Geometry × Volume)) :=
  look fun e w =>
    match e.facts.volume, e.facts.mappedBytes, if e.ok then decode w.raw else none with
    | some volume, some mapped, some g =>
      if e.facts.opened = false ∨ e.facts.rawIsBlock = false ∨ e.facts.diskIsBlock = false ∨
          e.facts.sameDevice = false ∨ e.facts.fsType ≠ f2fsMagic ∨ volume.readOnly ∨
          e.facts.diskSized = false ∨ w.disk.length ≠ inp.diskBytes ∨ mapped / 4096 < g.blocks ∨
          inp.expected ≤ inp.target ∨ inp.target % g.sectionBlocks ≠ 0 then none
      else some (g, volume)
    | _, _, _ => none

/-- `a || b` and `a && b` of calls, the second made only when it decides. -/
def either (a b : Prog Answer World Bool) : Prog Answer World Bool := do
  if ← a then return true
  b

@[inherit_doc either]
def both (a b : Prog Answer World Bool) : Prog Answer World Bool := do
  if ¬ (← a) then return false
  b

/-- Both copies are one of the images (`worker-stale-state` if not). -/
def knownTables : Prog Answer World Bool :=
  both (either (matches? inp.oldFirst 0) (matches? inp.newFirst 0))
    (either (matches? inp.oldLast inp.tail) (matches? inp.newLast inp.tail))

/-- The used bytes of the volume leave room in the target. -/
def roomFor (g : Geometry) (v : Volume) : Bool :=
  ¬ (v.frsize = 0 ∨ v.blocks < v.bfree ∨ uint64Max / v.frsize < v.blocks - v.bfree) &&
    validateTarget g inp.expected inp.target ((v.blocks - v.bfree) * v.frsize)

/-- A shrink that has not happened yet may start (`worker-target` if not). -/
def mayShrink (g : Geometry) (v : Volume) : Prog Answer World Bool :=
  both (both (matches? inp.oldFirst 0) (matches? inp.oldLast inp.tail)) (pure (roomFor inp g v))

/-- What the worker makes of the resize. Some errors can occur after the change, so the
geometry is read back before deciding. -/
def readBack (rc : Bool) (error : ℕ) : Prog Answer World (Option Exit) := do
  match ← readGeometry with
  | .error error => return some (← finish .recovery error)
  | .ok g =>
    if g.blocks = inp.expected ∧ rc = false then return some (← finish .unchanged error)
    if g.blocks ≠ inp.target then return some (← finish .recovery eio)
    return none

/-- The shrink: `none` when the F2FS is at its target size and the tables may follow. -/
def shrink : Prog Answer World (Option Exit) := do
  receipt .shrinking 0
  if let some error ← syncfs then return some (← finish .failed error)
  let (rc, error) ← resizeFs
  readBack inp rc error

/-- The tables: the backup copy, then the primary, each synced and read back. -/
def commitTables : Prog Answer World Exit := do
  receipt .committing 0
  if ← both synced (both (commitImage inp.newLast inp.tail) (commitImage inp.newFirst 0)) then
    finish .complete 0
  else finish .recovery eio

/-- The worker, once it has its log. -/
def detached (g : Geometry) : Prog Answer World Exit := do
  if g.blocks = inp.expected then
    if let some x ← shrink inp then return x
  commitTables inp

/-- The fork and the log. The parent's own end is not followed: the run goes on in the
worker. -/
def launch (g : Geometry) : Prog Answer World Exit := do
  if ¬ (← call) then return .failure .fork
  if ¬ (← call) then return .noLog
  detached inp g

/-- The command from the opening of the devices on. -/
def body : Prog Answer World Exit := do
  match ← identity inp with
  | none => return .failure .identity
  | some (g, volume) =>
    if hexUuid g.uuid ≠ inp.uuid ∨ (g.blocks ≠ inp.expected ∧ g.blocks ≠ inp.target) then
      return .failure .staleState
    if ¬ (← knownTables inp) then return .failure .staleState
    if g.blocks = inp.expected then
      if ← mayShrink inp g volume then launch inp g else return .failure .target
    else launch inp g

/-- The four images, loaded and checked. -/
def loadInputs (v : Values) (dir : Files) : Prog Answer World (Option Inputs) := do
  let oldFirst ← loadImage dir.oldFirst
  let oldLast ← loadImage dir.oldLast
  let newFirst ← loadImage dir.newFirst
  let newLast ← loadImage dir.newLast
  return inputs? v oldFirst oldLast newFirst newLast

/-- `worker_command`. -/
def worker (argv : List (List Char)) (dir : Files) : Prog Answer World Exit :=
  match workerValues argv with
  | .error x => pure x
  | .ok v => do
    if ¬ (← call) then return .failure .lock
    if ¬ (← call) then return .failure .directory
    match ← loadInputs v dir with
    | none => return .failure .gptInputs
    | some inp => body inp

end Mu300.Online
