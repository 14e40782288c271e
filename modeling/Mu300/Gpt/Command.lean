import Mu300.Gpt.SetEnd
import Mu300.Lib.Shell

/-!
# The command that resizes the last partition

`main` of `tools/resize-last-partition.py`: the two dumps are read, the table is checked and edited,
and the edited buffers are written to OUT.head and OUT.tail.

* `Around` — how what is outside the tool turns out: the dumps' reading, each line, each of the two
  files.
* `handOver` — the two writes, the table read back, the last line.

The table is read back when both files are written. That check fails for no table whose entries
have room for their fields, in an array apart from the header; but another header passes the first
check as well.
-/

namespace Mu300.Gpt

open Refuse Bytes Crc32 Shell List Function Except

abbrev Files := Text → Option Buf

/-! ## The command line -/

/-- What is to be done: one of the three has to be given. -/
inductive Mode : Type where
  | show
  | endSector (n : ℤ)
  | fill

/-- The command line as argparse leaves it. -/
structure Args where
  dump : Text
  headSectors : ℤ
  tailSectors : ℤ
  diskSectors : ℤ
  sectorSize : Option ℕ
  name : List Char
  mode : Mode
  out : Option Text
  choices : ∀ n ∈ sectorSize, n = 512 ∨ n = 4096

/-- How the command ends with another status than 0. -/
inductive End : Type where
  /-- argparse takes the command line for a wrong one -/
  | arguments
  /-- no comma between two paths -/
  | notTwoPaths
  | unreadable (path : Text)
  /-- the dump is shorter than the sector counts given -/
  | shortDump
  /-- primary header: not a GPT header at 512 or 4096 bytes -/
  | noHeader
  | table (x : Exit)
  | notWholeBlocks (diskSectors : ℤ) (lbs : ℕ)
  /-- no partitions in this table -/
  | noPartitions
  | notLast (last name : List Char)
  | pastUsable (newEnd usableEnd : ℤ)
  | leavesEmpty (newEnd first : ℤ)
  | unprinted
  | unwritten (path : Text)
  deriving DecidableEq

/-- The exit status (1 also for what Python gives 120, output that fails at the very end). -/
def End.status : End → ℕ
  | arguments => 2
  | _ => 1

def detectBlock (head : Buf) : Except End ℕ :=
  if slice head 512 8 = sig then .ok 512
  else if slice head 4096 8 = sig then .ok 4096
  else .error .noHeader

/-- An end of the table's own methods. -/
def asEnd {α : Type} : Except Exit α → Except End α
  | .ok a => .ok a
  | .error x => .error (.table x)

/-- `GPT(head, tail, disk_sectors, lbs)` for any number. No header is at a block before the disk,
so that a negative number ends the tool like 0, with the same checks before it. -/
def gptOf (head tail : Buf) (diskSectors : ℤ) (lbs : ℕ) : Except End Table :=
  if 0 ≤ diskSectors then asEnd (gpt head tail diskSectors.toNat lbs)
  else if diskSectors % (lbs / sector : ℕ) ≠ 0 then .error (.notWholeBlocks diskSectors lbs)
  else asEnd (gpt head tail 0 lbs)

/-- `max(es, key=last)`: of equal ones the first. -/
def lastOf (e : Entry) (es : List Entry) : Entry :=
  es.foldl (fun m e => if m.last < e.last then e else m) e

def Table.findLast (t : Table) : Except End Entry := do
  match ← asEnd t.entries with
  | [] => .error .noPartitions
  | e :: es => return lastOf e es

def Table.usableEnd (t : Table) : ℤ := (t.ph.last + 1) * t.k - 1

/-! ## The run -/

/-- How a write of a whole file turns out. -/
inductive Written : Type where
  | whole
  /-- the file cannot be opened -/
  | refused
  /-- it is opened, and `n` bytes get there; the rest fails with an exception, or, when it was still
  in Python's buffer, without one -/
  | short (n : ℕ) (raises : Bool)

def Written.raises : Written → Bool
  | whole => false
  | refused => true
  | short _ raises => raises

def Written.leaves (w : Written) (fs : Files) (path : Text) (b : Buf) : Files :=
  match w with
  | whole => update fs path (some b)
  | refused => fs
  | short n _ => update fs path (some (b.take n))

structure Around where
  /-- files that are there and cannot be read -/
  hidden : Text → Bool
  /-- the line of the edit is printed -/
  said : Bool
  /-- the last line is printed, and what was printed gets out at the end -/
  finished : Bool
  head : Written
  tail : Written

/-- `open(path, 'rb').read()`. -/
def Around.read (w : Around) (fs : Files) (path : Text) : Except End Buf :=
  if w.hidden path then .error (.unreadable path)
  else match fs path with
    | none => .error (.unreadable path)
    | some b => .ok b

/-- `a.dump.split(',', 1)` into two names. -/
def splitDump (dump : Text) : Except End (Text × Text) :=
  if ',' ∈ dump then .ok (dump.takeWhile (· ≠ ','), (dump.dropWhile (· ≠ ',')).drop 1)
  else .error .notTwoPaths

/-- `a.sector_size or detect_block(head)`. -/
def Args.block (a : Args) (head : Buf) : Except End ℕ :=
  match a.sectorSize with
  | some lbs => .ok lbs
  | none => detectBlock head

/-- `usable_end if a.fill else a.end_sector`; nothing for `--show`. -/
def Args.newEnd (a : Args) (t : Table) : Option ℤ :=
  match a.mode with
  | .show => none
  | .endSector n => some n
  | .fill => some t.usableEnd

/-- The table edited as asked, and its block size: up to the line of the edit. Nothing for
`--show`. -/
def edited (w : Around) (a : Args) (fs : Files) : Except End (Option (Table × ℕ)) := do
  let (headPath, tailPath) ← splitDump a.dump
  let head ← w.read fs headPath
  let tail ← w.read fs tailPath
  refuse ((head.length : ℤ) < a.headSectors * sector ∨ (tail.length : ℤ) < a.tailSectors * sector)
    .shortDump
  let lbs ← a.block head
  let t ← gptOf head tail a.diskSectors lbs
  let last ← t.findLast
  refuse (last.name ≠ a.name) (.notLast last.name a.name)
  match a.newEnd t with
  | none =>
    refuse (w.said = false) .unprinted
    return none
  | some newEnd =>
    refuse (t.usableEnd < newEnd) (.pastUsable newEnd t.usableEnd)
    refuse (newEnd ≤ last.first) (.leavesEmpty newEnd last.first)
    let t ← asEnd (t.setEnd last.index newEnd)
    refuse (w.said = false) .unprinted
    return some (t, lbs)

/-- What is to be written and where; an empty OUT is none. -/
def prepare (w : Around) (a : Args) (fs : Files) : Except End (Option (Text × Table × ℕ)) := do
  match ← edited w a fs, a.out with
  | some (t, lbs), some (ch :: out) => return some (ch :: out, t, lbs)
  | _, _ => return none

def headPath (out : Text) : Text := out ++ ".head"

def tailPath (out : Text) : Text := out ++ ".tail"

/-- The files after the writes that are made. -/
def written (w : Around) (out : Text) (t : Table) (fs : Files) : Files :=
  let fs := w.head.leaves fs (headPath out) t.head
  if w.head.raises then fs else w.tail.leaves fs (tailPath out) t.tail

def handOver (w : Around) (diskSectors : ℤ) (out : Text) (t : Table) (lbs : ℕ) :
    Except End PUnit := do
  refuse (w.head.raises) (.unwritten (headPath out))
  refuse (w.tail.raises) (.unwritten (tailPath out))
  let _ ← gptOf t.head t.tail diskSectors lbs
  refuse (w.finished = false) .unprinted

variable {t : Table} {diskSectors : ℤ} {head : Buf} {lbs : ℕ} {e : Entry}

section

variable {w : Around} {a : Args} {fs : Files} {lbs : ℕ} {out : Text}

end

end Mu300.Gpt
