import Mu300.Lib.Bytes
import Mu300.Lib.Crc32
import Mu300.Lib.Refuse

/-!
# The GPT of a disk dump

`tools/resize-last-partition.py`: the two copies of a GUID partition table, read
from the first and the last blocks of a disk, checked, and edited in place.

* `Table.entries` — the partitions in use, in 512-byte sectors.
* `Table.setEnd` — the edit: the last block of one entry in both arrays, then the
  array CRC and each header's own CRC.

Everything that ends the tool early is an `Exit`.
-/

namespace Mu300.Gpt

open Bytes Crc32 Refuse

abbrev Buf := List UInt8

/-- The unit of every number given and shown. -/
def sector : ℕ := 512

/-- The signature of a header, `EFI PART`. -/
def sig : List UInt8 := [69, 70, 73, 32, 80, 65, 82, 84]

/-- The bytes of a header that are fields (`struct.calcsize` of the format). -/
def headerBytes : ℕ := 92

/-! ## The ways out -/

/-- How the tool ends without a result: its own refusals, and the exception of
`struct` for a place outside its buffer or a number that does not fit its field. Each
carries what its message shows. -/
inductive Exit : Type where
  | notWholeBlocks (diskSectors lbs : ℕ)
  | notGptHeader (what : String) (found : List UInt8)
  | headerCrc (what : String)
  | headersDisagree (field : String) (primary backup : ℕ)
  | misplacedHeaders
  | arrayNotInDump
  | backupArrayNotInDump
  | arrayCrc (what : String)
  | notLastOfBlock (newLast : ℤ) (lbs : ℕ)
  | arraysDiffer
  | structError
  deriving DecidableEq

/-! ## Headers -/

/-- The fields of a header that the tool reads. -/
structure Header where
  sig : List UInt8
  hsize : ℕ
  hcrc : ℕ
  cur : ℕ
  bak : ℕ
  first : ℕ
  last : ℕ
  entriesLba : ℕ
  nents : ℕ
  esize : ℕ
  ecrc : ℕ
  deriving DecidableEq

/-- The little-endian field of `n` bytes at `off`. -/
def field (buf : Buf) (off n : ℕ) : ℕ := leNat (slice buf off n)

/-- The fields of the header at `off`. -/
def headerAt (buf : Buf) (off : ℕ) : Header where
  sig := slice buf off 8
  hsize := field buf (off + 12) 4
  hcrc := field buf (off + 16) 4
  cur := field buf (off + 24) 8
  bak := field buf (off + 32) 8
  first := field buf (off + 40) 8
  last := field buf (off + 48) 8
  entriesLba := field buf (off + 72) 8
  nents := field buf (off + 80) 4
  esize := field buf (off + 84) 4
  ecrc := field buf (off + 88) 4

/-- `_hdr`: the fields at `off` (`struct.unpack_from`). -/
def unpackHeader (buf : Buf) (off : ℕ) : Except Exit Header := do
  refuse (buf.length < off + headerBytes) .structError
  return headerAt buf off

/-- The header's own bytes with its CRC field blanked, as the CRC is taken over them. -/
def blanked (buf : Buf) (off hsize : ℕ) : List UInt8 := poke (slice buf off hsize) 16 [0, 0, 0, 0]

/-- `_check_hdr`: a header with its signature and a CRC that matches. -/
def checkHdr (buf : Buf) (off : ℕ) (what : String) : Except Exit Header := do
  let h ← unpackHeader buf off
  refuse (h.sig ≠ Gpt.sig) (.notGptHeader what h.sig)
  -- blanking the CRC field of a header shorter than that raises
  refuse ((slice buf off h.hsize).length < 20) .structError
  refuse ((crc32 (blanked buf off h.hsize)).toNat ≠ h.hcrc) (.headerCrc what)
  return h

/-! ## The accepted table -/

/-- The attributes of the class `GPT` after `_parse`. -/
structure Table where
  head : Buf
  tail : Buf
  lbs : ℕ
  k : ℕ
  diskSectors : ℕ
  diskLbas : ℕ
  ph : Header
  bhOff : ℕ
  bh : Header
  esize : ℕ
  nents : ℕ
  earrayBytes : ℕ
  pEntriesOff : ℕ
  bEntriesOff : ℕ
  deriving DecidableEq

/-- The loop over the fields both headers must agree about. -/
def checkAgree (name : String) (p b : ℕ) : Except Exit PUnit :=
  refuse (p ≠ b) (.headersDisagree name p b)

/-- The array of one copy against the CRC in its header. -/
def checkArray (buf : Buf) (off n want : ℕ) (what : String) : Except Exit PUnit :=
  refuse ((crc32 (slice buf off n)).toNat ≠ want) (.arrayCrc what)

/-- `GPT(head, tail, disk_sectors, lbs)`: both copies checked, or the tool ends. -/
def gpt (head tail : Buf) (diskSectors lbs : ℕ) : Except Exit Table := do
  let k := lbs / sector
  refuse (diskSectors % k ≠ 0) (.notWholeBlocks diskSectors lbs)
  let diskLbas := diskSectors / k
  let ph ← checkHdr head lbs "primary header"
  -- a tail of less than a block makes the backup header's place negative: whatever
  -- Python reads there, the array's place below is then negative too and ends the tool
  refuse (tail.length < lbs) .backupArrayNotInDump
  let bhOff := tail.length - lbs
  let bh ← checkHdr tail bhOff "backup header"
  checkAgree "first" ph.first bh.first
  checkAgree "last" ph.last bh.last
  checkAgree "nents" ph.nents bh.nents
  checkAgree "esize" ph.esize bh.esize
  refuse (ph.cur ≠ 1 ∨ (bh.cur : ℤ) ≠ diskLbas - 1) .misplacedHeaders
  let earrayBytes := ph.nents * ph.esize
  let pEntriesOff := ph.entriesLba * lbs
  refuse (head.length < pEntriesOff + earrayBytes) .arrayNotInDump
  -- the backup array ends where the backup header begins
  refuse (bhOff < earrayBytes) .backupArrayNotInDump
  let bEntriesOff := bhOff - earrayBytes
  checkArray head pEntriesOff earrayBytes ph.ecrc "primary"
  checkArray tail bEntriesOff earrayBytes bh.ecrc "backup"
  return {
    head, tail, lbs, k, diskSectors, diskLbas, ph, bhOff, bh, esize := ph.esize
    nents := ph.nents, earrayBytes, pEntriesOff, bEntriesOff }

/-! ## The partitions -/

/-- One partition in use; `first` and `last` in 512-byte sectors. -/
structure Entry where
  index : ℕ
  first : ℤ
  last : ℤ
  name : List Char
  deriving DecidableEq

def replacement : Char := Char.ofNat 0xFFFD

/-- `bytes.decode('utf-16-le', 'replace')`: a surrogate without its partner and a
cut-off unit become the replacement character. -/
def decodeUtf16le : List UInt8 → List Char
  | [] => []
  | [_] => [replacement]
  | lo :: hi :: rest =>
    let unit := lo.toNat + 256 * hi.toNat
    if unit < 0xD800 ∨ 0xE000 ≤ unit then Char.ofNat unit :: decodeUtf16le rest
    else if 0xDC00 ≤ unit then replacement :: decodeUtf16le rest
    else match rest with
      | lo' :: hi' :: rest' =>
        let unit' := lo'.toNat + 256 * hi'.toNat
        if 0xDC00 ≤ unit' ∧ unit' < 0xE000 then
          Char.ofNat (0x10000 + (unit - 0xD800) * 0x400 + (unit' - 0xDC00)) :: decodeUtf16le rest'
        else replacement :: decodeUtf16le (lo' :: hi' :: rest')
      | _ => [replacement]

/-- `str.rstrip('\0')`. -/
def stripNul (cs : List Char) : List Char :=
  (cs.reverse.dropWhile (· = Char.ofNat 0)).reverse

namespace Table

/-- Where entry `i` of the primary array is in the head. -/
def entryOff (t : Table) (i : ℕ) : ℕ := t.pEntriesOff + i * t.esize

/-- Where entry `i` of the backup array is in the tail. -/
def backupOff (t : Table) (i : ℕ) : ℕ := t.bEntriesOff + i * t.esize

/-- An entry whose type GUID is not all zero. -/
def InUse (t : Table) (i : ℕ) : Prop := slice t.head (t.entryOff i) 16 ≠ List.replicate 16 0

instance (t : Table) (i : ℕ) : Decidable (t.InUse i) := inferInstanceAs (Decidable (¬ _ = _))

/-- The loop body of `entries`: nothing for an unused entry. -/
def entry (t : Table) (i : ℕ) : Except Exit (Option Entry) :=
  let o := t.entryOff i
  if slice t.head o 16 = List.replicate 16 0 then .ok none
  else if t.head.length < o + 48 then .error .structError
  else .ok (some {
    index := i
    first := field t.head (o + 32) 8 * t.k
    last := (field t.head (o + 40) 8 + 1) * t.k - 1
    name := stripNul (decodeUtf16le (slice t.head (o + 56) 72)) })

/-- The loop of `entries` over the indexes left to visit. -/
def entriesFrom (t : Table) : List ℕ → Except Exit (List Entry)
  | [] => .ok []
  | i :: is => do
    let e ← t.entry i
    let es ← entriesFrom t is
    return e.toList ++ es

/-- `entries`: the partitions in use, in array order. -/
def entries (t : Table) : Except Exit (List Entry) := t.entriesFrom (List.range t.nents)

/-! ## The edit -/

/-- `struct.pack_into`: an in-place write, or the exception of a place outside. -/
def packInto (buf : Buf) (off : ℕ) (w : List UInt8) : Except Exit Buf := do
  refuse (buf.length < off + w.length) .structError
  return poke buf off w

/-- The last loop of `set_end` on one copy: the array CRC into the header, then the
header's CRC over the header with that field blank. -/
def sealHeader (buf : Buf) (off hsize : ℕ) (ecrc : UInt32) : Except Exit Buf := do
  let buf ← packInto buf (off + 88) (leBytes 4 ecrc.toNat)
  let buf ← packInto buf (off + 16) [0, 0, 0, 0]
  packInto buf (off + 16) (leBytes 4 (crc32 (slice buf off hsize)).toNat)

/-- The block that ends with the 512-byte sector `newLast`. -/
def lbaOf (t : Table) (newLast : ℤ) : ℤ := (newLast + 1) / t.k - 1

/-- `set_end(index, new_last)`: `newLast` is a 512-byte sector, the last of a block. -/
def setEnd (t : Table) (index : ℕ) (newLast : ℤ) : Except Exit Table := do
  refuse ((newLast + 1) % t.k ≠ 0) (.notLastOfBlock newLast t.lbs)
  let lba := t.lbaOf newLast
  refuse (lba < 0 ∨ 2 ^ 64 ≤ lba) .structError
  let w := leBytes 8 lba.toNat
  let head ← packInto t.head (t.entryOff index + 40) w
  let tail ← packInto t.tail (t.backupOff index + 40) w
  let ecrc := crc32 (slice head t.pEntriesOff t.earrayBytes)
  let bcrc := crc32 (slice tail t.bEntriesOff t.earrayBytes)
  refuse (ecrc ≠ bcrc) .arraysDiffer
  let head ← sealHeader head t.lbs t.ph.hsize ecrc
  let tail ← sealHeader tail t.bhOff t.bh.hsize ecrc
  return { t with head, tail }

end Table

end Mu300.Gpt
