import Mu300.Lib.Bytes
import Mu300.Lib.Loop

/-!
# The filter, byte by byte

`tarfilter` of `mu300-carry` on the bytes of a tar stream: headers of 512 bytes and data in blocks
of as many, read and written through a buffer.

* `State` — the stream, what was written, and what is held back until a member is decided.
* `filterPass`, `tarfilter` — one header with its data, and all of them.

The installed system gives the content of a plain file, or nothing; it does not change during the
run.
-/

namespace Mu300.TarStream

open Bytes

abbrev Raw := List UInt8

def byte (c : Char) : UInt8 := UInt8.ofNat c.toNat

/-! ## Headers -/

def cstr (b : Raw) : Raw := b.takeWhile (· ≠ 0)

/-- The digits at the front, in a base. -/
def number (base : ℕ) (b : Raw) : ℕ :=
  (b.takeWhile fun x => byte '0' ≤ x && x.toNat < 48 + base).foldl
    (fun v x => v * base + (x.toNat - 48)) 0

/-- `tar_num`: octal, with blanks or zeros in front, or base 256. -/
def tarNum (p : Raw) : ℕ :=
  match p with
  | [] => 0
  | x :: rest =>
    if 128 ≤ x then rest.foldl (fun v y => (v * 256 + y.toNat) % 2 ^ 64) (x.toNat % 64)
    else number 8 (p.dropWhile fun y => y = byte ' ' || y = 0)

/-- Without `./` and `/` in front. -/
def stripFront : Raw → Raw
  | 46 :: 47 :: p => stripFront p
  | 47 :: p => stripFront p
  | p => p

def tarNorm (p : Raw) : Raw :=
  let q := ((stripFront p).reverse.dropWhile (· = byte '/')).reverse
  if q = [byte '.'] then [] else q

def plainPath (p : Raw) : Bool :=
  byte '\n' ∉ p && (p.splitOn (byte '/')).all fun part =>
    part ∉ [[], [byte '.'], [byte '.', byte '.']]

def among (paths : List Raw) (p : Raw) : Bool := p ∈ paths

/-- A path that may be left out: a listed one, or with `*` any plain one. -/
def wanted (list : Option (List Raw)) (p : Raw) : Bool := list.elim (plainPath p) (among · p)

/-- The number of blocks of so many bytes. -/
def blocksOf (size : ℕ) : ℕ := (size + 511) / 512

/-- As many bytes, filled up to whole blocks. -/
abbrev padded (size : ℕ) : ℕ := blocksOf size * 512

/-- What the extended headers of the next member say. -/
structure Held where
  paxPath : Option Raw := none
  paxLink : Option Raw := none
  gnuName : Option Raw := none
  gnuLink : Option Raw := none
  paxSize : Option ℕ := none
  paxXattr : Bool := false
  deriving DecidableEq

def ascii (s : String) : Raw := s.toList.map byte

def Held.record (h : Held) (key value : Raw) : Held :=
  if key = ascii "path" then { h with paxPath := some value }
  else if key = ascii "linkpath" then { h with paxLink := some value }
  else if key = ascii "size" then
    { h with paxSize := if value.head? = some (byte '-') then none else some (number 10 value) }
  else if (ascii "SCHILY.xattr.").isPrefixOf key && 13 < key.length ||
      (ascii "LIBARCHIVE.xattr.").isPrefixOf key && 17 < key.length then
    { h with paxXattr := true }
  else h

/-- One record of a pax header, and what is behind it. -/
def paxPass (s : Raw × Held) : (Raw × Held) ⊕ Held :=
  let digits := s.1.takeWhile fun x => byte '0' ≤ x && x ≤ byte '9'
  let len := number 10 digits
  if digits = [] ∨ s.1[digits.length]? ≠ some (byte ' ') ∨ len = 0 ∨ s.1.length < len then .inr s.2
  else
    let kv := slice s.1 (digits.length + 1) (len - 1 - (digits.length + 1))
    let key := kv.takeWhile (· ≠ byte '=')
    .inl (s.1.drop len, if key.length < kv.length then s.2.record key
      (kv.drop (key.length + 1)) else s.2)

def paxParse (d : Raw) (h : Held) : Held := Loop.run paxPass h (fun s => s.1.length) (d, h)

def typeOf (hdr : Raw) : UInt8 := hdr.getD 156 0

def sizeField (hdr : Raw) : ℕ := tarNum (slice hdr 124 12)

def isExt (t : UInt8) : Bool := t = byte 'L' || t = byte 'K' || t = byte 'x'

def isRegular (t : UInt8) : Bool := t = byte '0' || t = 0 || t = byte '7'

def isBare (t : UInt8) : Bool := byte '1' ≤ t && t ≤ byte '6'

def Held.hold (h : Held) (hdr d : Raw) : Held :=
  let size := sizeField hdr
  if typeOf hdr = byte 'L' then { h with gnuName := some (cstr (d.take size)) }
  else if typeOf hdr = byte 'K' then { h with gnuLink := some (cstr (d.take size)) }
  else paxParse (d.take size) h

def nameOf (h : Held) (hdr : Raw) : Raw :=
  tarNorm <| cstr <| match h.paxPath, h.gnuName with
    | some p, _ => p
    | none, some p => p
    | none, none =>
      if slice hdr 257 6 = ascii "ustar" ++ [0] ∧ hdr.getD 345 0 ≠ 0 then
        cstr (slice hdr 345 155) ++ [byte '/'] ++ cstr (slice hdr 0 100)
      else cstr (slice hdr 0 100)

def linkOf (h : Held) (hdr : Raw) : Raw :=
  tarNorm <| cstr <| (h.paxLink <|> h.gnuLink).getD (cstr (slice hdr 157 100))

def sizeOf (h : Held) (hdr : Raw) : ℕ :=
  if isBare (typeOf hdr) then 0 else h.paxSize.getD (sizeField hdr)

/-! ## The data of a member -/

/-- `sizeof(buf)`. -/
def bufSize : ℕ := 65536

def readFull (n : ℕ) (inp : Raw) : Option (Raw × Raw) :=
  if n ≤ inp.length then some (inp.take n, inp.drop n) else none

structure Copy where
  blocks : ℕ
  inp : Raw
  out : Raw

def copyPass (s : Copy) : Copy ⊕ Option (Raw × Raw) :=
  if s.blocks = 0 then .inr (some (s.out, s.inp))
  else
    let k := min (s.blocks * 512) bufSize
    match readFull k s.inp with
    | none => .inr none
    | some (buf, inp) => .inl ⟨s.blocks - k / 512, inp, s.out ++ buf⟩

/-- Blocks as they are: what is written, and the rest of the stream. -/
def copyBlocks (blocks : ℕ) (inp : Raw) : Option (Raw × Raw) :=
  Loop.run copyPass none Copy.blocks ⟨blocks, inp, []⟩

def replayPass (c : Raw) (stop : ℕ) (s : ℕ × Raw) : (ℕ × Raw) ⊕ Option Raw :=
  if s.1 < stop then
    let m := min (stop - s.1) bufSize
    let piece := slice c s.1 m
    if piece.length = m then .inl (s.1 + m, s.2 ++ piece) else .inr none
  else .inr (some s.2)

/-- The beginning of a file of the installed system is written. -/
def replay (c : Raw) (stop : ℕ) : Option Raw :=
  Loop.run (replayPass c stop) none (fun s => stop - s.1) (0, [])

structure Compare where
  pos : ℕ
  same : Bool
  nul : Bool
  inp : Raw
  /-- what was written for the member -/
  out : Raw

/-- One piece of the data, against the file `c`. `head` is what goes before the data. -/
def comparePass (c head : Raw) (size : ℕ) (s : Compare) : Compare ⊕ Option Compare :=
  let all := padded size
  if s.pos < all then
    let k := min (all - s.pos) bufSize
    let real := if s.pos + k > size then size - s.pos else k
    match readFull k s.inp with
    | none => .inr none
    | some (buf, inp) =>
      if s.same then
        if slice c s.pos real = buf.take real then
          .inl ⟨s.pos + k, true, s.nul || decide (0 ∈ buf.take real), inp, s.out⟩
        else
          -- everything goes out: what passed already was the bytes of the file
          match replay c s.pos with
          | none => .inr none
          | some passed => .inl ⟨s.pos + k, false, s.nul, inp, s.out ++ head ++ passed ++ buf⟩
      else .inl ⟨s.pos + k, false, s.nul, inp, s.out ++ buf⟩
  else .inr (some s)

/-- A candidate: whether it is left out, what is written for it, and the rest of the stream. -/
def candidate (every : Bool) (file : Option Raw) (head : Raw) (size : ℕ) (inp : Raw) :
    Option (Bool × Raw × Raw) :=
  let c := file.getD []
  let same := file.any fun c => c.length = size
  match Loop.run (comparePass c head size) none (fun s => padded size - s.pos)
      ⟨0, same, false, inp, if same then [] else head⟩ with
  | none => none
  | some s =>
    if s.same && every && !s.nul then
      -- every file: a text is written all the same
      match replay c size with
      | none => none
      | some text =>
        some (false, s.out ++ head ++ text ++ List.replicate (padded size - size) 0, s.inp)
    else some (s.same, s.out, s.inp)

/-! ## The stream -/

inductive LogLine : Type where
  | D (path : Raw)
  | H (path : Raw)
  | T (target : Raw)
  | E (leftOut written : ℕ)
  deriving DecidableEq

def kib (size : ℕ) : ℕ := (size + 4095) / 4096 * 4

/-- What the filter has read, kept back and written. -/
structure State where
  inp : Raw
  out : Raw := []
  /-- extended headers, kept back until their member is decided -/
  pend : Raw := []
  held : Held := {}
  /-- the files that were left out -/
  done : List Raw := []
  log : List LogLine := []
  leftOut : ℕ := 0
  written : ℕ := 0

def State.next (s : State) (inp out : Raw) : State :=
  { s with inp := inp, out := s.out ++ out, pend := [], held := {} }

def memberPass (list : Option (List Raw)) (old : Raw → Option Raw) (s : State) (hdr inp : Raw) :
    Option State :=
  let name := nameOf s.held hdr
  let link := linkOf s.held hdr
  let size := sizeOf s.held hdr
  if typeOf hdr = byte '1' ∧ among s.done link then
    -- a second name of a file left out
    some { s.next inp [] with log := s.log ++ [.H name, .T link] }
  else if isRegular (typeOf hdr) && !s.held.paxXattr && wanted list name then
    match candidate list.isNone (old name) (s.pend ++ hdr) size inp with
    | none => none
    | some (true, out, inp) =>
      some { s.next inp out with
        done := name :: s.done, log := s.log ++ [.D name], leftOut := s.leftOut + kib size }
    | some (false, out, inp) => some { s.next inp out with written := s.written + kib size }
  else
    match copyBlocks (blocksOf size) inp with
    | none => none
    | some (out, inp) =>
      some { s.next inp (s.pend ++ hdr ++ out) with
        written := s.written + if isRegular (typeOf hdr) then kib size else 0 }

def filterPass (list : Option (List Raw)) (old : Raw → Option Raw) (s : State) :
    State ⊕ Option (Raw × List LogLine) :=
  match readFull 512 s.inp with
  | none => .inr none
  | some (hdr, inp) =>
    if hdr.all (· = 0) then
      -- the end of the archive: what follows as it is
      if s.pend ≠ [] then .inr none
        else .inr (some (s.out ++ hdr ++ inp, s.log ++ [.E s.leftOut s.written]))
    else if isExt (typeOf hdr) then
      if 64 * 2 ^ 20 < sizeField hdr then .inr none
      else
        match readFull (padded (sizeField hdr)) inp with
        | none => .inr none
        | some (d, inp) =>
          .inl { s with inp := inp, pend := s.pend ++ hdr ++ d, held := s.held.hold hdr d }
    else if typeOf hdr = byte 'g' then
      match copyBlocks (blocksOf (sizeField hdr)) inp with
      | none => .inr none
      | some (d, inp) => .inl { s with inp := inp, out := s.out ++ s.pend ++ hdr ++ d, pend := [] }
    else
      match memberPass list old s hdr inp with
      | none => .inr none
      | some s' => .inl s'

/-- `tarfilter OLD LIST LOG`, without a list for `*`: what is written, and the log. It may die. -/
def tarfilter (list : Option (List Raw)) (old : Raw → Option Raw) (inp : Raw) :
    Option (Raw × List LogLine) :=
  Loop.run (filterPass list old) none (fun s => s.inp.length) { inp := inp }

end Mu300.TarStream
