import Mu300.Gpt.Table

/-!
# The edit of a partition's end is exact

What `set_end` does to an accepted table, by position. Each copy is one buffer with
a header at `off` and an array somewhere else in it; the argument is made once for
such a buffer and used for the head and for the tail.
-/

namespace Mu300.Gpt

open Bytes Crc32 Refuse List Header Except

/-! ## Acceptance, as conditions -/

/-- A header that passes `_check_hdr`. -/
structure GoodHeader (buf : Buf) (off : ℕ) : Prop where
  fits : off + 92 ≤ buf.length
  signed : slice buf off 8 = sig
  long : 20 ≤ (slice buf off (field buf (off + 12) 4)).length
  crc : (crc32 (blanked buf off (field buf (off + 12) 4))).toNat = field buf (off + 16) 4

variable {off : ℕ} {buf : Buf}

theorem checkHdr_eq_ok {what : String} {h : Header} :
    checkHdr buf off what = .ok h ↔ GoodHeader buf off ∧ h = headerAt buf off := by
  simp only [checkHdr, unpackHeader, bind_assoc, pure_bind, bind_eq_ok, refuse_eq_ok, exists_const]
  constructor
  · rintro ⟨hfit, hsig, hlong, hcrc, hh⟩
    have hh : headerAt buf off = h := ok.inj hh
    refine ⟨⟨not_lt.1 hfit, not_not.1 hsig, not_lt.1 hlong, not_not.1 hcrc⟩, hh.symm⟩
  · rintro ⟨hg, rfl⟩
    exact ⟨not_lt.2 hg.fits, not_not.2 hg.signed, not_lt.2 hg.long, not_not.2 hg.crc, rfl⟩

/-- The attributes that go with a pair of buffers and their headers. -/
def tableOf (head tail : Buf) (diskSectors lbs : ℕ) (ph bh : Header) : Table where
  head := head
  tail := tail
  lbs := lbs
  k := lbs / sector
  diskSectors := diskSectors
  diskLbas := diskSectors / (lbs / sector)
  ph := ph
  bhOff := tail.length - lbs
  bh := bh
  esize := ph.esize
  nents := ph.nents
  earrayBytes := ph.nents * ph.esize
  pEntriesOff := ph.entriesLba * lbs
  bEntriesOff := tail.length - lbs - ph.nents * ph.esize

/-- The attributes that go with a pair of buffers. -/
def tableAt (head tail : Buf) (diskSectors lbs : ℕ) : Table :=
  tableOf head tail diskSectors lbs (headerAt head lbs) (headerAt tail (tail.length - lbs))

/-- What `GPT(head, tail, disk_sectors, lbs)` checks about the table `t` of the buffers. -/
structure Accepted (t : Table) : Prop where
  whole : t.diskSectors % t.k = 0
  primary : GoodHeader t.head t.lbs
  tailLong : t.lbs ≤ t.tail.length
  backup : GoodHeader t.tail t.bhOff
  first : t.ph.first = t.bh.first
  last : t.ph.last = t.bh.last
  nents : t.ph.nents = t.bh.nents
  esize : t.ph.esize = t.bh.esize
  placed : t.ph.cur = 1 ∧ (t.bh.cur : ℤ) = t.diskLbas - 1
  arrayFits : t.pEntriesOff + t.earrayBytes ≤ t.head.length
  backupFits : t.earrayBytes ≤ t.bhOff
  arrayCrc : (crc32 (slice t.head t.pEntriesOff t.earrayBytes)).toNat = t.ph.ecrc
  backupCrc : (crc32 (slice t.tail t.bEntriesOff t.earrayBytes)).toNat = t.bh.ecrc

variable {diskSectors lbs i : ℕ} {head tail : Buf} {t : Table} {w : List UInt8}

theorem gpt_eq_ok : gpt head tail diskSectors lbs = .ok t ↔
      t = tableAt head tail diskSectors lbs ∧ Accepted t := by
  simp only [gpt, checkAgree, checkArray, bind_eq_ok, refuse_eq_ok, checkHdr_eq_ok, exists_const]
  constructor
  · rintro ⟨hw, ph, ⟨hp, rfl⟩, htl, bh, ⟨hb, rfl⟩, hf, hl, hn, he, hcur, hfit, hbfit, hc, hbc, ht⟩
    obtain rfl : tableAt head tail diskSectors lbs = t := ok.inj ht
    rw [not_or, not_not, not_not] at hcur
    exact ⟨rfl, not_not.1 hw, hp, not_lt.1 htl, hb, not_not.1 hf, not_not.1 hl,
      not_not.1 hn, not_not.1 he, hcur, not_lt.1 hfit, not_lt.1 hbfit, not_not.1 hc,
      not_not.1 hbc⟩
  · rintro ⟨rfl, ha⟩
    have hcur := ha.placed
    refine ⟨not_not.2 ha.whole, _, ⟨ha.primary, rfl⟩, not_lt.2 ha.tailLong, _,
      ⟨ha.backup, rfl⟩, not_not.2 ha.first, not_not.2 ha.last, not_not.2 ha.nents,
      not_not.2 ha.esize, ?_, not_lt.2 ha.arrayFits, not_lt.2 ha.backupFits,
      not_not.2 ha.arrayCrc, not_not.2 ha.backupCrc, rfl⟩
    rw [not_or, not_not, not_not]
    exact hcur

/-! ## Sealing a header -/

@[simps]
def Header.withCrcs (h : Header) (hcrc ecrc : ℕ) : Header := { h with hcrc, ecrc }

/-- The two CRC fields of the header at `off`. -/
def crcFields (off : ℕ) : Set ℕ := Set.Ico (off + 16) (off + 20) ∪ Set.Ico (off + 88) (off + 92)

theorem not_mem_crcFields : i ∉ crcFields off ↔
      (i < off + 16 ∨ off + 20 ≤ i) ∧ (i < off + 88 ∨ off + 92 ≤ i) := by
  simp only [crcFields, Set.mem_union, Set.mem_Ico]
  omega

/-- The buffer between the two writes of the header CRC: array CRC in, header CRC blank. -/
def unsealed (buf : Buf) (off : ℕ) (ecrc : UInt32) : Buf :=
  poke (poke buf (off + 88) (leBytes 4 ecrc.toNat)) (off + 16) [0, 0, 0, 0]

/-- The buffer with both CRCs of the header at `off` renewed. -/
def sealed (buf : Buf) (off hsize : ℕ) (ecrc : UInt32) : Buf :=
  poke (unsealed buf off ecrc) (off + 16)
    (leBytes 4 (crc32 (slice (unsealed buf off ecrc) off hsize)).toNat)

theorem length_blank : ([0, 0, 0, 0] : List UInt8).length = 4 := rfl

theorem crc_lt (c : UInt32) : c.toNat < 256 ^ 4 := c.toNat_lt

section Seal

variable {buf : Buf} {off : ℕ} (hsize : ℕ) (ecrc : UInt32)

section

variable (hfit : off + 92 ≤ buf.length)

include hfit

theorem length_poke_ecrc : (poke buf (off + 88) (leBytes 4 ecrc.toNat)).length = buf.length :=
  length_poke (by rw [length_leBytes]; omega)

theorem length_unsealed : (unsealed buf off ecrc).length = buf.length := by
  have h88 := length_poke_ecrc ecrc hfit
  rw [unsealed, length_poke (by rw [h88, length_blank]; omega), h88]

theorem length_sealed : (sealed buf off hsize ecrc).length = buf.length := by
  have hun := length_unsealed ecrc hfit
  rw [sealed, length_poke (by rw [length_leBytes, hun]; omega), hun]

theorem sealHeader_eq : Table.sealHeader buf off hsize ecrc = .ok (sealed buf off hsize ecrc) := by
  have h88 := length_poke_ecrc ecrc hfit
  have hun := length_unsealed ecrc hfit
  simp only [Table.sealHeader, Table.packInto, bind_assoc, pure_bind, bind_eq_ok, refuse_eq_ok,
    exists_const]
  refine ⟨by rw [length_leBytes]; omega, by rw [h88, length_blank]; omega, ?_, rfl⟩
  rw [length_leBytes]
  exact not_lt.2 (by rw [← unsealed, hun]; omega)

theorem getElem?_sealed (i : ℕ) :
    (sealed buf off hsize ecrc)[i]? = if off + 16 ≤ i ∧ i < off + 20 then
        (leBytes 4 (crc32 (slice (unsealed buf off ecrc) off hsize)).toNat)[i - (off + 16)]?
      else if off + 88 ≤ i ∧ i < off + 92 then (leBytes 4 ecrc.toNat)[i - (off + 88)]?
      else buf[i]? := by
  have h88 := length_poke_ecrc ecrc hfit
  have hun := length_unsealed ecrc hfit
  rw [sealed, getElem?_poke (by rw [length_leBytes, hun]; omega), length_leBytes]
  by_cases h16 : off + 16 ≤ i ∧ i < off + 16 + 4
  · rw [if_pos h16, if_pos (by omega)]
  · rw [if_neg h16, if_neg (by omega), unsealed, getElem?_poke (by rw [h88, length_blank]; omega),
      length_blank, if_neg h16, getElem?_poke (by rw [length_leBytes]; omega), length_leBytes]

theorem sameOutside_sealed : SameOutside (crcFields off) buf (sealed buf off hsize ecrc) := by
  refine ⟨length_sealed hsize ecrc hfit, ?_⟩
  intro i hi
  rw [not_mem_crcFields] at hi
  rw [getElem?_sealed hsize ecrc hfit, if_neg (by omega), if_neg (by omega)]

theorem blanked_sealed (hlong : 20 ≤ hsize) :
    blanked (sealed buf off hsize ecrc) off hsize = slice (unsealed buf off ecrc) off hsize := by
  have h88 := length_poke_ecrc ecrc hfit
  have hun := length_unsealed ecrc hfit
  have hse := length_sealed hsize ecrc hfit
  rw [blanked, ← slice_poke_inside (by rw [length_blank, hse]; omega) (by rw [length_blank]; omega),
    sealed, poke_poke_self (by rw [length_leBytes, hun]; omega)
      (by rw [length_leBytes, length_blank]),
    unsealed, poke_poke_self (by rw [h88, length_blank]; omega) rfl]

theorem field_sealed :
    field (sealed buf off hsize ecrc) (off + 16) 4 =
      (crc32 (slice (unsealed buf off ecrc) off hsize)).toNat ∧
      field (sealed buf off hsize ecrc) (off + 88) 4 = ecrc.toNat := by
  have hun := length_unsealed ecrc hfit
  refine ⟨?_, ?_⟩
  · rw [field, sealed, slice_poke_self (length_leBytes 4 _) (by rw [hun]; omega),
      leNat_leBytes (crc_lt _)]
  · have hslice : slice (sealed buf off hsize ecrc) (off + 88) 4 = leBytes 4 ecrc.toNat := by
      apply ext_getElem?
      intro i
      rw [getElem?_slice, getElem?_sealed hsize ecrc hfit]
      split
      · rw [if_neg (by omega), if_pos (by omega), Nat.add_sub_cancel_left]
      · rw [List.getElem?_eq_none (by rw [length_leBytes]; omega)]
    rw [field, hslice, leNat_leBytes (crc_lt _)]

end

end Seal

theorem goodHeader_sealed (ecrc : UInt32) (hfit : off + 92 ≤ buf.length)
    (hsig : slice buf off 8 = sig) (hlong : 20 ≤ (slice buf off (field buf (off + 12) 4)).length) :
    GoodHeader (sealed buf off (field buf (off + 12) 4) ecrc) off := by
  have hsame := sameOutside_sealed (field buf (off + 12) 4) ecrc hfit
  have hlen := length_sealed (field buf (off + 12) 4) ecrc hfit
  have hsize : field (sealed buf off (field buf (off + 12) 4) ecrc) (off + 12) 4 =
      field buf (off + 12) 4 := by
    rw [field, hsame.slice_eq fun i hlo hhi => not_mem_crcFields.2 (by omega), ← field]
  rw [length_slice] at hlong
  refine ⟨by omega, ?_, ?_, ?_⟩
  · rw [hsame.slice_eq fun i hlo hhi => not_mem_crcFields.2 (by omega), hsig]
  · rw [hsize, length_slice, hlen]
    exact hlong
  · rw [hsize, blanked_sealed _ _ hfit (by omega), (field_sealed _ _ hfit).1]

/-- Sealing what differs from a good header in the CRC fields only gives that header back. -/
theorem sealed_eq_of_good {b c : Buf} {ecrc : UInt32} (hg : GoodHeader b off)
    (hsame : SameOutside (crcFields off) b c) (hecrc : ecrc.toNat = field b (off + 88) 4) :
    sealed c off (field b (off + 12) 4) ecrc = b := by
  have hfit := hg.fits
  have hfitc : off + 92 ≤ c.length := by rw [hsame.1]; exact hfit
  have hlong := hg.long
  rw [length_slice] at hlong
  have hbytes : leBytes 4 ecrc.toNat = slice b (off + 88) 4 := by
    rw [hecrc, field, leBytes_leNat (length_slice_of_le (by omega))]
  -- with the array CRC of `b` in place only the blank header CRC differs from `b`
  have hun : unsealed c off ecrc = poke b (off + 16) [0, 0, 0, 0] := by
    apply ext_getElem?
    intro i
    have h88 := length_poke_ecrc ecrc hfitc
    rw [unsealed, getElem?_poke (by rw [h88, length_blank]; omega),
      getElem?_poke (by rw [length_leBytes]; omega),
      getElem?_poke (by rw [length_blank]; omega), length_blank, length_leBytes, hbytes,
        getElem?_slice]
    split
    · rfl
    · split
      · rw [if_pos (by omega)]
        congr 1
        omega
      · exact hsame.2 i (not_mem_crcFields.2 (by omega))
  have hcrc : leBytes 4 (crc32 (slice (unsealed c off ecrc) off (field b (off + 12) 4))).toNat =
      slice b (off + 16) 4 := by
    rw [hun, slice_poke_inside (by rw [length_blank]; omega) (by rw [length_blank]; omega),
      ← blanked, hg.crc, field, leBytes_leNat (length_slice_of_le (by omega))]
  rw [sealed, hcrc, hun, poke_poke_self (by rw [length_blank]; omega), poke_slice_self (by omega)]
  rw [length_blank, length_slice_of_le (by omega)]

/-! ## One copy: a header and its array -/

/-- One copy of the table: a good header at `hdr` and, apart from it, an array of `len`
bytes at `arr` with the CRC the header names. -/
structure GoodCopy (buf : Buf) (hdr arr len : ℕ) : Prop where
  header : GoodHeader buf hdr
  apart : arr + len ≤ hdr ∨ hdr + headerBytes ≤ arr
  fits : arr + len ≤ buf.length
  crc : (crc32 (slice buf arr len)).toNat = field buf (hdr + 88) 4

/-- `w` written at `pos` in the array and the header sealed. -/
def edit (buf : Buf) (hdr arr len pos : ℕ) (w : List UInt8) : Buf :=
  sealed (poke buf pos w) hdr (field buf (hdr + 12) 4) (crc32 (slice (poke buf pos w) arr len))

namespace GoodCopy

variable {buf : Buf} {hdr arr len pos : ℕ} {w : List UInt8}

theorem not_mem_array (hc : GoodCopy buf hdr arr len) (hlo : hdr ≤ i)
    (hhi : i < hdr + 92) : ¬ (arr ≤ i ∧ i < arr + len) := by
  have hapart := hc.apart
  rw [headerBytes] at hapart
  omega

theorem not_mem_crc (hc : GoodCopy buf hdr arr len) (hlo : arr ≤ i) (hhi : i < arr + len) :
    i ∉ crcFields hdr := by
  rw [not_mem_crcFields]
  by_contra hmem
  exact hc.not_mem_array (i := i) (by omega) (by omega) ⟨hlo, hhi⟩

section Write

variable (hc : GoodCopy buf hdr arr len) (hlo : arr ≤ pos) (hhi : pos + w.length ≤ arr + len)
include hc hhi

theorem write_fits : pos + w.length ≤ buf.length := hhi.trans hc.fits

theorem header_fits_poke : hdr + 92 ≤ (poke buf pos w).length := by
  rw [length_poke (hc.write_fits hhi)]
  exact hc.header.fits

theorem edit_sameOutside : SameOutside (Set.Ico pos (pos + w.length) ∪ crcFields hdr) buf
      (edit buf hdr arr len pos w) :=
  (SameOutside.of_poke (hc.write_fits hhi)).trans
    (sameOutside_sealed _ _ (hc.header_fits_poke hhi))

theorem slice_array_edit {n : ℕ} (hoff : arr ≤ off) (hn : off + n ≤ arr + len) :
    slice (edit buf hdr arr len pos w) off n = slice (poke buf pos w) off n := by
  exact (sameOutside_sealed _ _ (hc.header_fits_poke hhi)).slice_eq fun i hi hi' =>
    hc.not_mem_crc (by omega) (by omega)

theorem edit_back : SameOutside (crcFields hdr) buf
      (poke (edit buf hdr arr len pos w) pos (slice buf pos w.length)) := by
  have hfits := hc.write_fits hhi
  have hlen := length_slice_of_le hfits
  have hsame := hc.edit_sameOutside hhi
  have hfits' : pos + (slice buf pos w.length).length ≤ (edit buf hdr arr len pos w).length := by
    rw [hlen, hsame.1]
    exact hfits
  refine ⟨by rw [length_poke hfits', hsame.1], ?_⟩
  intro i hi
  rw [getElem?_poke hfits', hlen]
  split
  · rw [getElem?_slice, if_pos (by omega)]
    congr 1
    omega
  · refine hsame.2 i ?_
    rw [Set.mem_union, Set.mem_Ico, not_or]
    exact ⟨by omega, hi⟩

theorem array_back : slice
    (poke (edit buf hdr arr len pos w) pos (slice buf pos w.length)) arr len =
      slice buf arr len := by
  exact (hc.edit_back hhi).slice_eq fun i hi hi' => hc.not_mem_crc hi hi'

include hlo

theorem slice_poke_header {n : ℕ} (hoff : hdr ≤ off) (hn : off + n ≤ hdr + 92) :
    slice (poke buf pos w) off n = slice buf off n := by
  refine (SameOutside.of_poke (hc.write_fits hhi)).slice_eq fun i hi hi' hmem => ?_
  have := hc.not_mem_array (hoff.trans hi) (by omega)
  rw [Set.mem_Ico] at hmem
  omega

variable {n : ℕ} (hoff : hdr ≤ off) (hn : off + n ≤ hdr + 92)
  (hcrc : off + n ≤ hdr + 16 ∨ (hdr + 20 ≤ off ∧ off + n ≤ hdr + 88))

include hoff hn hcrc in
theorem slice_header_edit :
    slice (edit buf hdr arr len pos w) off n = slice buf off n := by
  rw [edit, (sameOutside_sealed _ _ (hc.header_fits_poke hhi)).slice_eq fun i hi hi' =>
    not_mem_crcFields.2 (by omega)]
  exact hc.slice_poke_header hlo hhi hoff hn

include hoff hn hcrc in
theorem field_header_edit :
    field (edit buf hdr arr len pos w) off n = field buf off n := by
  rw [field, field, hc.slice_header_edit hlo hhi hoff hn hcrc]

theorem hsize_edit : field (edit buf hdr arr len pos w) (hdr + 12) 4 = field buf (hdr + 12) 4 :=
  hc.field_header_edit hlo hhi (by omega) (by omega) (by omega)

theorem edit_good : GoodCopy (edit buf hdr arr len pos w) hdr arr len := by
  have hfit := hc.header_fits_poke hhi
  have hsize : field (poke buf pos w) (hdr + 12) 4 = field buf (hdr + 12) 4 := by
    rw [field, field, hc.slice_poke_header hlo hhi (by omega) (by omega)]
  refine ⟨?_, hc.apart, ?_, ?_⟩
  · rw [edit, ← hsize]
    refine goodHeader_sealed _ hfit ?_ ?_
    · rw [hc.slice_poke_header hlo hhi (by omega) (by omega), hc.header.signed]
    · have hlong := hc.header.long
      rw [hsize, length_slice, length_poke (hc.write_fits hhi)]
      rwa [length_slice] at hlong
  · rw [(hc.edit_sameOutside hhi).1]
    exact hc.fits
  · rw [hc.slice_array_edit hhi (le_refl arr) (le_refl _), edit, (field_sealed _ _ hfit).2]

theorem edit_undo : edit (edit buf hdr arr len pos w) hdr arr len pos
    (slice buf pos w.length) = buf := by
  rw [edit, hc.hsize_edit hlo hhi, hc.array_back hhi]
  exact sealed_eq_of_good hc.header (hc.edit_back hhi) hc.crc

theorem headerAt_edit :
    headerAt (edit buf hdr arr len pos w) hdr =
      (headerAt buf hdr).withCrcs (field (edit buf hdr arr len pos w) (hdr + 16) 4)
        (field (edit buf hdr arr len pos w) (hdr + 88) 4) := by
  have hsig : slice (edit buf hdr arr len pos w) hdr 8 = slice buf hdr 8 :=
    hc.slice_header_edit hlo hhi (by omega) (by omega) (by omega)
  simp only [headerAt, withCrcs, hsig, mk.injEq, true_and, and_true]
  refine ⟨?_, ?_, ?_, ?_, ?_, ?_, ?_, ?_⟩ <;>
    exact hc.field_header_edit hlo hhi (by omega) (by omega) (by omega)

end Write

end GoodCopy

/-! ## Both copies -/

/-- An accepted table with entries of at least 128 bytes and its array apart from its
header: all that the edit and the reading of entries rest on. -/
structure Sound (t : Table) : Prop where
  primary : GoodCopy t.head t.lbs t.pEntriesOff t.earrayBytes
  backup : GoodCopy t.tail t.bhOff t.bEntriesOff t.earrayBytes
  phSize : t.ph.hsize = field t.head (t.lbs + 12) 4
  bhSize : t.bh.hsize = field t.tail (t.bhOff + 12) 4
  array : t.earrayBytes = t.nents * t.esize
  entrySize : 128 ≤ t.esize
  block : 0 < t.k

namespace Table

/-- The same layout with other buffers and headers. -/
@[simps]
def replace (t : Table) (head tail : Buf) (ph bh : Header) : Table := { t with head, tail, ph, bh }

/-- The head with the bytes `w` as the last block of entry `i`. -/
def headEdit (t : Table) (i : ℕ) (w : List UInt8) : Buf :=
  edit t.head t.lbs t.pEntriesOff t.earrayBytes (t.entryOff i + 40) w

/-- The tail with the bytes `w` as the last block of entry `i`. -/
def tailEdit (t : Table) (i : ℕ) (w : List UInt8) : Buf :=
  edit t.tail t.bhOff t.bEntriesOff t.earrayBytes (t.backupOff i + 40) w

section Replace

variable (t : Table) (head tail : Buf) (ph bh : Header) (j : ℕ)

@[simp] theorem replace_entryOff :
    (t.replace head tail ph bh).entryOff j = t.entryOff j := rfl

@[simp] theorem replace_backupOff :
    (t.replace head tail ph bh).backupOff j = t.backupOff j := rfl

@[simp] theorem replace_lbaOf (newLast : ℤ) :
    (t.replace head tail ph bh).lbaOf newLast = t.lbaOf newLast := rfl

@[simp] theorem replace_headEdit (i : ℕ) (w : List UInt8) :
    (t.replace head tail ph bh).headEdit i w =
      edit head t.lbs t.pEntriesOff t.earrayBytes (t.entryOff i + 40) w := rfl

@[simp] theorem replace_tailEdit (i : ℕ) (w : List UInt8) :
    (t.replace head tail ph bh).tailEdit i w =
      edit tail t.bhOff t.bEntriesOff t.earrayBytes (t.backupOff i + 40) w := rfl

end Replace

/-- What `entries` makes of entry `j` when it lies in the dump and is in use. -/
def entryAt (t : Table) (j : ℕ) : Entry where
  index := j
  first := field t.head (t.entryOff j + 32) 8 * t.k
  last := (field t.head (t.entryOff j + 40) 8 + 1) * t.k - 1
  name := stripNul (decodeUtf16le (slice t.head (t.entryOff j + 56) 72))

def entryValue (t : Table) (j : ℕ) : Option Entry :=
  if slice t.head (t.entryOff j) 16 = replicate 16 0 then none else some (t.entryAt j)

end Table

/-- The entry with another end, if it is number `i`. -/
def Entry.withEnd (i : ℕ) (newLast : ℤ) (e : Entry) : Entry :=
  if e.index = i then { e with last := newLast } else e

namespace Sound

variable {t : Table} {i j : ℕ} {w : List UInt8}

theorem replace (hs : Sound t) {ph bh : Header}
    (hhead : GoodCopy head t.lbs t.pEntriesOff t.earrayBytes)
    (htail : GoodCopy tail t.bhOff t.bEntriesOff t.earrayBytes)
    (hph : ph.hsize = field head (t.lbs + 12) 4) (hbh : bh.hsize = field tail (t.bhOff + 12) 4) :
    Sound (t.replace head tail ph bh) :=
  ⟨hhead, htail, hph, hbh, hs.array, hs.entrySize, hs.block⟩

theorem entry_le (hs : Sound t) (hi : i < t.nents) : i * t.esize + t.esize ≤ t.earrayBytes := by
  rw [hs.array, ← Nat.succ_mul]
  exact Nat.mul_le_mul_right _ hi

theorem entry_apart (t : Table) (hij : i ≠ j) :
    i * t.esize + t.esize ≤ j * t.esize ∨ j * t.esize + t.esize ≤ i * t.esize := by
  rw [← Nat.succ_mul, ← Nat.succ_mul]
  rcases Nat.lt_or_gt_of_ne hij with h | h
  · exact .inl (Nat.mul_le_mul_right _ h)
  · exact .inr (Nat.mul_le_mul_right _ h)

section Edit

variable (hs : Sound t) (hi : i < t.nents) (hw : w.length = 8)
include hs hi hw

/-- What is written lies inside the entries, of the table and of its copy. -/
theorem edit_range :
    (t.pEntriesOff ≤ t.entryOff i + 40 ∧
      t.entryOff i + 40 + w.length ≤ t.pEntriesOff + t.earrayBytes) ∧
      t.bEntriesOff ≤ t.backupOff i + 40 ∧
      t.backupOff i + 40 + w.length ≤ t.bEntriesOff + t.earrayBytes := by
  have hle := hs.entry_le hi
  have hsize := hs.entrySize
  rw [Table.entryOff, Table.backupOff]
  omega

theorem edited {ph bh : Header} (hph : ph.hsize = t.ph.hsize) (hbh : bh.hsize = t.bh.hsize) :
    Sound (t.replace (t.headEdit i w) (t.tailEdit i w) ph bh) := by
  obtain ⟨⟨hlo, hhi⟩, hblo, hbhi⟩ := hs.edit_range hi hw
  have hsize := hs.primary.hsize_edit hlo hhi
  have hbsize := hs.backup.hsize_edit hblo hbhi
  exact hs.replace (hs.primary.edit_good hlo hhi) (hs.backup.edit_good hblo hbhi)
    (hph.trans (hs.phSize.trans hsize.symm)) (hbh.trans (hs.bhSize.trans hbsize.symm))

end Edit

section

variable (hs : Sound t) {newLast : ℤ}

include hs

/-- Inversion for the edit: the ways it can end are the alignment, the range of the new
end and the comparison of the two arrays. -/
theorem setEnd_eq_ok (hi : i < t.nents) {t' : Table} :
    t.setEnd i newLast = .ok t' ↔ (newLast + 1) % t.k = 0 ∧
    (0 ≤ t.lbaOf newLast ∧ t.lbaOf newLast < 2 ^ 64) ∧
      crc32 (slice (poke t.head (t.entryOff i + 40) (leBytes 8 (t.lbaOf newLast).toNat))
          t.pEntriesOff t.earrayBytes) =
        crc32 (slice (poke t.tail (t.backupOff i + 40) (leBytes 8 (t.lbaOf newLast).toNat))
          t.bEntriesOff t.earrayBytes) ∧
      t' = t.replace (t.headEdit i (leBytes 8 (t.lbaOf newLast).toNat))
        (t.tailEdit i (leBytes 8 (t.lbaOf newLast).toNat)) t.ph t.bh := by
  obtain ⟨⟨-, hhi⟩, -, hbhi⟩ := hs.edit_range hi (length_leBytes 8 (t.lbaOf newLast).toNat)
  have hfit := hs.primary.write_fits hhi
  have hbfit := hs.backup.write_fits hbhi
  simp only [Table.setEnd, Table.packInto, bind_assoc, pure_bind, bind_eq_ok, refuse_eq_ok,
    exists_const,
    sealHeader_eq _ _ (hs.primary.header_fits_poke hhi),
      sealHeader_eq _ _ (hs.backup.header_fits_poke hbhi),
    ok.injEq, exists_eq_left', not_not, not_or, not_lt, not_le, hs.phSize, hs.bhSize]
  constructor
  · rintro ⟨halign, hrange, -, -, hcrc, ht⟩
    refine ⟨halign, hrange, hcrc, ?_⟩
    rw [Table.headEdit, Table.tailEdit, edit, edit, ← hcrc, Table.replace]
    cases ht
    rfl
  · rintro ⟨halign, hrange, hcrc, rfl⟩
    refine ⟨halign, hrange, hfit, hbfit, hcrc, ?_⟩
    rw [Table.headEdit, Table.tailEdit, edit, edit, ← hcrc]
    rfl

/-- Setting the old end again: with identical arrays it comes through and gives both
buffers back, whether the table was parsed again in between or not. -/
theorem setEnd_undo (hi : i < t.nents) (hw : w.length = 8) {ph bh : Header}
    (hph : ph.hsize = t.ph.hsize) (hbh : bh.hsize = t.bh.hsize)
    (hsame : slice t.head t.pEntriesOff t.earrayBytes = slice t.tail t.bEntriesOff t.earrayBytes) :
    ∃ t', (t.replace (t.headEdit i w) (t.tailEdit i w) ph bh).setEnd i
        ((field t.head (t.entryOff i + 40) 8 + 1) * t.k - 1) = .ok t' ∧
      t'.head = t.head ∧ t'.tail = t.tail := by
  have hk : (t.k : ℤ) ≠ 0 := Int.natCast_ne_zero.2 hs.block.ne'
  have hv := hs.edited hi hw hph hbh
  obtain ⟨⟨hlo, hhi⟩, hblo, hbhi⟩ := hs.edit_range hi hw
  have hle := hs.entry_le hi
  have hsize := hs.entrySize
  have hfit := hs.primary.write_fits hhi
  rw [hw] at hfit
  have hlba : t.lbaOf ((field t.head (t.entryOff i + 40) 8 + 1) * t.k - 1) =
      field t.head (t.entryOff i + 40) 8 := by
    rw [Table.lbaOf, sub_add_cancel, Int.mul_ediv_cancel _ hk, add_sub_cancel_right]
  have hbytes : leBytes 8 (field t.head (t.entryOff i + 40) 8) =
      slice t.head (t.entryOff i + 40) 8 := leBytes_leNat (length_slice_of_le hfit)
  have hold : slice t.tail (t.backupOff i + 40) 8 = slice t.head (t.entryOff i + 40) 8 := by
    calc slice t.tail (t.backupOff i + 40) 8
        = slice (slice t.tail t.bEntriesOff t.earrayBytes) (i * t.esize + 40) 8 := by
          rw [slice_slice (by omega), Table.backupOff, Nat.add_assoc]
      _ = slice (slice t.head t.pEntriesOff t.earrayBytes) (i * t.esize + 40) 8 := by rw [hsame]
      _ = slice t.head (t.entryOff i + 40) 8 := by
          rw [slice_slice (by omega), Table.entryOff, Nat.add_assoc]
  have hhead := hs.primary.edit_undo hlo hhi
  have htail := hs.backup.edit_undo hblo hbhi
  have hharray := hs.primary.array_back hhi
  have htarray := hs.backup.array_back hbhi
  rw [hw] at hhead htail hharray htarray
  rw [hold] at htail htarray
  refine ⟨_, (hv.setEnd_eq_ok hi).2 ⟨?_, ?_, ?_, rfl⟩, ?_, ?_⟩
  · rw [Table.replace_k, sub_add_cancel, Int.mul_emod_left]
  · have hlt := leNat_lt (slice t.head (t.entryOff i + 40) 8)
    rw [length_slice_of_le hfit] at hlt
    rw [Table.replace_lbaOf, hlba, field]
    omega
  · simp only [Table.replace_lbaOf, hlba, Int.toNat_natCast, hbytes, Table.replace_head,
      Table.replace_tail,
      Table.replace_entryOff, Table.replace_backupOff, Table.replace_pEntriesOff,
        Table.replace_bEntriesOff,
      Table.replace_earrayBytes, Table.headEdit, Table.tailEdit, hharray, htarray, hsame]
  · rw [Table.replace_head, Table.replace_lbaOf, hlba, Int.toNat_natCast, hbytes,
      Table.replace_headEdit]
    exact hhead
  · rw [Table.replace_tail, Table.replace_lbaOf, hlba, Int.toNat_natCast, hbytes,
      Table.replace_tailEdit]
    exact htail

theorem slice_entry_headEdit (hi : i < t.nents) (hw : w.length = 8)
    (hj : j < t.nents) {o n : ℕ} (hn : o + n ≤ 128) (hfield : i ≠ j ∨ o + n ≤ 40 ∨ 48 ≤ o) :
    slice (t.headEdit i w) (t.entryOff j + o) n = slice t.head (t.entryOff j + o) n := by
  obtain ⟨⟨hlo, hhi⟩, -⟩ := hs.edit_range hi hw
  have hle := hs.entry_le hj
  have hsize := hs.entrySize
  have hout : i = j ∨ _ := or_iff_not_imp_left.2 (entry_apart t (i := i) (j := j))
  rw [Table.headEdit, hs.primary.slice_array_edit hhi (by rw [Table.entryOff]; omega)
    (by rw [Table.entryOff]; omega)]
  refine (SameOutside.of_poke (hs.primary.write_fits hhi)).slice_eq fun k hk hk' hmem => ?_
  rw [Set.mem_Ico, hw] at hmem
  simp only [Table.entryOff] at hk hk' hmem
  rcases hout with rfl | hout
  · omega
  · omega

theorem slice_end_headEdit (hi : i < t.nents) (hw : w.length = 8) :
    slice (t.headEdit i w) (t.entryOff i + 40) 8 = w := by
  obtain ⟨⟨hlo, hhi⟩, -⟩ := hs.edit_range hi hw
  have hfit := hs.primary.write_fits hhi
  rw [hw] at hfit
  rw [Table.headEdit, hs.primary.slice_array_edit hhi hlo (by rw [← hw]; exact hhi),
    slice_poke_self hw hfit]

theorem entry_eq (hj : j < t.nents) : t.entry j = .ok (t.entryValue j) := by
  have hle := hs.entry_le hj
  have hsize := hs.entrySize
  have hfits := hs.primary.fits
  have hin : ¬ t.head.length < t.entryOff j + 48 := by
    rw [Table.entryOff]
    omega
  rw [Table.entry, Table.entryValue, if_neg hin]
  split <;> rfl

theorem entriesFrom_eq :
    ∀ is : List ℕ, (∀ j ∈ is, j < t.nents) → t.entriesFrom is = .ok (is.filterMap t.entryValue)
  | [], _ => rfl
  | j :: is, hlt => by
    rw [Table.entriesFrom, hs.entry_eq (hlt j mem_cons_self),
      entriesFrom_eq is fun k hk => hlt k (mem_cons_of_mem j hk), filterMap_cons]
    cases t.entryValue j <;> rfl

theorem entries_eq : t.entries = .ok ((range t.nents).filterMap t.entryValue) :=
  hs.entriesFrom_eq _ fun _ hj => mem_range.1 hj

theorem entryValue_headEdit (hi : i < t.nents) (hj : j < t.nents)
    (halign : (newLast + 1) % t.k = 0) (hlo : 0 ≤ t.lbaOf newLast)
    (hhi : t.lbaOf newLast < 2 ^ 64) (tail : Buf) (ph bh : Header) :
    (t.replace (t.headEdit i (leBytes 8 (t.lbaOf newLast).toNat)) tail ph bh).entryValue j =
      (t.entryValue j).map (Entry.withEnd i newLast) := by
  have hw := length_leBytes 8 (t.lbaOf newLast).toNat
  have hguid := hs.slice_entry_headEdit hi hw hj (o := 0) (n := 16) (by omega) (by omega)
  have hfirst := hs.slice_entry_headEdit hi hw hj (o := 32) (n := 8) (by omega) (by omega)
  have hname := hs.slice_entry_headEdit hi hw hj (o := 56) (n := 72) (by omega) (by omega)
  have hlast : ((field (t.headEdit i (leBytes 8 (t.lbaOf newLast).toNat)) (t.entryOff j + 40) 8 :
      ℤ) + 1) * t.k - 1 =
      if j = i then newLast else (field t.head (t.entryOff j + 40) 8 + 1) * t.k - 1 := by
    split
    · rename_i hji
      rw [hji, field, hs.slice_end_headEdit hi hw, leNat_leBytes (by omega),
        Int.toNat_of_nonneg hlo, Table.lbaOf,
        sub_add_cancel, Int.ediv_mul_cancel (Int.dvd_of_emod_eq_zero halign), add_sub_cancel_right]
    · rename_i hji
      rw [field, field, hs.slice_entry_headEdit hi hw hj (by omega) (.inl (Ne.symm hji))]
  rw [Nat.add_zero] at hguid
  rw [Table.entryValue, Table.entryValue, Table.entryAt, Table.entryAt, Table.replace_entryOff,
    Table.replace_k, Table.replace_head, hguid, hname, hlast, field, hfirst, ← field]
  split
  · rfl
  · rw [Option.map_some, Entry.withEnd]
    split <;> rfl

theorem entries_edited (hi : i < t.nents) (halign : (newLast + 1) % t.k = 0)
    (hlo : 0 ≤ t.lbaOf newLast) (hhi : t.lbaOf newLast < 2 ^ 64) {ph bh : Header}
    (hv : Sound (t.replace (t.headEdit i (leBytes 8 (t.lbaOf newLast).toNat)) tail ph bh)) :
    (t.replace (t.headEdit i (leBytes 8 (t.lbaOf newLast).toNat)) tail ph bh).entries =
      .ok (((range t.nents).filterMap t.entryValue).map (Entry.withEnd i newLast)) := by
  rw [hv.entries_eq, map_filterMap, Table.replace_nents]
  refine congrArg ok (filterMap_congr fun j hj => ?_)
  exact hs.entryValue_headEdit hi (mem_range.1 hj) halign hlo hhi tail ph bh

end

end Sound

/-! ## From acceptance to acceptance -/

theorem Accepted.sound (ht : t = tableAt head tail diskSectors lbs) (ha : Accepted t)
    (hlbs : lbs = 512 ∨ lbs = 4096)
    (hesize : 128 ≤ t.esize) (hapart : t.pEntriesOff + t.earrayBytes ≤ lbs ∨
      lbs + headerBytes ≤ t.pEntriesOff) : Sound t := by
  subst ht
  have hbend : _ + Table.earrayBytes _ = Table.bhOff _ := Nat.sub_add_cancel ha.backupFits
  refine ⟨⟨ha.primary, hapart, ha.arrayFits, ha.arrayCrc⟩,
    ⟨ha.backup, .inl hbend.le, hbend.le.trans (Nat.sub_le _ _), ha.backupCrc⟩, rfl, rfl,
      rfl, hesize, ?_⟩
  rcases hlbs with rfl | rfl
  · exact Nat.one_pos
  · exact Nat.succ_pos 7

theorem tableOf_replace {head' tail' : Buf} {ph bh ph' bh' : Header}
    (htail : tail'.length = tail.length)
    (hesize : ph'.esize = ph.esize) (hnents : ph'.nents = ph.nents)
    (hlba : ph'.entriesLba = ph.entriesLba) : tableOf head' tail' diskSectors lbs ph' bh' =
      (tableOf head tail diskSectors lbs ph bh).replace head' tail' ph' bh' := by
  simp [tableOf, Table.replace, htail, hesize, hnents, hlba]

theorem tableAt_edited
    (ht : t = tableAt t.head t.tail t.diskSectors t.lbs) (hs : Sound t) (hi : i < t.nents)
    (hw : w.length = 8) :
    tableAt (t.headEdit i w) (t.tailEdit i w) t.diskSectors t.lbs = t.replace (t.headEdit i w)
      (t.tailEdit i w)
        (t.ph.withCrcs (field (t.headEdit i w) (t.lbs + 16) 4)
          (field (t.headEdit i w) (t.lbs + 88) 4))
        (t.bh.withCrcs (field (t.tailEdit i w) (t.bhOff + 16) 4)
          (field (t.tailEdit i w) (t.bhOff + 88) 4)) := by
  obtain ⟨⟨hlo, hhi⟩, hblo, hbhi⟩ := hs.edit_range hi hw
  have hlen : (t.tailEdit i w).length = t.tail.length := (hs.backup.edit_sameOutside hbhi).1
  have hphAt : headerAt t.head t.lbs = t.ph := (congrArg Table.ph ht).symm
  have hbhOff : t.tail.length - t.lbs = t.bhOff := (congrArg Table.bhOff ht).symm
  have hbhAt : headerAt t.tail (t.tail.length - t.lbs) = t.bh := (congrArg Table.bh ht).symm
  have hph : headerAt (t.headEdit i w) t.lbs = _ := hs.primary.headerAt_edit hlo hhi
  have hbh : headerAt (t.tailEdit i w) t.bhOff = _ := hs.backup.headerAt_edit hblo hbhi
  have htable : tableOf t.head t.tail t.diskSectors t.lbs t.ph t.bh = t := by
    rw [tableAt, hphAt, hbhAt] at ht
    exact ht.symm
  rw [hbhOff] at hbhAt
  rw [hphAt] at hph
  rw [hbhAt] at hbh
  rw [tableAt, hlen, hbhOff, hph, hbh, tableOf_replace hlen (withCrcs_esize ..)
    (withCrcs_nents ..) (withCrcs_entriesLba ..), htable]
  rfl

theorem Accepted.replace (ha : Accepted t)
    (hhead : GoodCopy head t.lbs t.pEntriesOff t.earrayBytes)
    (htail : GoodCopy tail t.bhOff t.bEntriesOff t.earrayBytes) (hlen : tail.length = t.tail.length)
    {hcrc hcrc' : ℕ} : Accepted (t.replace head tail
      (t.ph.withCrcs hcrc (field head (t.lbs + 88) 4))
      (t.bh.withCrcs hcrc' (field tail (t.bhOff + 88) 4))) where
  whole := ha.whole
  primary := hhead.header
  tailLong := ha.tailLong.trans hlen.ge
  backup := htail.header
  first := ha.first
  last := ha.last
  nents := ha.nents
  esize := ha.esize
  placed := ha.placed
  arrayFits := hhead.fits
  backupFits := ha.backupFits
  arrayCrc := hhead.crc
  backupCrc := htail.crc

theorem accepted_edited
    (ht : t = tableAt t.head t.tail t.diskSectors t.lbs) (ha : Accepted t) (hs : Sound t)
    (hi : i < t.nents) (hw : w.length = 8) :
    Accepted (tableAt (t.headEdit i w) (t.tailEdit i w) t.diskSectors t.lbs) := by
  obtain ⟨⟨hlo, hhi⟩, hblo, hbhi⟩ := hs.edit_range hi hw
  have hhead : GoodCopy (t.headEdit i w) _ _ _ := hs.primary.edit_good hlo hhi
  have htail : GoodCopy (t.tailEdit i w) _ _ _ := hs.backup.edit_good hblo hbhi
  rw [tableAt_edited ht hs hi hw]
  exact ha.replace hhead htail (hs.backup.edit_sameOutside hbhi).1

/-! ## The edit as a whole -/

/-- What an edit of entry `i` of `t` to end at `newLast` owes: `t'` is the table with the
edited buffers, `u` what parsing those buffers again gives. -/
structure ExactEdit (t : Table) (i : ℕ) (newLast : ℤ) (t' u : Table) : Prop where
  /-- The edited buffers are accepted. -/
  accepted : gpt t'.head t'.tail t.diskSectors t.lbs = .ok u
  /-- The entries are the old ones, entry `i` with its new end. -/
  entries : ∃ es, t.entries = .ok es ∧ t'.entries = .ok (es.map (Entry.withEnd i newLast)) ∧
    u.entries = .ok (es.map (Entry.withEnd i newLast))
  /-- In the head only the end of entry `i` and the CRCs of the header changed. -/
  head : SameOutside (Set.Ico (t.entryOff i + 40) (t.entryOff i + 48) ∪ crcFields t.lbs)
    t.head t'.head
  /-- The same for the tail. -/
  tail : SameOutside (Set.Ico (t.backupOff i + 40) (t.backupOff i + 48) ∪ crcFields t.bhOff)
    t.tail t'.tail
  /-- With identical arrays the old end, set again, restores both buffers, on the edited
  table and on the parsed one. -/
  undo : ∃ old, t.entry i = .ok (some old) ∧
    (slice t.head t.pEntriesOff t.earrayBytes = slice t.tail t.bEntriesOff t.earrayBytes →
      (∃ v, t'.setEnd i old.last = .ok v ∧ v.head = t.head ∧ v.tail = t.tail) ∧
      ∃ v, u.setEnd i old.last = .ok v ∧ v.head = t.head ∧ v.tail = t.tail)

/-- `set_end` on an accepted table ends without a result, or is exact. -/
theorem setEnd_exact {head tail : Buf} {diskSectors lbs i : ℕ} {t : Table} {newLast : ℤ}
    (hlbs : lbs = 512 ∨ lbs = 4096) (haccept : gpt head tail diskSectors lbs = .ok t)
    (hesize : 128 ≤ t.esize)
    (hapart : t.pEntriesOff + t.earrayBytes ≤ lbs ∨ lbs + headerBytes ≤ t.pEntriesOff)
    (hi : i < t.nents) (huse : t.InUse i) (halign : (newLast + 1) % t.k = 0) :
    (∃ x, t.setEnd i newLast = .error x) ∨
      ∃ t' u, t.setEnd i newLast = .ok t' ∧ ExactEdit t i newLast t' u := by
  obtain ⟨rfl, ha⟩ := gpt_eq_ok.1 haccept
  have hs := ha.sound rfl hlbs hesize hapart
  have ht : tableAt head tail diskSectors lbs = tableAt
      (tableAt head tail diskSectors lbs).head (tableAt head tail diskSectors lbs).tail
      (tableAt head tail diskSectors lbs).diskSectors (tableAt head tail diskSectors lbs).lbs := rfl
  -- from here on only what the table says of itself matters
  generalize tableAt head tail diskSectors lbs = t at *
  cases hset : t.setEnd i newLast with
  | error x => exact .inl ⟨x, rfl⟩
  | ok t' =>
    obtain ⟨-, ⟨hlo, hhi⟩, -, rfl⟩ := (hs.setEnd_eq_ok hi).1 hset
    have hw := length_leBytes 8 (t.lbaOf newLast).toNat
    obtain ⟨⟨-, hfit⟩, -, hbfit⟩ := hs.edit_range hi hw
    have hhead := hs.primary.edit_sameOutside hfit
    have htail := hs.backup.edit_sameOutside hbfit
    have hagain := gpt_eq_ok.2 ⟨rfl, accepted_edited ht ha hs hi hw⟩
    rw [tableAt_edited ht hs hi hw] at hagain
    exact .inr ⟨_, _, rfl, {
      accepted := hagain
      entries := ⟨_, hs.entries_eq, hs.entries_edited hi halign hlo hhi (hs.edited hi hw rfl rfl),
        hs.entries_edited hi halign hlo hhi (hs.edited hi hw (withCrcs_hsize ..)
          (withCrcs_hsize ..))⟩
      head := hhead
      tail := htail
      undo := ⟨_, (hs.entry_eq hi).trans (congrArg ok (if_neg huse)), fun hsame =>
        ⟨hs.setEnd_undo hi hw rfl rfl hsame, hs.setEnd_undo hi hw (withCrcs_hsize ..)
          (withCrcs_hsize ..) hsame⟩⟩ }⟩

/-- A partition of a disk of 64 blocks, as its array holds it. -/
def sampleEntry (first last : ℕ) (name : List UInt8) : List UInt8 :=
  replicate 16 1 ++ replicate 16 2 ++ leBytes 8 first ++ leBytes 8 last ++
    replicate 8 0 ++ name ++ replicate (72 - name.length) 0

/-- Blocks 6 to 9, and "ud", blocks 10 to 19. -/
def sampleArray : List UInt8 :=
  sampleEntry 6 9 [97, 0] ++ sampleEntry 10 19 [117, 0, 100, 0]

/-- A header of that disk in its block, with both CRCs. -/
def sampleHeaderOf (array : List UInt8) (count size cur bak entriesLba : ℕ) : List UInt8 :=
  sealed (sig ++ leBytes 4 0x10000 ++ leBytes 4 92 ++ leBytes 8 0 ++ leBytes 8 cur ++
    leBytes 8 bak ++ leBytes 8 6 ++ leBytes 8 61 ++ replicate 16 7 ++ leBytes 8 entriesLba ++
    leBytes 4 count ++ leBytes 4 size ++ replicate 424 0) 0 92 (crc32 array)

abbrev sampleHeader : ℕ → ℕ → ℕ → List UInt8 := sampleHeaderOf sampleArray 2 128

/-- The first blocks of the disk, and the last ones. -/
def sampleHead : Buf := replicate 512 0 ++ sampleHeader 1 63 2 ++ sampleArray

def sampleTail : Buf := sampleArray ++ sampleHeader 63 1 62

def sampleTable : Table := tableAt sampleHead sampleTail 64 512

set_option maxRecDepth 100000 in
/-- The edit of the last of two partitions goes through. -/
theorem setEnd_exact_sample :
    ∃ t' u, sampleTable.setEnd 1 29 = .ok t' ∧ ExactEdit sampleTable 1 29 t' u := by
  have hok : (sampleTable.setEnd 1 29).toBool := by decide +kernel
  have haccept : gpt sampleTable.head sampleTable.tail 64 512 = .ok sampleTable := by
    decide +kernel
  have hexact : (∃ x, sampleTable.setEnd 1 29 = .error x) ∨ _ :=
    setEnd_exact (.inl rfl) haccept (by decide +kernel) (by decide +kernel) (by decide +kernel)
      (by decide +kernel) (by decide +kernel)
  rcases hexact with ⟨x, hx⟩ | h
  · rw [hx] at hok
    exact absurd hok Bool.false_ne_true
  · exact h

end Mu300.Gpt
