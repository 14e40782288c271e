import Mu300.Lib.Digits
import Mu300.Lib.Signed
import Mathlib.Order.Lattice

/-!
# The place of the Linux region

The free space behind the last partition of the internal disk. The installer finds it with
`region_probe` of `tools/storage.sh`: a command in the device's shell adds up the partitions' ends,
the installer's own shell does the rest. The initramfs finds it again with `find_root_offset` of
`boot/init`.
-/

namespace Mu300.Region

open Shell Digits Signed List Int64

/-! ## The disk -/

/-- A partition's `start`, `size` and the `PARTNAME` of its `uevent`. -/
structure Part where
  name : Text
  start : ℕ
  size : ℕ

def Part.stop (p : Part) : ℕ := p.start + p.size

/-- A disk with its partitions. Linux counts a disk's bytes in 63 bits. -/
structure Disk where
  /-- `queue/logical_block_size` -/
  blockSize : ℕ
  size : ℕ
  parts : List Part
  block : blockSize = 512 ∨ blockSize = 4096
  size_lt : size * 512 < 2 ^ 63
  inside : ∀ p ∈ parts, p.stop ≤ size

variable (d : Disk) {ps : List Part} (n : ℕ)

/-- The sectors of the backup GPT: a block of header and 128 entries of 128 bytes. -/
def Disk.backupGpt : ℕ := (d.blockSize + 128 * 128) / 512

/-! ## The loop over the partitions -/

/-- `e=0; for p in ...; do x=$((start + size)); [ $x -gt $e ] && e=$x; done`, with `x` as the shell
has it. -/
def endLoop {α : Type} [LT α] [DecidableLT α] (x : Part → α) (e : α) (ps : List Part) : α :=
  ps.foldl (fun e p => if x p > e then x p else e) e

/-- In Android's shell, where numbers have 32 bits. -/
def deviceEnd : Int32 :=
  endLoop (fun p => Int32.ofNat p.start + Int32.ofNat p.size) 0 d.parts

def rootEnd : Int64 :=
  endLoop (fun p => ofNat p.start + ofNat p.size) 0 d.parts

/-- Where the last partition ends. -/
def Disk.lastEnd : ℤ := d.parts.foldl (fun e p => max e (p.stop : ℤ)) 0

section Loop

variable {α : Type} [LT α] [DecidableLT α]

theorem endLoop_eq (toInt : α → ℤ) (hlt : ∀ {a b}, a < b ↔ toInt a < toInt b) (x : Part → α) (e : α)
    (ps : List Part) :
    toInt (endLoop x e ps) = ps.foldl (fun e p => max e (toInt (x p))) (toInt e) := by
  induction ps generalizing e with
  | nil => rfl
  | cons p ps ih =>
    have hstep : toInt (if x p > e then x p else e) = max (toInt e) (toInt (x p)) := by
      by_cases h : x p > e
      · rw [if_pos h]
        have := hlt.1 h
        omega
      · rw [if_neg h]
        have := mt hlt.2 h
        omega
    rw [endLoop, foldl_cons, foldl_cons, ← hstep]
    exact ih _

end Loop

theorem foldl_max_le {f : Part → ℤ} {e b : ℤ} (he : e ≤ b) (h : ∀ p ∈ ps, f p ≤ b) :
    ps.foldl (fun e p => max e (f p)) e ≤ b := by
  exact foldlRecOn (motive := (· ≤ b)) ps _ he fun e he p hp => max_le he (h p hp)

theorem le_foldl_max (f : Part → ℤ) (e : ℤ) (ps : List Part) :
    e ≤ ps.foldl (fun e p => max e (f p)) e ∧
      ∀ p ∈ ps, f p ≤ ps.foldl (fun e p => max e (f p)) e := by
  induction ps generalizing e with
  | nil => exact ⟨Int.le_refl e, by rintro p ⟨⟩⟩
  | cons p ps ih =>
    obtain ⟨hfirst, hrest⟩ := ih (max e (f p))
    rw [foldl_cons]
    exact ⟨by omega, forall_mem_cons.2 ⟨by omega, hrest⟩⟩

theorem foldl_max_congr {f g : Part → ℤ} (h : ∀ p ∈ ps, f p = g p) (e : ℤ) :
    ps.foldl (fun e p => max e (f p)) e = ps.foldl (fun e p => max e (g p)) e := by
  exact foldl_ext _ _ e fun e p hp => by rw [h p hp]

theorem Disk.stop_le_lastEnd {d : Disk} {p : Part} (h : p ∈ d.parts) : (p.stop : ℤ) ≤ d.lastEnd :=
  (le_foldl_max (fun p => (p.stop : ℤ)) 0 d.parts).2 p h

theorem Disk.lastEnd_nonneg : 0 ≤ d.lastEnd :=
  (le_foldl_max (fun p => (p.stop : ℤ)) 0 d.parts).1

theorem toInt_rootEnd : (rootEnd d).toInt = d.lastEnd := by
  have hsize := d.size_lt
  rw [rootEnd, endLoop_eq toInt lt_iff_toInt_lt]
  refine foldl_max_congr (fun p hp => ?_) 0
  have hstop : p.start + p.size ≤ d.size := d.inside p hp
  rw [add_toInt (toInt_ofNat_of_lt (by omega)) (toInt_ofNat_of_lt (by omega))
    (by omega) (by omega)]
  exact (Int.natCast_add _ _).symm

theorem toInt_deviceEnd {d : Disk} (h : ∀ p ∈ d.parts, p.stop < 2 ^ 31) :
    (deviceEnd d).toInt = d.lastEnd := by
  rw [deviceEnd, endLoop_eq Int32.toInt Int32.lt_iff_toInt_lt]
  refine foldl_max_congr (fun p hp => ?_) 0
  have hstop : p.start + p.size < 2 ^ 31 := h p hp
  rw [Int32.toInt_add, Int32.toInt_ofNat_of_lt (by omega), Int32.toInt_ofNat_of_lt (by omega),
    Int.bmod_eq_of_le (by omega) (by omega)]
  exact (Int.natCast_add _ _).symm

theorem deviceEnd_nonneg : 0 ≤ (deviceEnd d).toInt := by
  rw [deviceEnd, endLoop_eq Int32.toInt Int32.lt_iff_toInt_lt]
  exact (le_foldl_max _ _ _).1

/-! ## The installer -/

/-- A number as `echo` prints it. -/
def printed (n : ℤ) : Text :=
  if n < 0 then '-' :: Nat.toDigits 10 n.natAbs else Nat.toDigits 10 n.natAbs

/-- `PARTNAME=mu300root`. -/
def Part.isRoot (p : Part) : Bool := p.name = "mu300root"

/-- The line of a partition named mu300root. -/
def Part.line (p : Part) : Text :=
  "part:" ++ Nat.toDigits 10 p.start ++ [':'] ++ Nat.toDigits 10 p.size

/-- The words the device's command prints; `image` says whether the other installer's image file is
there. Without a partition the loop runs once, over the pattern itself: `$(( + ))` is an error, and
the shell ends. -/
def deviceWords (image : Bool) : List Text :=
  if d.parts = [] then []
  else (d.parts.filter Part.isRoot).map Part.line ++ (if image then ["image".toList] else []) ++
    [printed (deviceEnd d).toInt, Nat.toDigits 10 d.size]

/-- The variables `region_probe` sets while it reads the words. -/
structure Words where
  partOff : Option Int64
  partSize : Option Int64
  partCount : ℕ
  foreignImage : Bool
  lastEnd : Option Text
  disk : Option Text

def Words.unset : Words := ⟨none, none, 0, false, none, none⟩

/-- A text of digits in the installer's arithmetic. -/
def number (t : Text) : Int64 := ofNat (value t)

/-- `case $_w in part:*:*)`, with `_ps` and `_pz`. -/
def partWord? (w : Text) : Option (Text × Text) :=
  if "part:".toList.isPrefixOf w ∧ ':' ∈ w.drop 5 then
    some ((w.drop 5).takeWhile (· ≠ ':'), ((w.drop 5).dropWhile (· ≠ ':')).drop 1)
  else none

/-- `''|*[!0-9]*`. -/
def notDigits (t : Text) : Bool := t = [] || t.any fun ch => !ch.isDigit

/-- One word; nothing for `return 1`. -/
def probeWord (s : Words) (w : Text) : Option Words :=
  match partWord? w with
  | some (ps, pz) =>
    if notDigits (ps ++ pz) then none
    else some { s with
      partCount := s.partCount + 1
      partOff := some (number ps * 512)
      partSize := some (number pz * 512) }
  | none =>
    if w = "image" then some { s with foreignImage := true }
    else if notDigits w then none
    else if s.lastEnd = none then some { s with lastEnd := some w }
    else if s.disk = none then some { s with disk := some w }
    else none

/-- What `region_probe` leaves in its variables. -/
structure Probe where
  lastEnd : Int64
  disk : Int64
  gptTail : Int64
  partOff : Option Int64
  partSize : Option Int64
  partCount : ℕ
  foreignImage : Bool
  inPart : Bool
  regOff : Int64
  regSize : Int64
  off : Int64
  size : Int64

/-- `GPT_TAIL`, from `internal_disk`. -/
def gptTail : Int64 := if d.blockSize = 4096 then 40 else 33

/-- `start`: the first 2 MiB boundary behind the last partition. -/
def regStart (lastEnd : Int64) : Int64 := (lastEnd / 4096 + 1) * 4096

/-- `end`: the last one before the backup GPT, less one. -/
def regEnd (disk tail : Int64) : Int64 := ((disk - tail - 1) / 4096 - 1) * 4096

/-- `region_probe` from the words on. -/
def probe (tail : Int64) (ws : List Text) : Option Probe := do
  let s ← ws.foldlM probeWord Words.unset
  let disk := number (← s.disk)
  let lastEnd := number (s.lastEnd.getD [])
  let start := regStart lastEnd
  let stop := if regEnd disk tail > start then regEnd disk tail else start
  let regOff := start * 512
  let regSize := (stop - start) * 512
  let one := s.partCount = 1
  return {
    lastEnd := lastEnd
    disk := disk
    gptTail := tail
    partOff := if one then s.partOff else none
    partSize := if one then s.partSize else none
    partCount := s.partCount
    foreignImage := s.foreignImage
    inPart := one
    regOff := regOff
    regSize := regSize
    off := if one then s.partOff.getD 0 else regOff
    size := if one then s.partSize.getD 0 else regSize }

def regionProbe (image : Bool) : Option Probe := probe (gptTail d) (deviceWords d image)

/-- `region_in_bounds OFF SIZE`. -/
def regionInBounds (r : Probe) (off size : Int64) : Bool :=
  (off / 512 ≥ r.lastEnd && (off + size) / 512 ≤ r.disk - r.gptTail - 1) ||
    match r.partOff with
    | none => false
    | some partOff => off ≥ partOff && off + size ≤ partOff + r.partSize.getD 0

/-! ## The initramfs -/

def rootOffset : Int64 := 27762098176

/-- The places `find_root_offset` looks at, in their order. -/
def candidates : List Int64 := [(rootEnd d / 4096 + 1) * 4096 * 512, rootOffset]

/-- `[ "$size" = 0 ] || [ $((c + 4096)) -le "$size" ]`: no place past the disk's end. -/
def onDisk (c : Int64) : Bool :=
  ofNat d.size * 512 = 0 || c + 4096 ≤ ofNat d.size * 512

/-- `find_root_offset`; `isRoot` is `is_mu300root`. -/
def findRootOffset (isRoot : Int64 → Bool) : Option Int64 :=
  (candidates d).find? fun c => onDisk d c && isRoot c

/-! ## What the installer reads -/

theorem notDigits_toDigits : notDigits (Nat.toDigits 10 n) = false := by
  have hall : ∀ ch ∈ Nat.toDigits 10 n, ch.isDigit := fun ch hch =>
    Nat.isDigit_of_mem_toDigits (by decide) (by decide) hch
  simp only [notDigits, Nat.toDigits_ne_nil, decide_false, Bool.false_or, any_eq_false]
  intro ch hch
  rw [hall ch hch]
  decide

theorem probeWord_digits {w : Text} (hw : notDigits w = false) (s : Words) :
    probeWord s w = if s.lastEnd = none then some { s with lastEnd := some w }
      else if s.disk = none then some { s with disk := some w }
      else none := by
  have hpart : partWord? w = none := by
    rw [partWord?, if_neg]
    rintro ⟨hbegins, -⟩
    obtain ⟨rest, rfl⟩ := isPrefixOf_iff_prefix.1 hbegins
    cases hw
  have himage : w ≠ "image" := by
    rintro rfl
    cases hw
  simp only [probeWord, hpart, if_neg himage, hw, Bool.false_eq_true, if_false]

theorem printed_natCast : printed n = Nat.toDigits 10 n := by
  rw [printed, if_neg (by omega), Int.natAbs_natCast]

theorem words_unnamed {d : Disk} (hparts : d.parts ≠ []) (hname : ∀ p ∈ d.parts, p.isRoot = false)
    (image : Bool) : (deviceWords d image).foldlM probeWord Words.unset = some { Words.unset with
      foreignImage := image
      lastEnd := some (Nat.toDigits 10 (deviceEnd d).toInt.toNat)
      disk := some (Nat.toDigits 10 d.size) } := by
  have hfilter : d.parts.filter Part.isRoot = [] :=
    filter_eq_nil_iff.2 fun p hp => by rw [hname p hp]; decide
  have hend : printed (deviceEnd d).toInt = Nat.toDigits 10 (deviceEnd d).toInt.toNat := by
    rw [← printed_natCast, Int.toNat_of_nonneg (deviceEnd_nonneg d)]
  have himage : (if image then ["image".toList] else []).foldlM probeWord .unset =
      some { Words.unset with foreignImage := image } := by
    cases image <;> rfl
  rw [deviceWords, if_neg hparts, hfilter, hend, map_nil, nil_append, foldlM_append, himage]
  simp [probeWord_digits (notDigits_toDigits _), Words.unset]

variable {d : Disk} {image : Bool} {r : Probe} {x : ℤ}

theorem regionProbe_unnamed (hname : ∀ p ∈ d.parts, p.isRoot = false)
    (h : regionProbe d image = some r) :
    r.lastEnd = ofNat (deviceEnd d).toInt.toNat ∧ r.disk = ofNat d.size ∧
      r.gptTail = gptTail d ∧ r.partOff = none ∧ r.off = r.regOff ∧ r.size = r.regSize ∧
      r.regOff = regStart r.lastEnd * 512 ∧
      r.regSize = ((if regEnd r.disk r.gptTail > regStart r.lastEnd then regEnd r.disk r.gptTail
        else regStart r.lastEnd) - regStart r.lastEnd) * 512 := by
  have hparts : d.parts ≠ [] := by
    intro hnil
    rw [regionProbe, deviceWords, if_pos hnil] at h
    cases h
  rw [regionProbe, probe, words_unnamed hparts hname] at h
  cases h
  refine ⟨?_, ?_, rfl, rfl, rfl, rfl, rfl, rfl⟩
  · exact congrArg ofNat (value_toDigits _)
  · exact congrArg ofNat (value_toDigits _)

/-! ## In exact numbers -/

theorem toInt_4096 : (4096 : Int64).toInt = 4096 := by decide

theorem toInt_512 : (512 : Int64).toInt = 512 := by decide

theorem toInt_1 : (1 : Int64).toInt = 1 := by decide

theorem toInt_gptTail : (gptTail d).toInt = d.backupGpt := by
  rcases d.block with h | h
  · rw [gptTail, Disk.backupGpt, h]
    decide
  · rw [gptTail, Disk.backupGpt, h]
    decide

theorem Disk.backupGpt_bounds : 33 ≤ d.backupGpt ∧ d.backupGpt ≤ 40 := by
  rcases d.block with h | h
  · rw [Disk.backupGpt, h]
    decide
  · rw [Disk.backupGpt, h]
    decide

theorem toInt_regStart {a : Int64} (ha : a.toInt = x) (h0 : 0 ≤ x) (h1 : x < 2 ^ 54) :
    (regStart a).toInt = (x / 4096 + 1) * 4096 := by
  have hdiv : (a / 4096).toInt = x / 4096 := by
    rw [div_toInt ha toInt_4096 (by decide), Int.tdiv_eq_ediv_of_nonneg h0]
  exact mul_toInt (add_toInt hdiv toInt_1 (by omega) (by omega)) toInt_4096 (by omega) (by omega)

/-- The quotient is towards zero, so that a disk smaller than its GPT is no special case. -/
theorem tdiv_4096 (h : -4096 < x) : x.tdiv 4096 = max x 0 / 4096 := by
  by_cases hpos : 0 ≤ x
  · rw [Int.tdiv_eq_ediv_of_nonneg hpos]
    omega
  · have hneg : x = -(-x) := (Int.neg_neg x).symm
    rw [hneg, Int.neg_tdiv, Int.tdiv_eq_ediv_of_nonneg (by omega)]
    omega

theorem toInt_regEnd {a t : Int64} {y : ℤ} (ha : a.toInt = x) (ht : t.toInt = y) (h0 : 0 ≤ x)
    (h1 : x < 2 ^ 54) (hy0 : 0 ≤ y) (hy1 : y ≤ 40) :
    (regEnd a t).toInt = (max (x - y - 1) 0 / 4096 - 1) * 4096 := by
  have hsub : (a - t - 1).toInt = x - y - 1 :=
    sub_toInt (sub_toInt ha ht (by omega) (by omega)) toInt_1 (by omega) (by omega)
  have hdiv : ((a - t - 1) / 4096).toInt = max (x - y - 1) 0 / 4096 := by
    rw [div_toInt hsub toInt_4096 (by decide), tdiv_4096 (by omega)]
  exact mul_toInt (sub_toInt hdiv toInt_1 (by omega) (by omega)) toInt_4096 (by omega) (by omega)

theorem region_sectors (hname : ∀ p ∈ d.parts, p.isRoot = false) (h : regionProbe d image = some r)
    (hfree : 0 < r.size.toInt) :
    ∃ S E : ℤ, S = ((deviceEnd d).toInt / 4096 + 1) * 4096 ∧ 4096 ∣ E ∧ S < E ∧
      E + 4096 + d.backupGpt < d.size ∧ r.off.toInt = S * 512 ∧ r.size.toInt = (E - S) * 512 ∧
      r.lastEnd.toInt = (deviceEnd d).toInt ∧ r.disk.toInt = d.size ∧
      r.gptTail.toInt = d.backupGpt ∧ r.partOff = none := by
  obtain ⟨hlast, hdisk, htail, hpart, hoff, hsize, hregOff, hregSize⟩ := regionProbe_unnamed hname h
  have hL0 := deviceEnd_nonneg d
  have hL1 := Int32.toInt_lt (deviceEnd d)
  have hbytes := d.size_lt
  obtain ⟨ht0, ht1⟩ := d.backupGpt_bounds
  have hlast' : r.lastEnd.toInt = (deviceEnd d).toInt := by
    rw [hlast, toInt_ofNat_of_lt (by omega), Int.toNat_of_nonneg hL0]
  have hdisk' : r.disk.toInt = d.size := by rw [hdisk, toInt_ofNat_of_lt (by omega)]
  have htail' : r.gptTail.toInt = d.backupGpt := by rw [htail, toInt_gptTail]
  have hS := toInt_regStart hlast' hL0 (by omega)
  have hE := toInt_regEnd hdisk' htail' (by omega) (by omega) (by omega) (by omega)
  have hgt : regEnd r.disk r.gptTail > regStart r.lastEnd := by
    by_contra hle
    rw [hsize, hregSize, if_neg hle, Int64.sub_self] at hfree
    exact absurd hfree (by decide)
  have hlt := lt_iff_toInt_lt.1 hgt
  rw [hS, hE] at hlt
  refine ⟨_, _, rfl, ⟨_, Int.mul_comm _ _⟩, hlt, by omega, ?_, ?_, hlast', hdisk', htail', hpart⟩
  · rw [hoff, hregOff]
    exact mul_toInt hS toInt_512 (by omega) (by omega)
  · rw [hsize, hregSize, if_pos hgt]
    exact mul_toInt (sub_toInt hE hS (by omega) (by omega)) toInt_512 (by omega) (by omega)

theorem toInt_candidate (h : (d.lastEnd / 4096 + 1) * 4096 * 512 < 2 ^ 63) :
    ((rootEnd d / 4096 + 1) * 4096 * 512).toInt = (d.lastEnd / 4096 + 1) * 4096 * 512 := by
  have hL := d.lastEnd_nonneg
  exact mul_toInt (toInt_regStart (toInt_rootEnd d) hL (by omega)) toInt_512 (by omega) (by omega)

theorem onDisk_of_le {c : Int64} (h0 : 0 ≤ c.toInt) (h : c.toInt + 4096 ≤ d.size * 512) :
    onDisk d c := by
  have hbytes := d.size_lt
  have hsize : (ofNat d.size * 512).toInt = d.size * 512 :=
    mul_toInt (toInt_ofNat_of_lt (by omega)) toInt_512 (by omega) (by omega)
  have hend : (c + 4096).toInt = c.toInt + 4096 := add_toInt rfl toInt_4096 (by omega) (by omega)
  rw [onDisk, Bool.or_eq_true, decide_eq_true_eq, decide_eq_true_eq,
    le_iff_toInt_le, hsize, hend]
  exact .inr h

theorem regionInBounds_of_le {off size : Int64} {S E : ℤ} (hoff : off.toInt = S * 512)
    (hsize : size.toInt = (E - S) * 512) (hS : 0 ≤ S) (hE : S ≤ E) (hfits : E * 512 < 2 ^ 63)
    (hlast : r.lastEnd.toInt ≤ S) (hdisk : r.disk.toInt < 2 ^ 54) (ht0 : 0 ≤ r.gptTail.toInt)
    (hend : E ≤ r.disk.toInt - r.gptTail.toInt - 1) : regionInBounds r off size := by
  have hstart : (off / 512).toInt = S := by
    rw [div_toInt hoff toInt_512 (by decide), Int.tdiv_eq_ediv_of_nonneg (by omega)]
    omega
  have hstop : ((off + size) / 512).toInt = E := by
    rw [div_toInt (add_toInt hoff hsize (by omega) (by omega)) toInt_512 (by decide),
      Int.tdiv_eq_ediv_of_nonneg (by omega)]
    omega
  have hlimit : (r.disk - r.gptTail - 1).toInt = r.disk.toInt - r.gptTail.toInt - 1 :=
    sub_toInt (sub_toInt rfl rfl (by omega) (by omega)) toInt_1 (by omega) (by omega)
  rw [regionInBounds, Bool.or_eq_true, Bool.and_eq_true, decide_eq_true_eq, decide_eq_true_eq,
    ge_iff_le, le_iff_toInt_le, le_iff_toInt_le, hstart, hstop, hlimit]
  exact .inl ⟨hlast, hend⟩

/-- **One place, and a free one**: where `region_probe` finds a free region, that region is behind
every partition, aligned to 2 MiB, in front of the backup GPT and in bounds, and the initramfs looks
there first, exactly if every partition ends below 2^31 sectors: the sum is made in 32 bits. -/
theorem region_alike_iff (hname : ∀ p ∈ d.parts, p.isRoot = false)
    (h : regionProbe d image = some r) (hfree : 0 < r.size) :
    ((∀ p ∈ d.parts, (p.start + p.size : ℤ) - 1 < r.off.toInt / 512) ∧
        2 ^ 21 ∣ r.off.toInt ∧ 2 ^ 21 ∣ r.off.toInt + r.size.toInt ∧
        r.off.toInt + r.size.toInt ≤ (d.size - d.backupGpt) * 512 ∧
        regionInBounds r r.off r.size ∧
        (candidates d).head? = some r.off ∧
        (∀ isRoot, isRoot r.off → findRootOffset d isRoot = some r.off)) ↔
      ∀ p ∈ d.parts, p.start + p.size < 2 ^ 31 := by
  have hbytes := d.size_lt
  have hL0 := deviceEnd_nonneg d
  have hL1 := Int32.toInt_lt (deviceEnd d)
  have hgpt := d.backupGpt_bounds
  obtain ⟨S, E, hS, hE, hlt, hend, hoff, hsize, hlast, hdisk, htail, -⟩ :=
    region_sectors hname h (lt_iff_toInt_lt.1 hfree)
  constructor
  · rintro ⟨hbehind, -, -, -, -, hhead, -⟩ p hp
    by_contra hlarge
    have hstop : ∀ q ∈ d.parts, (q.stop : ℤ) ≤ 2 ^ 31 := by
      intro q hq
      have hq' := hbehind q hq
      rw [hoff] at hq'
      have hcast : (q.stop : ℤ) = q.start + q.size := Int.natCast_add _ _
      omega
    have hle : d.lastEnd ≤ 2 ^ 31 := foldl_max_le (by omega) hstop
    have hge : (2 : ℤ) ^ 31 ≤ d.lastEnd := by
      have := Disk.stop_le_lastEnd hp
      have hcast : (p.stop : ℤ) = p.start + p.size := Int.natCast_add _ _
      omega
    -- then the installer's start is at most 2^31, the initramfs's is behind it
    have hcandidate := congrArg toInt (Option.some.inj hhead)
    rw [toInt_candidate (by omega), hoff] at hcandidate
    omega
  · intro hsmall
    have hsame : (deviceEnd d).toInt = d.lastEnd := toInt_deviceEnd hsmall
    have hcandidate : (rootEnd d / 4096 + 1) * 4096 * 512 = r.off := by
      rw [← toInt_inj, toInt_candidate (by omega), hoff, hS, hsame]
    have hreached : onDisk d r.off := onDisk_of_le (by omega) (by omega)
    refine ⟨fun p hp => ?_, by omega, by omega, by omega, ?_, congrArg some hcandidate, ?_⟩
    · have hstop := Disk.stop_le_lastEnd hp
      have hcast : (p.stop : ℤ) = p.start + p.size := Int.natCast_add _ _
      omega
    · exact regionInBounds_of_le hoff hsize (by omega) (by omega) (by omega) (by omega) (by omega)
        (by omega) (by omega)
    · intro isRoot hroot
      rw [findRootOffset, candidates, hcandidate]
      exact find?_cons_of_pos (by rw [hreached, hroot]; rfl)

/-- A disk of 58 GiB with a boot partition in front of userdata. -/
def emmc : Disk where
  blockSize := 512
  size := 122142720
  parts := [⟨"boot", 4096, 4096⟩, ⟨"userdata", 8192, 54210560⟩]
  block := .inl rfl
  size_lt := by decide
  inside := by decide

/-- Where userdata ends, both ways to find the region agree. -/
theorem region_alike_emmc :
    ∃ r, regionProbe emmc false = some r ∧ r.off = 27762098176 ∧
      (candidates emmc).head? = some r.off ∧ regionInBounds r r.off r.size := by
  have hprobe : (regionProbe emmc false).isSome := by decide +kernel
  obtain ⟨r, hr⟩ := Option.isSome_iff_exists.1 hprobe
  have hoff : (regionProbe emmc false).map Probe.off = some 27762098176 := by decide +kernel
  have hfree : ((regionProbe emmc false).map fun r => decide (0 < r.size)) = some true := by
    decide +kernel
  rw [hr] at hoff hfree
  obtain ⟨-, -, -, -, hbounds, hhead, -⟩ :=
    (region_alike_iff (by decide +kernel) hr (of_decide_eq_true (Option.some.inj hfree))).2
      (by decide +kernel)
  exact ⟨r, hr, Option.some.inj hoff, hhead, hbounds⟩

/-- A disk of 2 TiB, with a userdata that ends behind 2^31 sectors. -/
def ufs : Disk where
  blockSize := 512
  size := 4294967296
  parts := [⟨"userdata", 8192, 3000000000⟩]
  block := .inl rfl
  size_lt := by decide
  inside := by decide

/-- The sum is negative and never the largest, so that the region begins at 2 MiB: over userdata. -/
theorem region_over_userdata :
    (∀ p ∈ ufs.parts, p.isRoot = false) ∧ ∃ r, regionProbe ufs false = some r ∧ 0 < r.size ∧
      r.off = 4096 * 512 ∧
        (∃ p ∈ ufs.parts, ¬ (p.start + p.size : ℤ) - 1 < r.off.toInt / 512) ∧
        (candidates ufs).head? ≠ some r.off := by
  have hprobe : (regionProbe ufs false).isSome := by decide +kernel
  obtain ⟨r, hr⟩ := Option.isSome_iff_exists.1 hprobe
  have hoff : (regionProbe ufs false).map Probe.off = some (4096 * 512) := by decide +kernel
  have hfree : ((regionProbe ufs false).map fun r => decide (0 < r.size)) = some true := by
    decide +kernel
  rw [hr] at hoff hfree
  refine ⟨by decide +kernel, r, hr, of_decide_eq_true (Option.some.inj hfree), Option.some.inj hoff,
    ⟨_, mem_singleton_self _, ?_⟩, ?_⟩
  · rw [show r.off = 4096 * 512 from Option.some.inj hoff]
    decide +kernel
  · rw [show r.off = 4096 * 512 from Option.some.inj hoff]
    decide +kernel

end Mu300.Region
