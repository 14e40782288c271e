import Mu300.Online.Worker

/-!
# The size an online shrink asks for

`online_target` of `tools/resume.py` chooses the F2FS size on the host, in Python's integers;
`validate_target` of `tools/f2fs-online/mu300-f2fs-online.c` judges it on the device, in `uint64_t`.
-/

namespace Mu300.Online

/-! ## The host -/

/-- `ONLINE_MARGIN`, in bytes. -/
def onlineMargin : ℤ := 2 * 2 ^ 30

/-- The `ValueError`s of `online_target`. -/
inductive TargetError : Type where
  /-- the F2FS geometry is not known -/
  | unknownGeometry
  /-- that would not make the F2FS smaller -/
  | notSmaller
  /-- Android's data takes USED GiB: a userdata of SIZE GiB would leave it less than 2 GiB to
  spare (both amounts here in bytes) -/
  | noRoom (used size : ℤ)
  deriving DecidableEq

/-- `online_target(new_size, section_blocks, used_bytes, blocks)`. `//` is asked for positive
divisors only, where it is `/`. -/
def onlineTarget (newSize sectionBlocks usedBytes blocks : ℤ) : Except TargetError ℤ :=
  if sectionBlocks ≤ 0 ∨ blocks ≤ 0 ∨ newSize ≤ 0 ∨ usedBytes < 0 then .error .unknownGeometry
  else
    let target := newSize * 512 / 4096 / sectionBlocks * sectionBlocks
    if blocks ≤ target then .error .notSmaller
    else if target * 4096 ≤ usedBytes + onlineMargin then .error (.noRoom usedBytes (newSize * 512))
    else .ok target

variable {newSize sectionBlocks usedBytes blocks target : ℤ}

theorem onlineTarget_ok_iff : onlineTarget newSize sectionBlocks usedBytes blocks = .ok target ↔
      (0 < sectionBlocks ∧ 0 < blocks ∧ 0 < newSize ∧ 0 ≤ usedBytes) ∧
        target = newSize * 512 / 4096 / sectionBlocks * sectionBlocks ∧
        target < blocks ∧ usedBytes + onlineMargin < target * 4096 := by
  by_cases hgeometry : sectionBlocks ≤ 0 ∨ blocks ≤ 0 ∨ newSize ≤ 0 ∨ usedBytes < 0
  · rw [onlineTarget, if_pos hgeometry]
    constructor
    · rintro ⟨⟩
    · omega
  · rw [onlineTarget, if_neg hgeometry]
    dsimp only
    constructor
    · intro h
      split_ifs at h with hsmaller hroom
      cases h
      exact ⟨by omega, rfl, by omega, by omega⟩
    · rintro ⟨-, rfl, hsmaller, hroom⟩
      rw [if_neg (by omega), if_neg (by omega)]

/-! ## The device -/

/-- `UINT64_MAX`. -/
def uint64Max64 : UInt64 := 0xffffffffffffffff

/-- `1ULL << 30`: what the device keeps free, in bytes. -/
def workerMargin : UInt64 := (1 : UInt64) <<< 30

/-- `struct geometry`, in its own words. -/
structure Geometry64 where
  blocks : UInt64
  sectionBlocks : UInt64
  uuid : Buf

def Geometry64.toGeometry (g : Geometry64) : Geometry :=
  ⟨g.blocks.toNat, g.sectionBlocks.toNat, g.uuid⟩

/-- `validate_target` as the device computes it: `+`, `-` and `*` wrap. -/
def validateTarget64 (g : Geometry64) (expected target used : UInt64) : Bool :=
  ¬ (expected ≠ g.blocks ∨ target = 0 ∨ target ≥ expected ∨ target % g.sectionBlocks ≠ 0 ∨
    target > uint64Max64 / 4096 ∨ used > uint64Max64 - workerMargin ∨
    target * 4096 ≤ used + workerMargin)

theorem toNat_workerMargin : workerMargin.toNat = 2 ^ 30 := by decide

theorem toNat_of_guards {target used : UInt64} (htarget : ¬ target > uint64Max64 / 4096)
    (hused : ¬ used > uint64Max64 - workerMargin) : (target * 4096).toNat = target.toNat * 4096 ∧
      (used + workerMargin).toNat = used.toNat + 2 ^ 30 := by
  have hmax : (uint64Max64 / 4096).toNat = 4503599627370495 := by decide
  have hmax' : (uint64Max64 - workerMargin).toNat = 18446744072635809791 := by decide
  rw [gt_iff_lt, UInt64.lt_iff_toNat_lt, hmax] at htarget
  rw [gt_iff_lt, UInt64.lt_iff_toNat_lt, hmax'] at hused
  rw [UInt64.toNat_mul, UInt64.toNat_add, toNat_workerMargin]
  constructor
  · exact Nat.mod_eq_of_lt (by change target.toNat * 4096 < 2 ^ 64; omega)
  · exact Nat.mod_eq_of_lt (by omega)

theorem validateTarget64_eq (g : Geometry64) (expected target used : UInt64) :
    validateTarget64 g expected target used =
      validateTarget g.toGeometry expected.toNat target.toNat used.toNat := by
  have hmax : (uint64Max64 / 4096).toNat = uint64Max / 4096 := by decide
  have hmax' : (uint64Max64 - workerMargin).toNat = uint64Max - 2 ^ 30 := by decide
  have hzero : target = 0 ↔ target.toNat = 0 := by rw [← UInt64.toNat_inj]; rfl
  have hmod : target % g.sectionBlocks = 0 ↔ target.toNat % g.toGeometry.sectionBlocks = 0 := by
    rw [← UInt64.toNat_inj, UInt64.toNat_mod]; rfl
  have hblocks : expected = g.blocks ↔ expected.toNat = g.toGeometry.blocks := UInt64.toNat_inj.symm
  rw [validateTarget64, validateTarget, decide_eq_decide, not_iff_not, ne_eq, ne_eq, ne_eq, ne_eq,
    hblocks, hzero, hmod, ge_iff_le, UInt64.le_iff_toNat_le, gt_iff_lt, gt_iff_lt]
  by_cases htarget : target > uint64Max64 / 4096
  · have htarget' := htarget
    rw [gt_iff_lt, UInt64.lt_iff_toNat_lt, hmax] at htarget'
    simp [htarget, htarget']
  by_cases hused : used > uint64Max64 - workerMargin
  · have hused' := hused
    rw [gt_iff_lt, UInt64.lt_iff_toNat_lt, hmax'] at hused'
    simp only [hused, hused', true_or, or_true]
  obtain ⟨hproduct, hsum⟩ := toNat_of_guards htarget hused
  rw [UInt64.lt_iff_toNat_lt, hmax, UInt64.lt_iff_toNat_lt, hmax', UInt64.le_iff_toNat_le,
    hproduct, hsum]

/-! ## Both -/

/-- **What the host asks for fits**: whole sections, inside the new partition, smaller than now, and
the device takes it; neither the product nor the sums it forms wrap. -/
theorem onlineTarget_fits (h : onlineTarget newSize sectionBlocks usedBytes blocks = .ok target) :
    0 < target ∧ sectionBlocks ∣ target ∧ target * 4096 ≤ newSize * 512 ∧ target < blocks ∧
      (newSize < 2 ^ 52 → sectionBlocks < 2 ^ 52 → usedBytes < 2 ^ 52 → blocks < 2 ^ 52 →
        ∀ (g : Geometry64) (T used : UInt64), (g.blocks.toNat : ℤ) = blocks →
          (g.sectionBlocks.toNat : ℤ) = sectionBlocks → (T.toNat : ℤ) = target →
          (used.toNat : ℤ) = usedBytes →
          validateTarget64 g g.blocks T used ∧ (T * 4096).toNat = T.toNat * 4096 ∧
            (used + workerMargin).toNat = used.toNat + workerMargin.toNat ∧
            (uint64Max64 - workerMargin).toNat = uint64Max64.toNat - workerMargin.toNat) := by
  obtain ⟨⟨hsection, hblocks, hnew, hused⟩, htarget, hsmaller, hroom⟩ := onlineTarget_ok_iff.1 h
  have hmargin : onlineMargin = 2147483648 := by decide
  have hwhole : target ≤ newSize * 512 / 4096 := by
    rw [htarget]
    exact Int.ediv_mul_le _ (Int.ne_of_gt hsection)
  have hdvd : sectionBlocks ∣ target := by
    rw [htarget]
    exact Int.dvd_mul_left _ _
  refine ⟨by omega, hdvd, by omega, hsmaller, fun _ _ hused52 hblocks52 g T used hg hg' hT hu => ?_⟩
  have hmod : T.toNat % g.toGeometry.sectionBlocks = 0 := by
    rw [← hT, ← hg', Int.natCast_dvd_natCast] at hdvd
    exact Nat.mod_eq_zero_of_dvd hdvd
  have hguard : ¬ T > uint64Max64 / 4096 := by
    have hmax : (uint64Max64 / 4096).toNat = 2 ^ 52 - 1 := by decide
    rw [gt_iff_lt, UInt64.lt_iff_toNat_lt, hmax]
    omega
  have hguard' : ¬ used > uint64Max64 - workerMargin := by
    have hmax : (uint64Max64 - workerMargin).toNat = 2 ^ 64 - 1 - 2 ^ 30 := by decide
    rw [gt_iff_lt, UInt64.lt_iff_toNat_lt, hmax]
    omega
  obtain ⟨hproduct, hsum⟩ := toNat_of_guards hguard hguard'
  refine ⟨?_, hproduct, by rw [hsum, toNat_workerMargin], by decide⟩
  have huint : uint64Max / 4096 = 2 ^ 52 - 1 := by decide
  have huint' : uint64Max - 2 ^ 30 = 2 ^ 64 - 1 - 2 ^ 30 := by decide
  rw [validateTarget64_eq, validateTarget, decide_eq_true_eq, huint, huint']
  rintro (hne | hzero | hge | hpart | hlarge | hfull | hnoRoom)
  · exact hne rfl
  · omega
  · omega
  · exact hpart hmod
  · omega
  · omega
  · omega

/-- A device of 16 GiB, 4 GiB of it used, that keeps 8. -/
theorem onlineTarget_fits_sample :
    onlineTarget 16777216 512 4294967296 4194304 = .ok 2097152 ∧
      validateTarget64 ⟨4194304, 512, []⟩ 4194304 2097152 4294967296 := by
  have h : onlineTarget 16777216 512 4294967296 4194304 = .ok 2097152 := by decide
  exact ⟨h, ((onlineTarget_fits h).2.2.2.2 (by decide) (by decide) (by decide) (by decide)
    ⟨4194304, 512, []⟩ 2097152 4294967296 (by decide) (by decide) (by decide) (by decide)).1⟩

end Mu300.Online
