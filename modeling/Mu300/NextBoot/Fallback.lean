import Mu300.NextBoot.Boot

/-!
# Failed boots

After an arm with N attempts, N boots that do not get to `--rearm` start Linux and the
next one is Android. LK's tries and the count in `boot-tries` get there together:

* `Counting s n t j w` — LK has `t` tries left and the file counts at most `j`, in
  default-Linux mode with `n` attempts. After an arm `t` is `n + 1` and `j` is 0.
* `Counting.start`, `Counting.initramfs` — the two halves of a boot that finds its system:
  `t` goes down, `j` up. They keep `t + j = n + 1`, so `j` passes `n` only after LK has
  gone to Android.

A boot that finds no system puts Android's block in `misc` itself, at its first time.
-/

namespace Mu300.NextBoot

open Bytes BootControl Shell List Prod

variable {r : Runtime} {f : Faults} {w w' : World} {p : Option Text} {strict trial : Bool}
  {s : Slot} {n : ℕ}

/-! ## A finished arm -/

theorem commitConf_done {prev : Block} (h : commitConf p prev f w = (.done, w')) :
    w'.misc = w.misc ∧ w'.disk = w.disk ∧ ∀ word ∈ p, w'.conf = some (line word) := by
  cases p with
  | none =>
    obtain ⟨-, rfl⟩ := mk.inj h
    exact ⟨rfl, rfl, by simp⟩
  | some word =>
    by_cases hconf : f.conf
    · simp only [commitConf, setConf, if_pos hconf] at h
      split at h <;> cases (mk.inj h).1
    · simp only [commitConf, setConf, if_neg hconf] at h
      obtain ⟨-, rfl⟩ := mk.inj h
      exact ⟨rfl, rfl, by simp⟩

theorem writeBc_done {t : Option Block} (h : writeBc t p f w = (.done, w')) :
    t = some w'.misc.block ∧ w'.disk = w.disk ∧ ∀ word ∈ p, w'.conf = some (line word) := by
  cases t with
  | none => cases (mk.inj h).1
  | some b =>
    simp only [writeBc] at h
    split at h
    · cases (mk.inj h).1
    · split at h
      · next hb =>
        obtain ⟨hm, hrest⟩ := commitConf_done h
        exact ⟨by rw [hm, hb], hrest⟩
      · cases (mk.inj h).1
    · obtain ⟨hm, hrest⟩ := commitConf_done h
      exact ⟨by rw [hm]; simp, hrest⟩

/-- What a finished `arm_linux` leaves: the block with the tries of `boot-attempts`, in
`misc`, and no count. -/
structure JustArmed (r : Runtime) (w : World) : Prop where
  block : ∃ b ∈ r.bcB, ∃ succ : Bool, w.misc.block = makeBcB r.linuxSlot b
    (w.attempts + 1) succ.toNat
  tries : ∀ d ∈ w.disk, d.bootTries = some ['0', '\n']

theorem attempts_congr (h : w'.disk.bind Disk.bootAttempts = w.disk.bind Disk.bootAttempts) :
    w'.attempts = w.attempts := by
  rw [World.attempts, World.attempts, h]

theorem clearBootTries_ne_none (hf : f.tries = false) : clearBootTries f w ≠ none := by
  unfold clearBootTries
  cases w.disk <;> simp [hf]

/-- No count is left where the count could be cleared, and it can be cleared again. -/
theorem clearBootTries_eq_some (h : clearBootTries f w = some w') :
    w'.attempts = w.attempts ∧ (∀ d ∈ w'.disk, d.bootTries = some ['0', '\n']) ∧
      clearBootTries f w' ≠ none := by
  unfold clearBootTries at h
  split at h
  · next hd =>
    cases h
    exact ⟨rfl, by simp [hd], by simp [clearBootTries, hd]⟩
  · next d hd =>
    split at h
    · cases h
    · next hf =>
      cases h
      refine ⟨attempts_congr (by simp [hd]), ?_, clearBootTries_ne_none (by simpa using hf)⟩
      rintro d' ⟨⟩
      rfl

theorem armBlock_done {succ : Bool} (h : armBlock r strict n succ p f w = (.done, w')) :
    (∃ b ∈ r.bcB, w'.misc.block = makeBcB r.linuxSlot b (n + 1) succ.toNat) ∧ w'.disk = w.disk := by
  unfold armBlock at h
  split at h
  · split at h <;> cases (mk.inj h).1
  · next b hb =>
    split at h
    · -- a degraded arm does not end well
      split at h
      · split at h <;> cases (mk.inj h).1
      · next e v hne hv =>
        cases (mk.inj h).1
        exact absurd rfl hne
    · split at h
      · split at h <;> cases (mk.inj h).1
      · obtain ⟨hblock, hdisk, -⟩ := writeBc_done h
        exact ⟨⟨b, hb, (Option.some.inj hblock).symm⟩, hdisk⟩

/-- Where `set -e` does not hold, nothing notices that the count is still there. -/
theorem armLinux_done (h : armLinux r strict trial p f w = (.done, w'))
    (hf : strict = false → clearBootTries f w ≠ none) : JustArmed r w' := by
  simp only [armLinux] at h
  split at h
  · next v hv =>
    obtain ⟨hn, htries, -⟩ := clearBootTries_eq_some hv
    obtain ⟨⟨b, hb, hblock⟩, hdisk⟩ := armBlock_done h
    have hattempts : w'.attempts = w.attempts := (attempts_congr (by rw [hdisk])).trans hn
    exact ⟨⟨b, hb, _, by rw [hattempts, hblock]⟩, by rw [hdisk]; exact htries⟩
  · next hnone =>
    split at h
    · cases (mk.inj h).1
    · next hstrict => exact absurd hnone (hf (Bool.eq_false_iff.2 hstrict))

/-- A command that ends well in default-Linux mode has armed; `attempts` without a number
only shows it, and with one it does not notice that the count could not be cleared. -/
theorem justArmed_of_run {cmd : Command} (hcmd : cmd ≠ .attempts [])
    (hf : ∀ k, cmd = .attempts k → f.tries = false)
    (h : run r cmd f w = (.done, w')) (hlinux : w'.defaultLinux) : JustArmed r w' := by
  unfold run at h
  split at h
  · cases (mk.inj h).1
  split at h
  · cases (mk.inj h).1
  cases cmd with
  | linux => exact armLinux_done h nofun
  | android =>
    obtain ⟨-, -, hconf⟩ := writeBc_done h
    have hnot : w'.defaultLinux = false := by
      rw [World.defaultLinux, hconf _ rfl]
      decide
    rw [hnot] at hlinux
    cases hlinux
  | attempts n =>
    simp only [command] at h
    split at h
    · next hn => exact absurd (congrArg _ hn) hcmd
    split at h
    · cases (mk.inj h).1
    split at h
    · cases (mk.inj h).1
    split at h
    · exact armLinux_done h fun _ => clearBootTries_ne_none (hf n rfl)
    · next hnot =>
      obtain ⟨-, rfl⟩ := mk.inj h
      exact absurd hlinux hnot
  | lock =>
    simp only [command] at h
    split at h
    · cases (mk.inj h).1
    · exact armLinux_done h nofun
  | unlock =>
    simp only [command] at h
    split at h
    · exact armLinux_done h nofun
    · next hnot =>
      obtain ⟨-, rfl⟩ := mk.inj h
      exact absurd hlinux hnot
  | trial =>
    simp only [command] at h
    split at h
    · exact armLinux_done h nofun
    · cases (mk.inj h).1
  | rearm =>
    simp only [command] at h
    split at h
    · cases (mk.inj h).1
    next v hv =>
    split at h
    · exact armLinux_done h fun _ => (clearBootTries_eq_some hv).2.2
    · next hnot =>
      obtain ⟨-, rfl⟩ := mk.inj h
      exact absurd hlinux hnot

/-! ## The count -/

theorem attemptsDigit_range {t : Text} (h : attemptsDigit t = some n) : 1 ≤ n ∧ n ≤ 6 := by
  unfold attemptsDigit at h
  split at h <;> cases h <;> decide

theorem attempts_range (w : World) : 1 ≤ w.attempts ∧ w.attempts ≤ 6 := by
  unfold World.attempts
  cases h : (w.disk.bind Disk.bootAttempts).bind fun t => attemptsDigit (captured t) with
  | none => decide
  | some n =>
    obtain ⟨t, -, ht⟩ := Option.bind_eq_some_iff.1 h
    exact attemptsDigit_range ht

theorem echo_small (hn : n < 7) : (echo n).length = 2 ∧
    readTries (some ((echo n).take 1)) = some (n : ℤ) ∧ readTries (some (echo n)) =
      some (n : ℤ) := by
  revert n
  decide +kernel

theorem readTries_take_echo (hn : n < 7) (k : ℕ) :
    readTries (some ((echo n).take k)) = some ((0 : ℕ) : ℤ) ∨
      readTries (some ((echo n).take k)) = some (n : ℤ) := by
  obtain ⟨hlen, hdigit, hline⟩ := echo_small hn
  match k with
  | 0 => exact .inl rfl
  | 1 => exact .inr hdigit
  | k + 2 =>
    rw [take_of_length_le (by omega)]
    exact .inr hline

theorem wrap_succ (hn : n < 7) : wrap (n + 1) = (n + 1 : ℕ) := by
  revert n
  decide +kernel

/-! ## One boot -/

theorem Bootloader.start_armed (lk : Bootloader s) {m : Misc} {t : ℕ} (hvalid : Valid m.block.1)
    (hinfo : info m.block.1 s = infoByte (t + 1) 0) (hpos : 0 < t) (ht : t < 7) :
    (lk.start m).1 = .linux ∧ Valid (lk.start m).2.block.1 ∧
      info (lk.start m).2.block.1 s = infoByte t 0 := by
  have hprio : priority (info m.block.1 s) = 15 := by
    rw [hinfo, priority_infoByte (by omega) (by decide)]
  have hsucc : ¬ successful (info m.block.1 s) := by
    rw [hinfo, successful_infoByte (by omega) (by decide)]
    decide
  have htries : 1 < tries (info m.block.1 s) := by
    rw [hinfo, tries_infoByte (by omega) (by decide)]
    omega
  have hless : ∀ t < 7, infoByte (t + 1) 0 - 16 = infoByte t 0 := by decide
  have h := lk.countDown m hvalid hprio hsucc htries
  rwa [hinfo, hless t ht] at h

/-- Between boots: LK has `t` tries, `boot-tries` counts at most `j`. -/
structure Counting (s : Slot) (n t j : ℕ) (w : World) : Prop where
  valid : Valid w.misc.block.1
  info : info w.misc.block.1 s = infoByte t 0
  linux : w.defaultLinux
  attempts : w.attempts = n
  count : ∃ k : ℕ, k ≤ j ∧ readTries (w.disk.bind Disk.bootTries) = some (k : ℤ)

namespace Counting

variable {n t j : ℕ} {android : Block} {e : Ending}

theorem not_successful (h : Counting s n t j w) (ht : t < 8) :
    ¬ successful (BootControl.info w.misc.block.1 s) := by
  rw [h.info, successful_infoByte ht (by decide)]
  decide

theorem tries_eq (h : Counting s n t j w) (ht : t < 8) :
    tries (BootControl.info w.misc.block.1 s) = t := by
  rw [h.info, tries_infoByte ht (by decide)]

theorem start (lk : Bootloader s) (h : Counting s n (t + 1) j w) (hpos : 0 < t) (ht : t < 7) :
    (lk.start w.misc).1 = .linux ∧ Counting s n t j { w with misc := (lk.start w.misc).2 } := by
  obtain ⟨hlinux, hvalid, hinfo⟩ := lk.start_armed h.valid h.info hpos ht
  exact ⟨hlinux, hvalid, hinfo, h.linux, h.attempts, h.count⟩

theorem android_of_one (lk : Bootloader s) (h : Counting s n 1 j w) :
    (boot lk android e w).1 = .android := by
  have hstart := lk.fallback w.misc h.valid (h.not_successful (by decide)) (h.tries_eq (by decide))
  rcases hm : lk.start w.misc with ⟨sys, m⟩
  rw [hm] at hstart
  subst hstart
  simp [boot, hm]

theorem putTries (h : Counting s n t j w) {text : Text} {k : ℕ} (hk : k ≤ j + 1)
    (hread : readTries (some text) = some (k : ℤ)) : Counting s n t (j + 1) (w.putTries text) where
  valid := h.valid
  info := h.info
  linux := h.linux
  attempts := by
    rw [← h.attempts]
    apply attempts_congr
    rw [World.putTries]
    cases w.disk <;> rfl
  count := ⟨k, hk, hread⟩

theorem bootTries_eq (h : Counting s n t j w) (ht : t < 8) (hj : j < n) (hn : n < 7) :
    ∃ k ≤ j, bootTries s w = .tries ((k + 1 : ℕ) : ℤ) := by
  obtain ⟨k, hk, hread⟩ := h.count
  refine ⟨k, hk, ?_⟩
  have hunlocked : ¬ (lkLocked s w.misc ∧ w.lockWanted) := fun hl => h.not_successful ht hl.1.2
  have hsmall : ¬ ((w.attempts : ℤ) < wrap ((k : ℤ) + 1) ∧ lkTries s w.misc = some 1) := by
    rw [wrap_succ (by omega), h.attempts, Nat.cast_lt]
    omega
  simp only [bootTries, h.linux, not_true, if_false, if_neg hunlocked, hread, if_neg hsmall]
  rw [wrap_succ (by omega)]

theorem initramfs (h : Counting s n t j w) (ht : t < 8) (hj : j < n) (hn : n < 7)
    (he : e ≠ .noRoot) : (initramfs s android e w).1 = .linux ∧
      Counting s n t (j + 1) (NextBoot.initramfs s android e w).2 := by
  obtain ⟨k, hk, htries⟩ := h.bootTries_eq ht hj hn
  cases e with
  | early =>
    obtain ⟨i, hi, hread⟩ := h.count
    exact ⟨rfl, h.valid, h.info, h.linux, h.attempts, i, by omega, hread⟩
  | noRoot => exact absurd rfl he
  | cut l =>
    simp only [NextBoot.initramfs, htries]
    refine ⟨trivial, ?_⟩
    -- what a torn write leaves counts as nothing or as this boot
    rcases readTries_take_echo (n := k + 1) (by omega) l with hread | hread
    · exact h.putTries (by omega) hread
    · exact h.putTries (by omega) hread
  | up =>
    have hle : ¬ ((w.attempts : ℤ) < (k + 1 : ℕ)) := by
      rw [h.attempts, Nat.cast_lt]
      omega
    simp only [NextBoot.initramfs, htries, if_neg hle]
    exact ⟨trivial, h.putTries (by omega) (echo_small (by omega)).2.2⟩

theorem boot (lk : Bootloader s) (android : Block) (h : Counting s n (t + 1) j w) (hpos : 0 < t)
    (hsum : t + j ≤ n) (hn : n < 7) (he : e ≠ .noRoot) :
    (boot lk android e w).1 = .linux ∧ Counting s n t (j + 1) (NextBoot.boot lk android e w).2 := by
  obtain ⟨hstart, hnext⟩ := h.start lk hpos (by omega)
  rcases hm : lk.start w.misc with ⟨sys, m⟩
  rw [hm] at hstart hnext
  obtain rfl : sys = .linux := hstart
  simp only [NextBoot.boot, hm]
  exact hnext.initramfs (by omega) (by omega) hn he

theorem boots (lk : Bootloader s) {es : List Ending} (hn : n < 7) (he : ∀ e ∈ es, e ≠ .noRoot) :
    ∀ {j : ℕ} {w : World}, Counting s n (es.length + 1) j w → es.length + j ≤ n →
      (boots lk android es w).1 = replicate es.length .linux ∧
        Counting s n 1 (es.length + j) (NextBoot.boots lk android es w).2 := by
  induction es with
  | nil =>
    intro j w h _
    exact ⟨rfl, by simpa [NextBoot.boots] using h⟩
  | cons e es ih =>
    intro j w h hsum
    rw [length_cons] at h hsum
    obtain ⟨hfirst, hnext⟩ := h.boot lk android (by omega) (by omega) hn
      (he e mem_cons_self)
    obtain ⟨hrest, hend⟩ := ih (fun e' he' => he e' (.tail _ he')) hnext (by omega)
    refine ⟨?_, ?_⟩
    · simp only [NextBoot.boots, hfirst, hrest, length_cons, replicate_succ]
    · rw [length_cons, Nat.add_right_comm, Nat.add_assoc]
      exact hend

end Counting

theorem JustArmed.counting (h : JustArmed r w) (hbc : ∀ b ∈ r.bcB, slice b.1 4 4 = magic)
    (hlinux : w.defaultLinux) (hlock : ¬ successful (info w.misc.block.1 r.linuxSlot)) :
    Counting r.linuxSlot w.attempts (w.attempts + 1) 0 w := by
  obtain ⟨⟨b, hb, succ, hblock⟩, htries⟩ := h
  have hn := (attempts_range w).2
  have hinfo := info_makeBcB r.linuxSlot b (t := w.attempts + 1) (by omega) succ.toNat_lt
  have hsucc : succ.toNat = 0 := by
    rw [hblock, hinfo, successful_infoByte (by omega) succ.toNat_lt] at hlock
    cases succ with
    | false => rfl
    | true => exact absurd rfl hlock
  refine ⟨?_, ?_, hlinux, rfl, 0, le_rfl, ?_⟩
  · rw [hblock]
    exact valid_makeBcB (hbc b hb) _ _
  · rw [hblock, hinfo, hsucc]
  · cases hd : w.disk with
    | none => rfl
    | some d =>
      rw [Option.bind_some, htries d hd]
      rfl

/-! ## An arm from Android -/

theorem bootTries_le (h : lkTries s w.misc = some 1) {n : ℤ} (hn : bootTries s w = .tries n) :
    n ≤ w.attempts := by
  unfold bootTries at hn
  split at hn
  · cases hn
  split at hn
  · cases hn
  split at hn
  · cases hn
  · have hpos := (attempts_range w).1
    obtain rfl := Count.tries.inj hn
    split
    · exact_mod_cast hpos
    · next hnot => exact not_lt.1 fun hlt => hnot ⟨hlt, h⟩

theorem initramfs_ne (h : lkTries s w.misc = some 1) (android : Block) (e : Ending) :
    (initramfs s android e w).1 ≠ .sentBack ∧ (initramfs s android e w).1 ≠ .android := by
  unfold initramfs
  split
  · exact ⟨nofun, nofun⟩
  · exact ⟨nofun, nofun⟩
  · split <;> exact ⟨nofun, nofun⟩
  · split
    · exact ⟨nofun, nofun⟩
    · exact ⟨nofun, nofun⟩
    · next n hn =>
      rw [if_neg (not_lt.2 (bootTries_le h hn))]
      exact ⟨nofun, nofun⟩

theorem boot_switched (lk : Bootloader s) (android : Block) (e : Ending) {b : Block}
    (h : switchBlock s w.misc.block = some b) :
    (boot lk android e { w with misc := w.misc.put b }).1 ≠ .sentBack ∧
      (boot lk android e { w with misc := w.misc.put b }).1 ≠ .android := by
  obtain ⟨hvalid, hinfo⟩ := switchBlock_eq_some h
  rw [← Misc.block_put w.misc b] at hvalid hinfo
  obtain ⟨hstart, hvalid', hinfo'⟩ := lk.start_armed hvalid hinfo (by decide) (by decide)
  rcases hm : lk.start (w.misc.put b) with ⟨sys, m⟩
  rw [hm] at hstart hvalid' hinfo'
  obtain rfl : sys = .linux := hstart
  have hlast : lkTries s m = some 1 := by
    simp only [lkTries, hvalid'.magic, hinfo']
    decide
  simp only [boot, hm]
  exact initramfs_ne hlast android e

/-! ## Failed boots, exactly -/

/-- **Failed boots, exactly.** After an arm with N attempts that did not lock, N boots without a
re-arm that find their system start Linux, however far each of them gets, and the next one is
Android. The count never sends a boot back that Android armed. The arm is one that ended well,
and the one of `attempts` also has to have cleared the count. -/
theorem armed_fallback_exact (lk : Bootloader r.linuxSlot) (android : Block) {cmd : Command}
    (hbc : ∀ b ∈ r.bcB, slice b.1 4 4 = magic) (hcmd : cmd ≠ .attempts [])
    (hf : ∀ k, cmd = .attempts k → f.tries = false)
    (hrun : run r cmd f w = (.done, w')) (hlinux : w'.defaultLinux)
    (hlock : ¬ successful (info w'.misc.block.1 r.linuxSlot)) :
    ((1 ≤ w'.attempts ∧ w'.attempts ≤ 6) ∧
      ∀ es : List Ending, es.length = w'.attempts → (∀ e ∈ es, e ≠ .noRoot) →
        (boots lk android es w').1 = replicate w'.attempts .linux ∧
          ∀ e, (boot lk android e (boots lk android es w').2).1 = .android) ∧
      ∀ (v : World) (b : Block) (e : Ending), switchBlock r.linuxSlot v.misc.block = some b →
        (boot lk android e { v with misc := v.misc.put b }).1 ≠ .sentBack ∧
          (boot lk android e { v with misc := v.misc.put b }).1 ≠ .android := by
  have hrange := attempts_range w'
  have harmed := (justArmed_of_run hcmd hf hrun hlinux).counting hbc hlinux hlock
  refine ⟨⟨hrange, fun es hes he => ?_⟩, fun v b e hb => boot_switched lk android e hb⟩
  rw [← hes] at harmed hrange
  obtain ⟨hall, hend⟩ := harmed.boots lk (by omega) he le_rfl
  rw [hes] at hall
  exact ⟨hall, fun e => hend.android_of_one lk⟩

theorem infoByte_pred : ∀ v < 256, priority v = 15 → ¬ successful v → 1 < tries v →
    tries v - 1 < 8 ∧ infoByte (tries v - 1) 0 = v - 16 := by
  decide +kernel

/-- The documented behaviour and no more: a bootloader to run. -/
def Bootloader.documented (s : Slot) : Bootloader s where
  start m := let v := info m.block.1 s
    if successful v then (.linux, m)
    else if tries v ≤ 1 then (.android, m)
    else (.linux, m.put (makeBcB s m.block (tries v - 1) 0))
  keep m _ _ hsucc := if_pos hsucc
  fallback m _ hsucc htries := by
    simp only [if_neg hsucc, htries, le_refl, if_true]
  countDown m hvalid hprio hsucc htries := by
    have hlt : info m.block.1 s < 256 := by
      have hlen : (slice m.block.1 s.infoPos 1).length = 1 :=
        length_slice_of_le (by rw [m.block.2]; cases s <;> decide)
      simpa [info, hlen] using leNat_lt (slice m.block.1 s.infoPos 1)
    obtain ⟨h8, hless⟩ := infoByte_pred _ hlt hprio hsucc htries
    simp only [if_neg hsucc, if_neg (not_le.2 htries), Misc.block_put]
    refine ⟨trivial, valid_makeBcB hvalid.magic _ _, ?_⟩
    rw [info_makeBcB s _ h8 (by decide), hless]

/-- The blocks of a device with Linux on slot b, made from the live one. -/
def exampleImages : Images :=
  Images.of (reseal ⟨[95, 97, 0, 0] ++ magic ++ [1, 2, 0, 0] ++ replicate 20 0, by decide⟩)

/-- Android by default, and a Linux disk that counted to nine long ago. -/
def exampleWorld : World :=
  ⟨.blank, none, some ⟨none, false, some ['9', '\n']⟩⟩

def exampleRuntime : Runtime := publishSlot exampleImages .b none

/-- `mu300-next-boot linux` there. -/
def exampleArm : Exit × World := run exampleRuntime .linux Faults.none exampleWorld

set_option maxRecDepth 100000 in
/-- Five boots that end in four ways, and Android. -/
theorem armed_fallback_exact_five :
    exampleArm.1 = .done ∧
    (boots (Bootloader.documented exampleRuntime.linuxSlot) exampleImages.androidA
        [.early, .up, .cut 0, .cut 1, .up] exampleArm.2).1 = replicate 5 .linux := by
  have hdone : exampleArm.1 = .done := by decide +kernel
  have hfive : exampleArm.2.attempts = 5 := by decide +kernel
  have hrun : run exampleRuntime .linux .none exampleWorld = (.done, exampleArm.2) :=
    Prod.ext hdone rfl
  have hcmd : Command.linux ≠ .attempts [] := nofun
  have hlinux : exampleArm.2.defaultLinux := by decide +kernel
  have h := armed_fallback_exact (.documented exampleRuntime.linuxSlot)
    exampleImages.androidA (by decide +kernel) hcmd nofun hrun hlinux (by decide +kernel)
  obtain ⟨hall, -⟩ := h.1.2 [.early, .up, .cut 0, .cut 1, .up] hfive.symm (by simp)
  rw [hfive] at hall
  exact ⟨hdone, hall⟩

/-- Linux by default, and a disk that counted to five. -/
def countedWorld : World :=
  ⟨.blank, some (line "linux"), some ⟨none, false, some ['5', '\n']⟩⟩

/-- `mu300-next-boot attempts 5` there, with a count that cannot be written. -/
def uncleared : Exit × World :=
  run exampleRuntime (.attempts ['5']) { Faults.none with tries := true } countedWorld

set_option maxRecDepth 100000 in
/-- A boot that finds no system puts Android's block back by itself: one failed boot of
five, and Android is next. And `attempts 5` ends well with the old count still there, which
sends the first boot back. -/
theorem fallback_early :
    (exampleArm.1 = .done ∧ exampleArm.2.attempts = 5 ∧
      (boots (Bootloader.documented exampleRuntime.linuxSlot) exampleImages.androidA
        [.noRoot, .up] exampleArm.2).1 = [.linux, .android]) ∧
    uncleared.1 = .done ∧ uncleared.2.attempts = 5 ∧
      (boots (Bootloader.documented exampleRuntime.linuxSlot) exampleImages.androidA
        [.up] uncleared.2).1 = [.sentBack] := by
  decide +kernel

end Mu300.NextBoot
