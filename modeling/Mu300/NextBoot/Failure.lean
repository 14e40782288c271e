import Mu300.NextBoot.Command

/-!
# What a failed command leaves behind

A command that ends in a failed write of `misc` or of the default boot, compared with the
state before it: `misc`, `default-boot`, `boot-attempts` and `boot-lock`.
-/

namespace Mu300.NextBoot

open Bytes BootControl Shell

variable {r : Runtime} {f : Faults} {w w' : World} {p : Option Text} {strict trial : Bool}
  {out : Exit × World} {t : Option Block} {b : Block} (on : Bool) (n : Text)

/-! ## Stores -/

/-- The two files of the Linux disk that decide about later boots. -/
def World.files (w : World) : Option (Option Text × Bool) :=
  w.disk.map fun d => (d.bootAttempts, d.bootLock)

/-- Nothing that decides the next boots differs. -/
structure SameStores (w w' : World) : Prop where
  misc : w'.misc = w.misc
  conf : w'.conf = w.conf
  files : w'.files = w.files

/-- `dd` fails, or the read back of another block shows that it did. -/
def MiscFails (f : Faults) (w : World) (b : Block) : Prop :=
  f.misc = .reported ∨ f.misc = .silent ∧ w.misc.block ≠ b

/-- There is a default boot to write, and it cannot be written. -/
def ConfFails (p : Option Text) (f : Faults) : Prop := p.isSome ∧ f.conf

/-- `misc` is written and has to go back, and does not. -/
def Stuck (f : Faults) (w : World) (b : Block) : Prop :=
  ¬ MiscFails f w b ∧ f.undo ∧ w.misc.block ≠ b

/-- How writing `t` (or nothing) with the default boot `p` from `w` ends. -/
structure Ends (t : Option Block) (p : Option Text) (f : Faults) (w : World) (out : Exit × World) :
    Prop where
  failed : out.1.WriteFailed ↔ ∃ b ∈ t, MiscFails f w b ∨ ConfFails p f
  files : out.2.files = w.files
  conf : out.1.WriteFailed → out.2.conf = w.conf
  misc : out.1.WriteFailed → (out.2.misc = w.misc ↔ ∀ b ∈ t, ¬ Stuck f w b)

theorem Ends.stopped {e : Exit} (h : ¬ e.WriteFailed) : Ends none p f w (e, w) where
  failed := by simp [h]
  files := rfl
  conf := fun he => absurd he h
  misc := fun he => absurd he h

theorem Ends.of_same (h : Ends t p f w' out)
    (same : SameStores w w') : Ends t p f w out where
  failed := by simpa [MiscFails, same.misc] using h.failed
  files := h.files.trans same.files
  conf := fun he => (h.conf he).trans same.conf
  misc := fun he => by simpa [Stuck, MiscFails, same.misc] using h.misc he

/-! ## write_bc -/

theorem not_writeFailed_done : ¬ Exit.done.WriteFailed := by decide

theorem Misc.put_eq_self {m : Misc} : m.put b = m ↔ m.block = b := by
  constructor
  · intro h
    rw [← h, Misc.block_put]
  · rintro rfl
    exact m.put_block

theorem commitConf_ends (hmisc : ¬ MiscFails f w b) :
    Ends (some b) p f w (commitConf p w.misc.block f { w with misc := w.misc.put b }) := by
  cases p with
  | none =>
    refine ⟨?_, rfl, fun h => absurd h not_writeFailed_done, fun h => absurd h not_writeFailed_done⟩
    simp [commitConf, hmisc, ConfFails, Exit.WriteFailed]
  | some word =>
    by_cases hconf : f.conf
    · by_cases hundo : f.undo
      · simp only [commitConf, setConf, if_pos hconf, if_pos hundo]
        refine ⟨by simp [ConfFails, hconf, Exit.WriteFailed], rfl, fun _ => rfl, fun _ => ?_⟩
        simp [Stuck, hmisc, hundo, Misc.put_eq_self]
      · simp only [commitConf, setConf, if_pos hconf, if_neg hundo]
        refine ⟨by simp [ConfFails, hconf, Exit.WriteFailed], rfl, fun _ => rfl, fun _ => ?_⟩
        simp [Stuck, hundo]
    · simp only [commitConf, setConf, if_neg hconf]
      refine ⟨?_, rfl, fun h => absurd h not_writeFailed_done,
        fun h => absurd h not_writeFailed_done⟩
      simp [hmisc, ConfFails, hconf, Exit.WriteFailed]

theorem writeBc_ends (t : Option Block) : Ends t p f w (writeBc t p f w) := by
  cases t with
  | none => exact .stopped (by decide)
  | some b =>
    -- the two ways `misc` itself fails leave the world as it was
    have hfail : ∀ e : Exit, e.WriteFailed → MiscFails f w b → Ends (some b) p f w (e, w) :=
      fun e he hb => ⟨by simp [he, hb], rfl, fun _ => rfl, fun _ => by simp [Stuck, hb]⟩
    cases hm : f.misc with
    | reported =>
      simp only [writeBc, hm]
      exact hfail _ (by decide) (.inl hm)
    | silent =>
      simp only [writeBc, hm]
      by_cases hb : w.misc.block = b
      · rw [if_pos hb]
        have hput : w = { w with misc := w.misc.put b } := by rw [Misc.put_eq_self.2 hb]
        have hends := commitConf_ends (p := p) (f := f) (w := w) (b := b)
          (by simp [MiscFails, hm, hb])
        rwa [← hput] at hends
      · rw [if_neg hb]
        exact hfail _ (by decide) (.inr ⟨hm, hb⟩)
    | none =>
      simp only [writeBc, hm]
      exact commitConf_ends (by simp [MiscFails, hm])

/-! ## arm_linux -/

theorem clearBootTries_same (h : clearBootTries f w = some w') : SameStores w w' := by
  unfold clearBootTries at h
  split at h
  · cases h
    exact ⟨rfl, rfl, rfl⟩
  · next d hd =>
    split at h
    · cases h
    · cases h
      exact ⟨rfl, rfl, by simp [World.files, hd]⟩

theorem clearBootTries_eq_none : clearBootTries f w = none ↔ w.disk.isSome ∧ f.tries := by
  unfold clearBootTries
  split
  · next hd => simp [hd]
  · next d hd => simp [hd]

/-- The block behind the new count: the initramfs' own when it cannot be rebuilt. -/
def armed (r : Runtime) (n : ℕ) (succ : Bool) (f : Faults) : Option Block :=
  r.bcB.bind fun b =>
    if makeBcB r.linuxSlot b 2 0 ≠ b then some b
    else if f.temp then none else some (makeBcB r.linuxSlot b (n + 1) succ.toNat)

theorem armBlock_ends (n : ℕ) (succ : Bool) :
    Ends (armed r n succ f) p f w (armBlock r strict n succ p f w) := by
  unfold armed armBlock
  cases r.bcB with
  | none => exact .stopped (by cases f.temp <;> cases strict <;> decide)
  | some b =>
    simp only [Option.bind_some]
    split
    · -- the degraded arm fails in any case; as a failed write only when `write_bc` did
      have hends := writeBc_ends (p := p) (f := f) (w := w) (some b)
      have hnot : ¬ (if succ then Exit.notLocked else .degraded r.linuxSlot n).WriteFailed := by
        cases succ <;> simp [Exit.WriteFailed]
      split
      · next w' hw' =>
        rw [hw'] at hends
        exact ⟨(iff_of_false hnot not_writeFailed_done).trans hends.failed, hends.files,
          fun h => absurd h hnot, fun h => absurd h hnot⟩
      · next e w' _ hw' =>
        rwa [hw'] at hends
    · split
      · exact .stopped (by cases strict <;> decide)
      · exact writeBc_ends _

/-- The block `arm_linux` gets to write. -/
def armTarget (r : Runtime) (strict trial : Bool) (f : Faults) (w : World) : Option Block :=
  if strict ∧ w.disk.isSome ∧ f.tries then none
  else armed r w.attempts (w.lockWanted && !trial) f

theorem armLinux_ends :
    Ends (armTarget r strict trial f w) p f w (armLinux r strict trial p f w) := by
  unfold armTarget armLinux
  cases hclear : clearBootTries f w with
  | none =>
    have htries := clearBootTries_eq_none.1 hclear
    cases strict with
    | true =>
      simp only [htries, and_self, if_true]
      exact .stopped (by decide)
    | false =>
      exact armBlock_ends _ _
  | some w' =>
    have htries : ¬ (w.disk.isSome ∧ f.tries) := fun h => by
      rw [clearBootTries_eq_none.2 h] at hclear
      cases hclear
    rw [if_neg fun h => htries h.2]
    exact (armBlock_ends _ _).of_same (clearBootTries_same hclear)

/-! ## Commands -/

/-- The default boot that goes with a command, `PENDING_CONF`. -/
def pendingConf : Command → Option Text
  | .linux | .lock => some "linux"
  | .android => some "android"
  | _ => none

/-- The block a command gets to write. -/
def target (r : Runtime) (f : Faults) (w : World) : Command → Option Block
  | .linux => armTarget r true false f w
  | .android => r.bcA
  | .attempts n =>
    if n = [] ∨ attemptsDigit n = none ∨ w.disk.isNone ∨ ¬ w.defaultLinux then none
    else armTarget r false false f (saveAttempts n f w)
  | .lock => if w.disk.isNone then none else armTarget r true false f (saveLock true f w)
  | .unlock => if w.defaultLinux then armTarget r true false f (saveLock false f w) else none
  | .trial => if w.defaultLinux then armTarget r true true f w else none
  | .rearm => (clearBootTries f w).bind fun w' =>
      if w'.defaultLinux then armTarget r false false f w' else none

/-- A command's own file is saved before anything is armed, and is not what it was. -/
def FileChanged (f : Faults) (w : World) : Command → Prop
  | .attempts n => ¬ f.attempts ∧ ∃ d ∈ w.disk, d.bootAttempts ≠ some (line n)
  | .lock => ¬ f.lock ∧ ∃ d ∈ w.disk, d.bootLock = false
  | .unlock => ¬ f.lock ∧ ∃ d ∈ w.disk, d.bootLock
  | _ => False

/-- The failures that leave something changed: the block or the default boot cannot be
written, and either the command's own file is already another or `misc` stays written. -/
def HalfDone (r : Runtime) (cmd : Command) (f : Faults) (w : World) : Prop :=
  ¬ f.busy ∧ r.pairOk ∧ ∃ b ∈ target r f w cmd,
    (MiscFails f w b ∨ ConfFails (pendingConf cmd) f) ∧ (FileChanged f w cmd ∨ Stuck f w b)

@[simp] theorem saveAttempts_misc : (saveAttempts n f w).misc = w.misc := by
  unfold saveAttempts
  split <;> rfl

@[simp] theorem saveAttempts_conf : (saveAttempts n f w).conf = w.conf := by
  unfold saveAttempts
  split <;> rfl

@[simp] theorem saveLock_misc : (saveLock on f w).misc = w.misc := by
  unfold saveLock
  split <;> rfl

@[simp] theorem saveLock_conf : (saveLock on f w).conf = w.conf := by
  unfold saveLock
  split <;> rfl

theorem saveAttempts_files :
    (saveAttempts n f w).files ≠ w.files ↔ FileChanged f w (.attempts n) := by
  by_cases hf : f.attempts
  · simp [saveAttempts, FileChanged, hf]
  · cases hd : w.disk <;> simp [saveAttempts, FileChanged, World.files, hf, hd, eq_comm]

theorem saveLock_files :
    (saveLock on f w).files ≠ w.files ↔ FileChanged f w (if on then .lock else .unlock) := by
  by_cases hf : f.lock
  · cases on <;> simp [saveLock, FileChanged, hf]
  · cases hd : w.disk <;> cases on <;> simp [saveLock, FileChanged, World.files, hf, hd]

theorem defaultLinux_congr (h : w'.conf = w.conf) : w'.defaultLinux = w.defaultLinux := by
  rw [World.defaultLinux, World.defaultLinux, h]

theorem Ends.unchanged_iff (h : Ends t p f w' out) (hmisc : w'.misc = w.misc)
    (hconf : w'.conf = w.conf) : (out.1.WriteFailed → SameStores w out.2) ↔
      ¬ ∃ b ∈ t, (MiscFails f w b ∨ ConfFails p f) ∧ (w'.files ≠ w.files ∨ Stuck f w b) := by
  have hfailed := h.failed
  have hput := h.misc
  simp only [MiscFails, Stuck, hmisc] at hfailed hput
  constructor
  · rintro hsame ⟨b, hb, hfail, hchanged⟩
    have hwf := hfailed.2 ⟨b, hb, hfail⟩
    obtain ⟨hm, -, hfiles⟩ := hsame hwf
    rcases hchanged with hchanged | hstuck
    · exact hchanged (h.files.symm.trans hfiles)
    · exact (hput hwf).1 hm b hb hstuck
  · intro hnot hwf
    obtain ⟨b, hb, hfail⟩ := hfailed.1 hwf
    have hrest := fun hc => hnot ⟨b, hb, hfail, hc⟩
    refine ⟨(hput hwf).2 fun d hd hstuck => ?_, (h.conf hwf).trans hconf, ?_⟩
    · obtain rfl := Option.mem_unique hb hd
      exact hrest (.inr hstuck)
    · exact h.files.trans (not_not.1 fun hne => hrest (.inl hne))

theorem Ends.unchanged_iff_of_same (h : Ends t p f w' out) (same : SameStores w w') :
    (out.1.WriteFailed → SameStores w out.2) ↔
      ¬ ∃ b ∈ t, (MiscFails f w b ∨ ConfFails p f) ∧ (False ∨ Stuck f w b) := by
  simpa [same.files] using h.unchanged_iff same.misc same.conf

theorem command_unchanged_iff (cmd : Command) :
    ((command r f w cmd).1.WriteFailed → SameStores w (command r f w cmd).2) ↔
      ¬ ∃ b ∈ target r f w cmd,
        (MiscFails f w b ∨ ConfFails (pendingConf cmd) f) ∧
        (FileChanged f w cmd ∨ Stuck f w b) := by
  have self : SameStores w w := ⟨rfl, rfl, rfl⟩
  -- a command that stops before it writes a block
  have stop : ∀ {e : Exit} {v : World}, ¬ e.WriteFailed → ∀ {P : Block → Prop},
      (((e, v) : Exit × World).1.WriteFailed → SameStores w v) ↔
        ¬ ∃ b ∈ (none : Option Block), P b :=
    fun he _ => by simp [he]
  cases cmd with
  | linux => exact armLinux_ends.unchanged_iff_of_same self
  | android => exact (writeBc_ends _).unchanged_iff_of_same self
  | attempts n =>
    simp only [command, target, defaultLinux_congr (saveAttempts_conf n)]
    by_cases hn : n = []
    · simpa only [hn, true_or, if_true] using stop (by decide)
    by_cases hdigit : attemptsDigit n = none
    · simpa only [hn, hdigit, true_or, or_true, if_true, if_false] using stop (by decide)
    by_cases hdisk : w.disk.isNone
    · simpa only [hn, hdigit, hdisk, true_or, or_true, if_true, if_false] using stop (by decide)
    by_cases hlinux : w.defaultLinux
    · simp only [hn, hdigit, hdisk, hlinux, not_true, Bool.false_eq_true, or_self,
        if_true, if_false]
      simpa only [saveAttempts_files, pendingConf] using
        armLinux_ends.unchanged_iff (saveAttempts_misc n) (saveAttempts_conf n)
    · simpa only [hn, hdigit, hdisk, hlinux, Bool.false_eq_true, not_false_eq_true,
        or_true, if_true, if_false] using stop (by decide)
  | lock =>
    simp only [command, target]
    split_ifs
    · exact stop (by decide)
    · simpa only [saveLock_files, if_true, pendingConf] using
        armLinux_ends.unchanged_iff (saveLock_misc true) (saveLock_conf true)
  | unlock =>
    simp only [command, target, defaultLinux_congr (saveLock_conf _)]
    split_ifs
    · simpa only [saveLock_files, Bool.false_eq_true, if_false, pendingConf] using
        armLinux_ends.unchanged_iff (saveLock_misc false) (saveLock_conf false)
    · exact stop (by decide)
  | trial =>
    simp only [command, target]
    split_ifs
    · exact armLinux_ends.unchanged_iff_of_same self
    · exact stop (by decide)
  | rearm =>
    simp only [command, target]
    cases hclear : clearBootTries f w with
    | none => exact stop (by decide)
    | some w' =>
      simp only [Option.bind_some]
      split_ifs
      · exact armLinux_ends.unchanged_iff_of_same (clearBootTries_same hclear)
      · exact stop (by decide)

/-- A failed write leaves the next boots as they were exactly when it is not one that
comes after the command's own file or that `misc` does not come back from. -/
theorem failed_write_changes_nothing_iff (r : Runtime) (cmd : Command) (f : Faults) (w : World) :
    ((run r cmd f w).1.WriteFailed → SameStores w (run r cmd f w).2) ↔ ¬ HalfDone r cmd f w := by
  unfold run HalfDone
  by_cases hbusy : f.busy
  · simp [hbusy, Exit.WriteFailed]
  by_cases hpair : r.pairOk
  · simpa [hbusy, hpair] using command_unchanged_iff cmd
  · simp [hbusy, hpair, Exit.WriteFailed]

/-! ## A device with Linux on slot b -/

/-- Slot b's block with two tries, as the initramfs publishes it. -/
def sampleTrial : Block :=
  makeBcB .b ⟨[95, 98, 0, 0] ++ magic ++ [1, 2, 0, 0] ++ List.replicate 20 0, by decide⟩ 2 0

/-- An initramfs that published slot b and its block. -/
def sampleRuntime : Runtime := ⟨some ['b', '\n'], none, none, some sampleTrial, none, none⟩

/-- Android by default, nothing saved on the Linux disk yet. -/
def sampleWorld : World :=
  ⟨.blank, none, some ⟨none, false, none⟩⟩

set_option maxRecDepth 100000 in
/-- `lock` with a default boot that cannot be written: "nothing changed", says the script,
and `boot-lock` is there. -/
theorem lock_kept_after_failed_conf :
    (run sampleRuntime .lock { Faults.none with conf := true } sampleWorld).1 = .confPutBack ∧
      ¬ SameStores sampleWorld
        (run sampleRuntime .lock { Faults.none with conf := true } sampleWorld).2 :=
  ⟨by decide +kernel, fun h => absurd h.files (by decide +kernel)⟩

set_option maxRecDepth 100000 in
/-- `linux` has no file of its own: a `misc` that cannot be written changes nothing. -/
theorem linux_unchanged_after_failed_misc :
    (run sampleRuntime .linux { Faults.none with misc := .reported } sampleWorld).1 = .miscWrite ∧
      SameStores sampleWorld
        (run sampleRuntime .linux { Faults.none with misc := .reported } sampleWorld).2 := by
  have hexit : (run sampleRuntime .linux { Faults.none with misc := .reported } sampleWorld).1 =
      .miscWrite := by decide +kernel
  refine ⟨hexit, (failed_write_changes_nothing_iff _ _ _ _).2 ?_ (.inl hexit)⟩
  rintro ⟨-, -, b, -, -, hfile | hstuck⟩
  · exact hfile
  · exact hstuck.1 (.inl rfl)

end Mu300.NextBoot
