import Mu300.Online.Shrink

/-!
# What the host makes of an interrupted shrink

`tools/resume.py`, `online_state`: from the table on the disk and the size of the F2FS,
how far the worker got. The worker goes through one state for which the host has no name.

* `Inputs.hostState` — what it says of a disk the worker works on.
* `Inputs.BetweenCopies` — the backup table new, the primary still old.
-/

namespace Mu300.Online

open Bytes Crash List

/-- The words `online_state` returns. -/
inductive State : Type where
  | unchanged | shrunk | committed | unknown
  deriving DecidableEq

/-- The saved transaction: the tables in its backup directory and the F2FS it is about.
A missing key is `none`. -/
structure Transaction where
  gptHead : Buf
  gptTail : Buf
  gptNewHead : Buf
  gptNewTail : Buf
  fsUuid : Option (List Char)
  fsBlocks : Option ℤ
  fsTarget : Option ℤ

def onlineState (r : Transaction) (head tail : Buf) (fsBlocks : ℤ) (fsUuid : List Char) : State :=
  let old := (r.gptHead, r.gptTail)
  let new := (r.gptNewHead, r.gptNewTail)
  let now := (head, tail)
  if some fsUuid ≠ r.fsUuid then .unknown
  else if now = old ∧ some fsBlocks = r.fsBlocks then .unchanged
  else if now = old ∧ some fsBlocks = r.fsTarget then .shrunk
  else if now = new ∧ some fsBlocks = r.fsTarget then .committed
  else .unknown

namespace Inputs

/-- The transaction the installer saved for these inputs. -/
def transaction (inp : Inputs) : Transaction where
  gptHead := inp.oldFirst
  gptTail := inp.oldLast
  gptNewHead := inp.newFirst
  gptNewTail := inp.newLast
  fsUuid := some inp.uuid
  fsBlocks := some inp.expected
  fsTarget := some inp.target

/-- What the installer reads from the device, and `online_state` says of it. Without a
readable F2FS the size is -1 and the UUID empty. -/
def hostState (inp : Inputs) (w : World) : State :=
  let head := slice w.disk 0 inp.oldFirst.length
  let tail := slice w.disk inp.tail inp.oldLast.length
  match decode w.raw with
  | none => onlineState inp.transaction head tail (-1) []
  | some g => onlineState inp.transaction head tail g.blocks (hexUuid g.uuid)

/-- The backup copy is the new one, the primary still the old one. -/
def BetweenCopies (inp : Inputs) (w : World) : Prop :=
  Holds w inp.oldFirst 0 ∧ inp.oldFirst ≠ inp.newFirst ∧ Holds w inp.newLast inp.tail ∧
    inp.newLast ≠ inp.oldLast

instance (inp : Inputs) (w : World) : Decidable (inp.BetweenCopies w) :=
  inferInstanceAs (Decidable (_ ∧ _ ∧ _ ∧ _))

/-- The F2FS is the transaction's, at its old or at its target size. -/
def Fs (inp : Inputs) (raw : Buf) : Prop :=
  ∃ g, decode raw = some g ∧ hexUuid g.uuid = inp.uuid ∧
    (g.blocks = inp.expected ∨ g.blocks = inp.target)

/-- The host names the state, and names it committed just when the worker is done. -/
def Named (inp : Inputs) (w : World) : Prop :=
  inp.hostState w ≠ .unknown ∧ (inp.hostState w = .committed ↔ inp.Complete w)

/-! ## What the host says, table by table -/

variable {inp : Inputs} {w : World} {image : Buf}

theorem hostState_eq {g : Geometry} (hg : decode w.raw = some g) (huuid : hexUuid g.uuid = inp.uuid)
    {first last : Buf} (hfirst : slice w.disk 0 inp.oldFirst.length = first)
    (hlast : slice w.disk inp.tail inp.oldLast.length = last) :
    inp.hostState w = if (first, last) = (inp.oldFirst, inp.oldLast) ∧
      g.blocks = inp.expected then .unchanged
      else if (first, last) = (inp.oldFirst, inp.oldLast) ∧ g.blocks = inp.target then .shrunk
      else if (first, last) = (inp.newFirst, inp.newLast) ∧ g.blocks = inp.target then .committed
      else .unknown := by
  simp only [hostState, hg, onlineState, transaction, huuid, hfirst, hlast, ne_eq,
    not_true_eq_false, if_false, Option.some.injEq, Nat.cast_inj]

theorem slice_first (h : Holds w image 0)
    (hlen : inp.oldFirst.length = image.length) : slice w.disk 0 inp.oldFirst.length = image := by
  rw [hlen]
  exact h

theorem slice_last (h : Holds w image inp.tail) (hlen : inp.oldLast.length = image.length) :
    slice w.disk inp.tail inp.oldLast.length = image := by
  rw [hlen]
  exact h

variable (hne : (inp.oldFirst, inp.oldLast) ≠ (inp.newFirst, inp.newLast))
include hne

theorem named_of_old (hfirst : Holds w inp.oldFirst 0) (hlast : Holds w inp.oldLast inp.tail)
    (hfs : inp.Fs w.raw) : inp.Named w := by
  obtain ⟨g, hg, huuid, hsize⟩ := hfs
  have hstate := hostState_eq hg huuid (slice_first hfirst rfl) (slice_last hlast rfl)
  have hnot : ¬ inp.Complete w := by
    rintro ⟨hf, hl, -⟩
    exact hne (Prod.ext (hfirst.unique hf inp.first_length).symm
      (hlast.unique hl inp.last_length).symm)
  by_cases hex : g.blocks = inp.expected
  · rw [if_pos ⟨rfl, hex⟩] at hstate
    refine ⟨by rw [hstate]; nofun, iff_of_false (by rw [hstate]; nofun) hnot⟩
  · rw [if_neg (fun h => hex h.2), if_pos ⟨rfl, hsize.resolve_left hex⟩] at hstate
    refine ⟨by rw [hstate]; nofun, iff_of_false (by rw [hstate]; nofun) hnot⟩

theorem named_of_new (hfirst : Holds w inp.newFirst 0) (hlast : Holds w inp.newLast inp.tail)
    (hfs : inp.Fs w.raw) (hblocks : HasBlocks w inp.target) : inp.Named w := by
  obtain ⟨g, hg, huuid, -⟩ := hfs
  obtain ⟨g', hg', htarget⟩ := hblocks
  obtain rfl : g = g' := Option.some.inj (hg.symm.trans hg')
  have hstate := hostState_eq hg huuid (slice_first hfirst inp.first_length)
    (slice_last hlast inp.last_length)
  rw [if_neg (fun h => hne h.1.symm), if_neg (fun h => hne h.1.symm), if_pos ⟨rfl, htarget⟩]
    at hstate
  exact ⟨by rw [hstate]; nofun, iff_of_true hstate ⟨hfirst, hlast, g, hg, htarget⟩⟩

omit hne in
theorem hostState_of_betweenCopies (h : inp.BetweenCopies w) (hfs : inp.Fs w.raw) :
    inp.hostState w = .unknown := by
  obtain ⟨g, hg, huuid, -⟩ := hfs
  obtain ⟨hfirst, hfne, hlast, hlne⟩ := h
  rw [hostState_eq hg huuid (slice_first hfirst rfl) (slice_last hlast inp.last_length),
    if_neg (fun h => hlne (Prod.ext_iff.1 h.1).2), if_neg (fun h => hlne (Prod.ext_iff.1 h.1).2),
    if_neg (fun h => hfne (Prod.ext_iff.1 h.1).1)]

theorem named_iff {disk : Buf} (h : inp.Progress inp.Fs disk w) :
    inp.Named w ↔ ¬ inp.BetweenCopies w := by
  constructor
  · intro hnamed hbetween
    exact hnamed.1 (hostState_of_betweenCopies hbetween h.fs)
  · intro hbetween
    cases h.tables with
    | old hfirst hlast => exact named_of_old hne hfirst hlast h.fs
    | new hblocks hfirst hlast => exact named_of_new hne hfirst hlast h.fs hblocks
    | backup hblocks hfirst hlast =>
      -- one of the two images did not change: this is the old or the new table after all
      by_cases hf : inp.oldFirst = inp.newFirst
      · rw [hf] at hfirst
        exact named_of_new hne hfirst hlast h.fs hblocks
      · by_cases hl : inp.newLast = inp.oldLast
        · rw [hl] at hlast
          exact named_of_old hne hfirst hlast h.fs
        · exact absurd ⟨hfirst, hf, hlast, hl⟩ hbetween

end Inputs

/-! ## Every interrupted run -/

/-- What a resize leaves: the same filesystem at its target. -/
def Inputs.Resized (inp : Inputs) (e : Answer) : Prop :=
  ∃ g, decode e.raw = some g ∧ hexUuid g.uuid = inp.uuid ∧ g.blocks = inp.target

/-- Start the worker on the old table and the old size, interrupt it anywhere and as often
as you like, with a kernel that leaves the F2FS as it was or at the target, the same
filesystem: the host names the state, and names it committed exactly when both copies and
the F2FS are done, except between the two copies; and a run that reports its end as complete
leaves a state that the host names committed. -/
theorem hostState_iff_not_betweenCopies {argv : List (List Char)} {dir : Files} {inp : Inputs}
    (hinp : workerInputs argv dir = some inp)
    (hne : (inp.oldFirst, inp.oldLast) ≠ (inp.newFirst, inp.newLast))
    {w₀ : World} (hfirst : Holds w₀ inp.oldFirst 0) (hlast : Holds w₀ inp.oldLast inp.tail)
    (hfs : ∃ g, decode w₀.raw = some g ∧ hexUuid g.uuid = inp.uuid ∧ g.blocks = inp.expected)
    (runs : List (List Answer)) (hruns : ∀ es ∈ runs, ∀ e ∈ es, inp.Resized e) {w : World}
    (hw : restarts (worker argv dir) runs w₀ = w) :
    ((inp.hostState w ≠ .unknown ∧ (inp.hostState w = .committed ↔ inp.Complete w)) ↔
      ¬ inp.BetweenCopies w) ∧
    ∀ es w', (∀ e ∈ es, inp.Resized e) → exec (worker argv dir) es w = .done (.ended .complete) w' →
      inp.hostState w' = .committed := by
  obtain ⟨g, hg, huuid, hblocks⟩ := hfs
  have hstart : inp.Progress inp.Fs w₀.disk w₀ :=
    ⟨.old hfirst hlast, .refl _ _, g, hg, huuid, .inl hblocks⟩
  have hA : ∀ e, inp.Resized e → inp.Fs e.raw := by
    rintro e ⟨g, hg, huuid, hblocks⟩
    exact ⟨g, hg, huuid, .inr hblocks⟩
  have hnow : inp.Progress inp.Fs w₀.disk w := hw ▸ hstart.restarts hinp hA hruns
  refine ⟨Inputs.named_iff hne hnow, fun es w' hes hdone => ?_⟩
  have hend := exec_done_of_wp hes (wp_worker hA hnow hinp) hdone
  have hdone := hend.2 rfl
  exact (Inputs.named_of_new hne hdone.first hdone.last hend.1.fs hdone.blocks).2.2 hdone

section Sample

set_option maxRecDepth 1000000

theorem decode_sampleRaw : decode (sampleRaw 1048576) = some ⟨1048576, 512, replicate 16 0xab⟩ ∧
    decode (sampleRaw 524288) = some ⟨524288, 512, replicate 16 0xab⟩ := by
  decide +kernel

theorem resized_sampleAnswer : sampleInputs.Resized sampleAnswer :=
  ⟨_, decode_sampleRaw.2, by decide +kernel, rfl⟩

/-- A run that is cut off after the resize is named as shrunk; and one that was cut off between
the copies is named as committed once another run has finished it. -/
theorem hostState_iff_not_betweenCopies_sample :
    (∃ w, restarts (worker sampleArgv sampleFiles) [replicate 17 sampleAnswer] sampleWorld = w ∧
      (sampleInputs.hostState w ≠ .unknown ∧
        (sampleInputs.hostState w = .committed ↔ sampleInputs.Complete w)) ∧
      sampleInputs.hostState w = .shrunk) ∧
    ∃ w, exec (worker sampleArgv sampleFiles) (replicate 40 sampleAnswer) sampleCut =
      .done (.ended .complete) w ∧ sampleInputs.hostState w = .committed := by
  have hes : ∀ n, ∀ e ∈ replicate n sampleAnswer, sampleInputs.Resized e := fun n e he => by
    rw [eq_of_mem_replicate he]
    exact resized_sampleAnswer
  have hsafe := fun n => hostState_iff_not_betweenCopies workerInputs_sample (by decide +kernel)
    holds_sampleWorld.1 holds_sampleWorld.2 ⟨_, decode_sampleRaw.1, by decide +kernel, rfl⟩
    [replicate n sampleAnswer] (by simpa using hes n) rfl
  have hdone := Outcome.eq_done sampleCut_resumes
  exact ⟨⟨_, rfl, (hsafe 17).1.2 (by decide +kernel), by decide +kernel⟩,
    _, hdone, (hsafe 22).2 _ _ (hes 40) hdone⟩

/-- From the old table and the old size, cut off after the backup copy was written and read
back: the host cannot tell where the shrink got to, and the worker would finish it. -/
theorem hostState_unknown_between_copies :
    Holds sampleWorld sampleInputs.oldFirst 0 ∧
    Holds sampleWorld sampleInputs.oldLast sampleInputs.tail ∧
      decode sampleWorld.raw = some ⟨1048576, 512, replicate 16 0xab⟩ ∧
      decode sampleAnswer.raw = some ⟨524288, 512, replicate 16 0xab⟩ ∧
      sampleInputs.hostState (restarts (worker sampleArgv sampleFiles)
        [replicate 22 sampleAnswer] sampleWorld) = .unknown ∧
      (exec (worker sampleArgv sampleFiles) (replicate 40 sampleAnswer)
        (restarts (worker sampleArgv sampleFiles) [replicate 22 sampleAnswer]
          sampleWorld)).result = some (.ended .complete) :=
  ⟨holds_sampleWorld.1, holds_sampleWorld.2, decode_sampleRaw.1, decode_sampleRaw.2,
    by decide +kernel, sampleCut_resumes⟩

end Sample

end Mu300.Online
