import Mu300.Online.Worker

/-!
# An interrupted shrink never leaves a partition smaller than its filesystem

The argument is one invariant, `Progress`: the tables are both old, or the backup is
new, or both are new, and the last two only with the F2FS at its target. Every step of
the worker keeps it, so every cut and every later run keeps it (`restarts_of_wp`).

* `Inputs.AtTarget` is what `commitTables` needs, and what `shrink` or the first read of
  the geometry gives.
-/

namespace Mu300.Online

open Bytes Crash Crash.Prog List

/-! ## What the disk shows -/

/-- The disk holds `image` at `pos`. -/
def Holds (w : World) (image : Buf) (pos : ℕ) : Prop := slice w.disk pos image.length = image

instance (w : World) (image : Buf) (pos : ℕ) : Decidable (Holds w image pos) :=
  inferInstanceAs (Decidable (_ = _))

/-- The F2FS decodes and has exactly `n` blocks. -/
def HasBlocks (w : World) (n : ℕ) : Prop := ∃ g, decode w.raw = some g ∧ g.blocks = n

namespace Inputs

/-- The bytes of the two copies of the table. -/
def tables (inp : Inputs) : Set ℕ :=
  Set.Ico 0 inp.oldFirst.length ∪ Set.Ico inp.tail (inp.tail + inp.oldLast.length)

/-- How far the tables got: both old, the backup new, both new. -/
inductive Tables (inp : Inputs) (w : World) : Prop where
  | old : Holds w inp.oldFirst 0 → Holds w inp.oldLast inp.tail → Tables inp w
  | backup : HasBlocks w inp.target → Holds w inp.oldFirst 0 →
    Holds w inp.newLast inp.tail → Tables inp w
  | new : HasBlocks w inp.target → Holds w inp.newFirst 0 →
    Holds w inp.newLast inp.tail → Tables inp w

/-- The invariant: how far the tables got, on a disk that is `disk` apart from them. `F`
is whatever else is known of the superblocks the kernel leaves. -/
structure Progress (inp : Inputs) (F : Buf → Prop) (disk : Buf) (w : World) : Prop where
  tables : inp.Tables w
  frame : SameOutside inp.tables disk w.disk
  fs : F w.raw

/-- The invariant with the F2FS known to be at its target. -/
structure AtTarget (inp : Inputs) (F : Buf → Prop) (disk : Buf) (w : World) : Prop extends
    Progress inp F disk w where
  blocks : HasBlocks w inp.target

/-- Both copies new and the F2FS at its target. -/
structure Complete (inp : Inputs) (w : World) : Prop where
  first : Holds w inp.newFirst 0
  last : Holds w inp.newLast inp.tail
  blocks : HasBlocks w inp.target

end Inputs

/-! ## Rules for the calls -/

section Calls

variable {A : Answer → Prop} {C : World → Prop} {w : World} {Q : Bool → World → Prop}
  {phase : Phase} {error : ℕ}

section

variable (hC : C w)

include hC

theorem wp_call (h : ∀ b, Q b w) : wp A C Q call w :=
  ⟨hC, fun e _ => h e.ok⟩

theorem wp_syncfs {Q : Option ℕ → World → Prop} (h : ∀ r, Q r w) :
    wp A C Q syncfs w := ⟨hC, fun _ _ => h _⟩

theorem wp_synced (h : ∀ b, Q b w) : wp A C Q synced w :=
  ⟨hC, fun _ _ => h _⟩

theorem wp_receipt {Q : Unit → World → Prop}
    (h : ∀ status, Q () { w with status }) : wp A C Q (receipt phase error) w := by
  rw [receipt, wp_op]
  refine ⟨hC, fun e _ => ?_⟩
  by_cases hok : e.ok
  · rw [if_pos hok]
    exact h _
  · rw [if_neg hok]
    exact h w.status

theorem wp_finish {Q : Exit → World → Prop}
    (h : ∀ status, Q (.ended phase) { w with status }) : wp A C Q (finish phase error) w := by
  rw [finish, wp_bind]
  exact wp_receipt hC h

theorem wp_matches {image : Buf} {pos : ℕ}
    (htrue : Holds w image pos → Q true w) (hfalse : Q false w) :
    wp A C Q (matches? image pos) w := by
  rw [matches?, wp_look]
  refine ⟨hC, fun e _ => ?_⟩
  cases hm : e.ok && decide (slice w.disk pos image.length = image) with
  | false => exact hfalse
  | true =>
    rw [Bool.and_eq_true, decide_eq_true_eq] at hm
    exact htrue hm.2

theorem wp_readGeometry {Q : Except ℕ Geometry → World → Prop}
    (hok : ∀ g, decode w.raw = some g → Q (.ok g) w) (herror : ∀ n, Q (.error n) w) :
    wp A C Q readGeometry w := by
  rw [readGeometry, wp_look]
  refine ⟨hC, fun e _ => ?_⟩
  by_cases hread : e.ok
  · rw [if_pos hread]
    cases hd : decode w.raw with
    | none => exact herror einval
    | some g => exact hok g hd
  · rw [if_neg hread]
    exact herror e.errno

theorem wp_resizeFs {Q : Bool × ℕ → World → Prop}
    (hstays : ∀ rc, Q rc w) (htook : ∀ e, A e → ∀ rc, Q rc { w with raw := e.raw }) :
    wp A C Q resizeFs w := by
  rw [resizeFs, wp_op]
  refine ⟨hC, fun e he => ?_⟩
  by_cases ht : e.took
  · rw [if_pos ht]
    exact htook e he _
  · rw [if_neg ht]
    exact hstays _

end

section

variable {Q : Bool → World → Prop} {image : Buf} {pos : ℕ}

theorem wp_pwrite (hC : C w)
    (hstays : ∀ b, Q b w) (htook : ∀ b, Q b { w with disk := poke w.disk pos image }) :
    wp A C Q (pwrite image pos) w := by
  rw [pwrite, wp_op]
  refine ⟨hC, fun e _ => ?_⟩
  by_cases ht : e.took
  · rw [if_pos ht]
    exact htook _
  · rw [if_neg ht]
    exact hstays _

theorem wp_both {a b : Prog Answer World Bool}
    (h : wp A C (fun x w => if x then wp A C Q b w else Q false w) a w) :
    wp A C Q (both a b) w := by
  refine wp_seq h fun x w' hx => ?_
  cases x <;> exact hx

theorem wp_either {a b : Prog Answer World Bool}
    (h : wp A C (fun x w => if x then Q true w else wp A C Q b w) a w) :
    wp A C Q (either a b) w := by
  refine wp_seq h fun x w' hx => ?_
  cases x <;> exact hx

/-- Committing an image: the disk is untouched or holds it, and holds it for certain when
the call says so. -/
theorem wp_commitImage (hC : C w) (hC' : C { w with disk := poke w.disk pos image })
    (hfalse : Q false w) (hfalse' : Q false { w with disk := poke w.disk pos image })
    (htrue : Holds w image pos → Q true w)
    (htrue' : Q true { w with disk := poke w.disk pos image }) :
    wp A C Q (commitImage image pos) w := by
  -- what follows the write, from either disk
  have hrest : ∀ w', C w' → Q false w' → (Holds w' image pos → Q true w') → ∀ b : Bool, wp A C Q (do
        if ¬ b then return false
        if ¬ (← call) then return false
        matches? image pos) w' := by
    intro w' hCw hf ht b
    cases b with
    | false => exact hf
    | true =>
      simp only [not_true_eq_false, if_false, wp_bind]
      refine wp_call hCw fun b' => ?_
      cases b' with
      | false => exact hf
      | true => exact wp_matches hCw ht hf
  exact wp_pwrite hC (hrest w hC hfalse htrue) (hrest _ hC' hfalse' fun _ => htrue')

end

end Calls

/-! ## Writing a table -/

section Tables

variable {inp : Inputs} {F : Buf → Prop} {disk image : Buf} {w w' : World} {pos : ℕ}

theorem Inputs.Tables.congr (h : inp.Tables w) (hd : w'.disk = w.disk) (hr : w'.raw = w.raw) :
    inp.Tables w' := by
  have hholds : ∀ image pos, Holds w image pos → Holds w' image pos := by
    intro image pos h
    rw [Holds, hd]
    exact h
  have hblocks : ∀ n, HasBlocks w n → HasBlocks w' n := by
    intro n h
    rw [HasBlocks, hr]
    exact h
  cases h with
  | old hf hl => exact .old (hholds _ _ hf) (hholds _ _ hl)
  | backup hb hf hl => exact .backup (hblocks _ hb) (hholds _ _ hf) (hholds _ _ hl)
  | new hb hf hl => exact .new (hblocks _ hb) (hholds _ _ hf) (hholds _ _ hl)

theorem Inputs.Progress.status (h : inp.Progress F disk w) (status : Option Receipt) :
    inp.Progress F disk { w with status } := ⟨h.tables.congr rfl rfl, h.frame, h.fs⟩

theorem Inputs.AtTarget.status (h : inp.AtTarget F disk w) (status : Option Receipt) :
    inp.AtTarget F disk { w with status } := ⟨h.toProgress.status status, h.blocks⟩

theorem holds_poke_self (hfit : pos + image.length ≤ w.disk.length) :
    Holds { w with disk := poke w.disk pos image } image pos := slice_poke_self rfl hfit

theorem holds_poke_apart {other : Buf} {pos' : ℕ} (hfit : pos + image.length ≤ w.disk.length)
    (hapart : pos + image.length ≤ pos' ∨ pos' + other.length ≤ pos) :
    Holds { w with disk := poke w.disk pos image } other pos' ↔ Holds w other pos' := by
  have hslice : slice (poke w.disk pos image) pos' other.length =
      slice w.disk pos' other.length := by
    refine (SameOutside.of_poke hfit).slice_eq fun i hlo hhi hmem => ?_
    rw [Set.mem_Ico] at hmem
    omega
  rw [Holds, Holds, hslice]

theorem Inputs.frame_poke (h : SameOutside inp.tables disk w.disk)
    (hfit : pos + image.length ≤ w.disk.length)
    (hin : Set.Ico pos (pos + image.length) ⊆ inp.tables) :
    SameOutside inp.tables disk (poke w.disk pos image) := by
  have hboth := h.trans (.of_poke hfit)
  rwa [Set.union_eq_left.2 hin] at hboth

theorem Inputs.AtTarget.writeLast (h : inp.AtTarget F disk w)
    (hlen : w.disk.length = inp.diskBytes) :
    inp.AtTarget F disk { w with disk := poke w.disk inp.tail inp.newLast } ∧
      Holds { w with disk := poke w.disk inp.tail inp.newLast } inp.newLast inp.tail := by
  have hends := inp.ends
  have hlast := inp.last_length
  have hfit : inp.tail + inp.newLast.length ≤ w.disk.length := by omega
  have hself : Holds _ inp.newLast inp.tail := holds_poke_self hfit
  have hfirst : ∀ image : Buf, image.length = inp.oldFirst.length →
      (Holds { w with disk := poke w.disk inp.tail inp.newLast } image 0 ↔ Holds w image 0) := by
    intro image himage
    have := inp.apart
    exact holds_poke_apart hfit (.inr (by omega))
  have hframe := Inputs.frame_poke h.frame hfit
    (by rw [← hlast]; exact Set.subset_union_right)
  refine ⟨⟨⟨?_, hframe, h.fs⟩, h.blocks⟩, hself⟩
  cases h.tables with
  | old hf _ => exact .backup h.blocks ((hfirst _ rfl).2 hf) hself
  | backup _ hf _ => exact .backup h.blocks ((hfirst _ rfl).2 hf) hself
  | new _ hf _ => exact .new h.blocks ((hfirst _ inp.first_length.symm).2 hf) hself

theorem Inputs.AtTarget.writeFirst (h : inp.AtTarget F disk w)
    (hlen : w.disk.length = inp.diskBytes) (hlast : Holds w inp.newLast inp.tail) :
    inp.AtTarget F disk { w with disk := poke w.disk 0 inp.newFirst } ∧
      inp.Complete { w with disk := poke w.disk 0 inp.newFirst } := by
  have hends := inp.ends
  have hapart := inp.apart
  have hfirst := inp.first_length
  have hfit : 0 + inp.newFirst.length ≤ w.disk.length := by omega
  have hself : Holds _ inp.newFirst 0 := holds_poke_self hfit
  have hlast' := (holds_poke_apart hfit (.inl (by omega))).2 hlast
  have hframe := Inputs.frame_poke h.frame hfit
    (by rw [← hfirst, Nat.zero_add]; exact Set.subset_union_left)
  exact ⟨⟨⟨.new h.blocks hself hlast', hframe, h.fs⟩, h.blocks⟩, ⟨hself, hlast', h.blocks⟩⟩

end Tables

/-! ## The parts of the command -/

section Parts

variable {A : Answer → Prop} {inp : Inputs} {F : Buf → Prop} {disk : Buf} {w : World}
  {C : World → Prop} {Q : Bool → World → Prop} {g : Geometry} {dir : Files}

/-- What the command owes at its end. -/
def Inputs.Outcome (inp : Inputs) (F : Buf → Prop) (disk : Buf) (x : Exit) (w : World) : Prop :=
  inp.Progress F disk w ∧ (x = .ended .complete → inp.Complete w)

theorem Inputs.Outcome.of_ne {x : Exit} (h : inp.Progress F disk w) (hx : x ≠ .ended .complete) :
    inp.Outcome F disk x w := ⟨h, fun hx' => absurd hx' hx⟩

theorem wp_finish_of_ne {phase : Phase} {error : ℕ} (h : inp.Progress F disk w)
    (hphase : phase ≠ .complete) :
    wp A (inp.Progress F disk) (inp.Outcome F disk) (finish phase error) w := by
  refine wp_finish h fun status => .of_ne (h.status status) ?_
  rintro ⟨⟩
  exact hphase rfl

theorem wp_unless {x : Exit} {rest : Prog Answer World Exit} (h : inp.Progress F disk w)
    (hx : x ≠ .ended .complete) (hrest : wp A (inp.Progress F disk) (inp.Outcome F disk) rest w) :
    wp A (inp.Progress F disk) (inp.Outcome F disk) (do
      if ¬ (← call) then return x
      rest) w := by
  rw [wp_bind]
  refine wp_call h fun b => ?_
  cases b with
  | false => exact .of_ne h hx
  | true => exact hrest

theorem wp_commitTables (h : inp.AtTarget F disk w) (hlen : w.disk.length = inp.diskBytes) :
    wp A (inp.Progress F disk) (inp.Outcome F disk) (commitTables inp) w := by
  rw [commitTables, wp_bind]
  refine wp_receipt h.toProgress fun status => ?_
  replace h := h.status status
  replace hlen : ({ w with status } : World).disk.length = inp.diskBytes := hlen
  generalize ({ w with status } : World) = w at h hlen
  rw [wp_bind]
  -- the disk after the write of the backup copy, by whatever way it came to hold it
  have hsecond : ∀ w, inp.AtTarget F disk w → w.disk.length = inp.diskBytes →
      Holds w inp.newLast inp.tail →
      wp A (inp.Progress F disk) (fun x w => if x then inp.AtTarget F disk w ∧ inp.Complete w
        else inp.Progress F disk w) (commitImage inp.newFirst 0) w := by
    intro w h hlen hlast
    obtain ⟨hwrite, hdone⟩ := h.writeFirst hlen hlast
    exact wp_commitImage h.toProgress hwrite.toProgress h.toProgress hwrite.toProgress
      (fun hfirst => ⟨h, hfirst, hlast, h.blocks⟩) ⟨hwrite, hdone⟩
  have hboth : wp A (inp.Progress F disk)
    (fun x w => if x then inp.AtTarget F disk w ∧ inp.Complete w
      else inp.Progress F disk w)
      (both synced (both (commitImage inp.newLast inp.tail) (commitImage inp.newFirst 0))) w := by
    refine wp_both (wp_synced h.toProgress fun b => ?_)
    cases b with
    | false => exact h.toProgress
    | true =>
      obtain ⟨hwrite, hlast⟩ := h.writeLast hlen
      have hlen' := hwrite.frame.1.trans (h.frame.1.symm.trans hlen)
      exact wp_both (wp_commitImage h.toProgress hwrite.toProgress h.toProgress hwrite.toProgress
        (hsecond w h hlen) (hsecond _ hwrite hlen' hlast))
  refine wp_mono (fun _ h => h) (fun x w hx => ?_) hboth
  cases x with
  | false => exact wp_finish_of_ne hx (by decide)
  | true =>
    obtain ⟨hat, hdone⟩ := hx
    refine wp_finish hat.toProgress fun status => ⟨hat.toProgress.status status, fun _ => ?_⟩
    exact ⟨hdone.first, hdone.last, hdone.blocks⟩

/-- What the shrink owes: an end that left both copies old, or the F2FS at its target. -/
def Inputs.Shrunk (inp : Inputs) (F : Buf → Prop) (disk : Buf) (w : World) :
    Option Exit → World → Prop
  | none, w' => inp.AtTarget F disk w' ∧ w'.disk = w.disk
  | some x, w' => inp.Outcome F disk x w'

section Shrink

variable (h : inp.Progress F disk w) (hfirst : Holds w inp.oldFirst 0)
  (hlast : Holds w inp.oldLast inp.tail) {raw : Buf}
include h hfirst hlast

theorem Inputs.Progress.anyRaw (hraw : F raw) (status : Option Receipt) :
    inp.Progress F disk { w with raw, status } := ⟨.old hfirst hlast, h.frame, hraw⟩

theorem wp_shrink_end (hraw : F raw) (status : Option Receipt) {phase : Phase} {error : ℕ}
    (hphase : phase ≠ .complete) :
    wp A (inp.Progress F disk) (inp.Shrunk F disk w) (do return some (← finish phase error))
      { w with raw, status } := by
  exact wp_finish_of_ne (h.anyRaw hfirst hlast hraw status) hphase

theorem wp_readBack (hraw : F raw) (status : Option Receipt) (rc : Bool) (error : ℕ) :
    wp A (inp.Progress F disk) (inp.Shrunk F disk w) (readBack inp rc error)
      { w with raw, status } := by
  have hany := h.anyRaw hfirst hlast hraw status
  rw [readBack, wp_bind]
  refine wp_readGeometry hany (fun g hg => ?_) fun n =>
    wp_shrink_end h hfirst hlast hraw status (by decide)
  dsimp only
  by_cases hun : g.blocks = inp.expected ∧ rc = false
  · rw [if_pos hun]
    exact wp_shrink_end h hfirst hlast hraw status (by decide)
  · by_cases htarget : g.blocks = inp.target
    · rw [if_neg hun, if_neg (not_not.2 htarget)]
      exact ⟨⟨hany, g, hg, htarget⟩, rfl⟩
    · rw [if_neg hun, if_pos htarget]
      exact wp_shrink_end h hfirst hlast hraw status (by decide)

/-- The shrink starts with both copies old, and hands over with the F2FS at its target. -/
theorem wp_shrink (hA : ∀ e, A e → F e.raw) :
    wp A (inp.Progress F disk) (inp.Shrunk F disk w) (shrink inp) w := by
  rw [shrink, wp_bind]
  refine wp_receipt h fun status => ?_
  rw [wp_bind]
  have hany := h.anyRaw hfirst hlast h.fs status
  refine wp_syncfs hany fun r => ?_
  cases r with
  | some error => exact wp_shrink_end h hfirst hlast h.fs status (by decide)
  | none =>
    -- whatever the ioctl leaves of the superblocks, both copies are still old
    exact wp_resizeFs hany (fun rc => wp_readBack h hfirst hlast h.fs status rc.1 rc.2)
      fun e he rc => wp_readBack h hfirst hlast (hA e he) status rc.1 rc.2

end Shrink

theorem wp_identity {Q : Option (Geometry × Volume) → World → Prop} (hC : C w) (hnone : Q none w)
    (hsome : ∀ g volume, decode w.raw = some g → w.disk.length = inp.diskBytes →
      inp.target < inp.expected → Q (some (g, volume)) w) : wp A C Q (identity inp) w := by
  rw [identity, wp_look]
  refine ⟨hC, fun e _ => ?_⟩
  split
  · rename_i volume mapped g _ _ hread
    split
    · exact hnone
    · rename_i hchecks
      simp only [not_or, not_not, not_le] at hchecks
      obtain ⟨-, -, -, -, -, -, -, hlen, -, htarget, -⟩ := hchecks
      by_cases hok : e.ok
      · rw [if_pos hok] at hread
        exact hsome g volume hread hlen htarget
      · rw [if_neg hok] at hread
        cases hread
  · exact hnone

/-- The second question of a conjunction of reads is only asked where the first said yes. -/
theorem wp_mayShrink {volume : Volume}
    (hC : C w) (hfalse : Q false w)
    (htrue : Holds w inp.oldFirst 0 → Holds w inp.oldLast inp.tail → Q true w) :
    wp A C Q (mayShrink inp g volume) w := by
  refine wp_both (wp_both (wp_matches hC (fun hfirst => ?_) hfalse))
  refine wp_matches hC (fun hlast => ?_) hfalse
  cases roomFor inp g volume with
  | false => exact hfalse
  | true => exact htrue hfirst hlast

theorem wp_knownTables (hC : C w) (h : ∀ b, Q b w) : wp A C Q (knownTables inp) w := by
  have hlast : wp A C Q
      (either (matches? inp.oldLast inp.tail) (matches? inp.newLast inp.tail)) w :=
    wp_either (wp_matches hC (fun _ => h true) (wp_matches hC (fun _ => h true) (h false)))
  exact wp_both (wp_either (wp_matches hC (fun _ => hlast)
    (wp_matches hC (fun _ => hlast) (h false))))

theorem wp_loadInputs {Q : Option Inputs → World → Prop} {v : Values} (hC : C w) (hnone : Q none w)
    (hsome : Q (inputs? v (checkImage dir.oldFirst) (checkImage dir.oldLast)
      (checkImage dir.newFirst) (checkImage dir.newLast)) w) : wp A C Q (loadInputs v dir) w := by
  have hload : ∀ (file : Option Buf) (k : Option Buf → Prog Answer World (Option Inputs)),
      (∀ a, a = none ∨ a = checkImage file → wp A C Q (k a) w) →
      wp A C Q (loadImage file >>= k) w := by
    intro file k hk
    refine ⟨hC, fun e _ => hk _ ?_⟩
    by_cases hok : e.ok
    · exact .inr (if_pos hok)
    · exact .inl (if_neg hok)
  refine hload _ _ fun a ha => hload _ _ fun b hb => hload _ _ fun d hd => hload _ _ fun e he => ?_
  -- one image that is not had is enough for no inputs
  rcases ha with rfl | rfl
  · exact hnone
  rcases hb with rfl | rfl
  · cases checkImage dir.oldFirst <;> exact hnone
  rcases hd with rfl | rfl
  · cases checkImage dir.oldFirst <;> cases checkImage dir.oldLast <;> exact hnone
  rcases he with rfl | rfl
  · cases checkImage dir.oldFirst <;> cases checkImage dir.oldLast <;>
      cases checkImage dir.newFirst <;> exact hnone
  exact hsome

variable (hA : ∀ e, A e → F e.raw) (h : inp.Progress F disk w)

include hA h

section

variable (hlen : w.disk.length = inp.diskBytes) (hg : decode w.raw = some g)
  (hold : g.blocks = inp.expected → Holds w inp.oldFirst 0 ∧ Holds w inp.oldLast inp.tail)
  (hsize : g.blocks = inp.expected ∨ g.blocks = inp.target)

include hlen hg hold hsize

theorem wp_detached : wp A (inp.Progress F disk) (inp.Outcome F disk) (detached inp g) w := by
  rw [detached]
  by_cases hex : g.blocks = inp.expected
  · obtain ⟨hfirst, hlast⟩ := hold hex
    simp only [hex, if_true, wp_bind]
    refine wp_mono (fun _ h => h) (fun x w' hx => ?_) (wp_shrink h hfirst hlast hA)
    cases x with
    | some y => exact hx
    | none => exact wp_commitTables hx.1 (by rw [hx.2]; exact hlen)
  · have htarget := hsize.resolve_left hex
    simp only [hex, if_false]
    exact wp_commitTables ⟨h, g, hg, htarget⟩ hlen

theorem wp_launch : wp A (inp.Progress F disk) (inp.Outcome F disk) (launch inp g) w := by
  rw [launch]
  exact wp_unless h (by decide) (wp_unless h (by decide) (wp_detached hA h hlen hg hold hsize))

end

theorem wp_body : wp A (inp.Progress F disk) (inp.Outcome F disk) (body inp) w := by
  rw [body, wp_bind]
  refine wp_identity h (.of_ne h (by decide)) fun g volume hg hlen htarget => ?_
  dsimp only
  split
  · exact .of_ne h (by decide)
  · rename_i hstale
    simp only [not_or, not_and_or, not_not, ne_eq] at hstale
    rw [wp_bind]
    refine wp_knownTables h fun known => ?_
    cases known with
    | false => exact .of_ne h (by decide)
    | true =>
      by_cases hex : g.blocks = inp.expected
      · simp only [not_true_eq_false, if_false, hex, if_true, wp_bind]
        refine wp_mayShrink h (.of_ne h (by decide)) fun hfirst hlast => ?_
        exact wp_launch hA h hlen hg (fun _ => ⟨hfirst, hlast⟩) (.inl hex)
      · simp only [not_true_eq_false, if_false, hex]
        exact wp_launch hA h hlen hg (fun hex' => absurd hex' hex) hstale.2

theorem wp_worker {argv : List (List Char)} (hinp : workerInputs argv dir = some inp) :
    wp A (inp.Progress F disk) (inp.Outcome F disk) (worker argv dir) w := by
  cases hv : workerValues argv with
  | error x =>
    rw [workerInputs, hv] at hinp
    cases hinp
  | ok v =>
    simp only [workerInputs, hv] at hinp
    simp only [worker, hv]
    refine wp_unless h (by decide) (wp_unless h (by decide) ?_)
    rw [wp_bind]
    refine wp_loadInputs h (.of_ne h (by decide)) ?_
    rw [hinp]
    exact wp_body hA h

end Parts

/-! ## Runs -/

variable {w : World}

theorem Inputs.Progress.restarts {A : Answer → Prop} {F : Buf → Prop} {inp : Inputs} {disk : Buf}
    (h : inp.Progress F disk w) {argv : List (List Char)} {dir : Files}
    (hinp : workerInputs argv dir = some inp) (hA : ∀ e, A e → F e.raw)
    {runs : List (List Answer)} (hruns : ∀ es ∈ runs, ∀ e ∈ es, A e) :
    inp.Progress F disk (restarts (worker argv dir) runs w) := by
  refine restarts_of_wp (fun s hs => ?_) hruns h
  exact wp_mono (fun _ h => h) (fun _ _ h => h.1) (wp_worker hA hs hinp)

theorem Holds.unique {image image' : Buf} {pos : ℕ} (h : Holds w image pos)
    (h' : Holds w image' pos) (hlen : image.length = image'.length) : image' = image := by
  rw [Holds, hlen] at h
  exact h'.symm.trans h

/-- **No interrupted shrink leaves a partition smaller than its filesystem.** From old
tables, over any number of runs of the worker, each against any answers and cut off
anywhere: each copy of the table is the old or the new one; where a copy is the new one
the F2FS has exactly its target size; nothing else on the disk changed; and a run from
there that ends as complete leaves both copies new and the F2FS at its target. -/
theorem worker_restarts_safe {argv : List (List Char)} {dir : Files} {inp : Inputs}
    (hinp : workerInputs argv dir = some inp) {w₀ : World} (hfirst : Holds w₀ inp.oldFirst 0)
    (hlast : Holds w₀ inp.oldLast inp.tail) (runs : List (List Answer)) {w : World}
    (hw : restarts (worker argv dir) runs w₀ = w) :
    (Holds w inp.oldFirst 0 ∨ Holds w inp.newFirst 0) ∧
      (Holds w inp.oldLast inp.tail ∨ Holds w inp.newLast inp.tail) ∧
      ((Holds w inp.newFirst 0 ∧ inp.newFirst ≠ inp.oldFirst) ∨
        (Holds w inp.newLast inp.tail ∧ inp.newLast ≠ inp.oldLast) → HasBlocks w inp.target) ∧
      SameOutside inp.tables w₀.disk w.disk ∧
      ∀ answers w', exec (worker argv dir) answers w = .done (.ended .complete) w' →
        Holds w' inp.newFirst 0 ∧ Holds w' inp.newLast inp.tail ∧ HasBlocks w' inp.target := by
  have hstart : inp.Progress (fun _ => True) w₀.disk w₀ := ⟨.old hfirst hlast, .refl _ _, trivial⟩
  have hw : inp.Progress (fun _ => True) w₀.disk w := by
    rw [← hw]
    exact hstart.restarts hinp (A := fun _ => True) (fun _ _ => trivial) (fun _ _ _ _ => trivial)
  refine ⟨?_, ?_, ?_, hw.frame, ?_⟩
  · cases hw.tables with
    | old hf _ => exact .inl hf
    | backup _ hf _ => exact .inl hf
    | new _ hf _ => exact .inr hf
  · cases hw.tables with
    | old _ hl => exact .inl hl
    | backup _ _ hl | new _ _ hl => exact .inr hl
  · intro hnew
    cases hw.tables with
    | backup hb _ _ | new hb _ _ => exact hb
    | old hf hl =>
      -- both copies are old: a copy that is the new one as well is no other image
      rcases hnew with ⟨hf', hne⟩ | ⟨hl', hne⟩
      · exact absurd (hf.unique hf' inp.first_length) hne
      · exact absurd (hl.unique hl' inp.last_length) hne
  · intro answers w' hdone
    have hend := exec_done_of_wp (A := fun _ => True) (fun _ _ => trivial)
      (wp_worker (fun _ _ => trivial) hw hinp) hdone
    obtain ⟨hf, hl, hb⟩ := hend.2 rfl
    exact ⟨hf, hl, hb⟩

/-- A superblock of `blocks` blocks in sections of 512. -/
def sampleSuperblock (blocks : ℕ) : Buf :=
  leBytes 4 f2fsMagic ++ replicate 12 0 ++ leBytes 4 12 ++ leBytes 4 9 ++ leBytes 4 1 ++
    replicate 8 0 ++ leBytes 8 blocks ++ replicate 64 0 ++ replicate 16 0xab ++
    replicate 2948 0

/-- The start of an F2FS of `blocks` blocks. -/
def sampleRaw (blocks : ℕ) : Buf :=
  replicate 1024 0 ++ sampleSuperblock blocks ++ replicate 1024 0 ++ sampleSuperblock blocks

/-- A command line for a disk of three sectors. -/
def sampleArgv : List (List Char) :=
  ["mu300-f2fs-online", "start", "/data", "/dev/block/dm-39", "1048576", "524288",
    "/dev/block/mmcblk0", "1024", "1536", "abababababababababababababababab",
    "/dev/mu300-online-0123"].map String.toList

def sampleInputs : Inputs where
  expected := 1048576
  target := 524288
  tail := 1024
  diskBytes := 1536
  uuid := "abababababababababababababababab".toList
  oldFirst := replicate 512 1
  oldLast := replicate 512 2
  newFirst := replicate 512 3
  newLast := replicate 512 4
  first_length := by rw [length_replicate, length_replicate]
  last_length := by rw [length_replicate, length_replicate]
  ends := by rw [length_replicate]
  apart := by rw [length_replicate]; decide

def sampleFiles : Files where
  oldFirst := some sampleInputs.oldFirst
  oldLast := some sampleInputs.oldLast
  newFirst := some sampleInputs.newFirst
  newLast := some sampleInputs.newLast

/-- Old tables, the F2FS at its old size. -/
def sampleWorld : World where
  disk := sampleInputs.oldFirst ++ replicate 512 0 ++ sampleInputs.oldLast
  raw := sampleRaw 1048576
  status := none

def sampleAnswer : Answer where
  ok := true
  took := true
  errno := 0
  raw := sampleRaw 524288
  facts := {
    opened := true
    rawIsBlock := true
    diskIsBlock := true
    sameDevice := true
    fsType := f2fsMagic
    volume := some { readOnly := false, frsize := 4096, blocks := 1, bfree := 1 }
    diskSized := true
    mappedBytes := some (1048576 * 4096) }

/-- The disk after a first run that was cut off between the two copies. -/
def sampleCut : World :=
  restarts (worker sampleArgv sampleFiles) [replicate 22 sampleAnswer] sampleWorld

section Sample

set_option maxRecDepth 1000000

theorem workerInputs_sample : workerInputs sampleArgv sampleFiles = some sampleInputs := by
  decide +kernel

theorem holds_sampleWorld : Holds sampleWorld sampleInputs.oldFirst 0 ∧
    Holds sampleWorld sampleInputs.oldLast sampleInputs.tail := by
  decide +kernel

theorem sampleCut_resumes :
    (exec (worker sampleArgv sampleFiles) (replicate 40 sampleAnswer) sampleCut).result =
      some (.ended .complete) := by
  decide +kernel

/-- The second run completes what the first was cut off in. -/
theorem worker_restarts_safe_sample :
    ∃ w', exec (worker sampleArgv sampleFiles) (replicate 40 sampleAnswer) sampleCut =
      .done (.ended .complete) w' ∧
      Holds w' sampleInputs.newFirst 0 ∧ Holds w' sampleInputs.newLast sampleInputs.tail ∧
      HasBlocks w' sampleInputs.target := by
  have hdone := Outcome.eq_done sampleCut_resumes
  obtain ⟨-, -, -, -, hend⟩ := worker_restarts_safe workerInputs_sample holds_sampleWorld.1
    holds_sampleWorld.2 [replicate 22 sampleAnswer] rfl
  exact ⟨_, hdone, hend _ _ hdone⟩

end Sample

end Mu300.Online
