import Mu300.KernelStep.Model

/-!
# What most programs leave alone

The slot, the records of what was written there and the device's part of the ramdisk change in a
few places only. The programs that come before and after those keep every invariant of them.
-/

namespace Mu300.KernelStep

open Shell Crash Crash.Prog

variable {systems : List System}

/-- The programs below change neither the slot nor what is known of it, and take the kept image
away at most. -/
def Indifferent (I : State → Prop) : Prop :=
  ∀ s s' : State, s'.slot = s.slot → s'.written = s.written → s'.installedId = s.installedId →
    s'.device = s.device → (s'.prevBody = s.prevBody ∨ s'.prevBody = none) → I s → I s'

variable {I : State → Prop} (hI : Indifferent I) (more : Option Text) (b : Bundle) (r : Text)

include hI

theorem Indifferent.op {α : Type} {u : Answer → State → State} {r : Answer → State → α}
    (hu : ∀ e s, ((u e s).slot, (u e s).written, (u e s).installedId, (u e s).device,
      (u e s).prevBody) =
      (s.slot, s.written, s.installedId, s.device, s.prevBody)) : Keeps I (op u r) := by
  refine keeps_op fun e s h => ?_
  have hsame := hu e s
  simp only [Prod.mk.injEq] at hsame
  exact hI s _ hsame.1 hsame.2.1 hsame.2.2.1 hsame.2.2.2.1 (.inl hsame.2.2.2.2) h

theorem keeps_done : Keeps I (act State.done : Prog Answer State Unit) :=
  hI.op fun _ _ => rfl

theorem keeps_refill (links : Answer → Bool) (onlyThere : Bool) (r : Text)
    (ms : System → List Module) (os : System) : Keeps I (refill links onlyThere r ms os) :=
  keeps_bind (keeps_test _) fun _ => keeps_ite (keeps_pure _) <|
    keeps_bind (hI.op fun _ _ => rfl) fun _ =>
      keeps_op fun e s h => by
        split
        · exact hI s _ rfl rfl rfl rfl (.inl rfl) h
        · exact h

theorem keeps_kernelModulesIntoSystems (ms : List Module) :
    Keeps I (kernelModulesIntoSystems systems r ms) :=
  keeps_ite (keeps_each (fun os => keeps_refill hI _ _ _ _ os) systems) (keeps_pure _)

theorem keeps_prevModulesRestore (kept : Option KeptSet) :
    Keeps I (prevModulesRestore systems kept) := by
  unfold prevModulesRestore
  split
  · exact keeps_pure _
  · exact keeps_ite (keeps_each (fun os => keeps_refill hI _ _ _ _ os) systems) (keeps_pure _)

theorem keeps_prevModulesSave : Keeps I (prevModulesSave systems b) := by
  have put : ∀ f : State → Option KeptSet,
      Keeps I (act fun s => { s with prevModulesNew := f s } : Prog Answer State Unit) :=
    fun f => hI.op fun _ _ => rfl
  refine keeps_bind (hI.op fun _ _ => rfl) fun _ => keeps_ite ?_ ?_
  · refine keeps_bind (keeps_look _) fun _ => keeps_ite ?_ ?_
    · exact keeps_bind (put _) fun _ => keeps_pure _
    · exact keeps_bind (put _) fun _ => keeps_pure _
  · exact keeps_bind (put _) fun _ => keeps_pure _

theorem keeps_removeStale (os : System) : Keeps I (removeStale more os) :=
  keeps_bind (keeps_look _) fun _ =>
    keeps_bind (hI.op fun _ _ => rfl) fun _ =>
      keeps_bind (hI.op fun _ _ => rfl) fun _ => keeps_pure _

theorem keeps_setFromOld (os : System) : Keeps I (setFromOld r os) :=
  keeps_bind (keeps_look _) fun _ => keeps_ite
    (keeps_bind (keeps_refill hI _ _ _ _ os) fun _ => keeps_pure _) (keeps_pure _)

theorem keeps_bootKeptDrop : Keeps I (bootKeptDrop systems more) :=
  keeps_bind (hI.op fun _ _ => rfl) fun _ =>
    keeps_bind (hI.op fun _ _ => rfl) fun _ =>
      keeps_bind (keeps_op fun _ s h => hI s _ rfl rfl rfl rfl (.inr rfl) h) fun _ =>
        keeps_bind (keeps_each (fun os => keeps_removeStale hI more os) systems)
          fun _ => keeps_pure _

theorem keeps_settleInit : Keeps I (settleInit systems) := by
  refine keeps_bind (keeps_look _) fun s => ?_
  split
  · exact keeps_pure _
  · refine keeps_ite (keeps_done hI) (keeps_ite (keeps_ite (keeps_done hI) ?_) ?_)
    · exact keeps_bind (keeps_each (fun os => keeps_refill hI _ _ _ _ os) systems)
        fun _ => keeps_done hI
    · exact keeps_bind (keeps_each (fun os => keeps_refill hI _ _ _ _ os) systems)
        fun _ => keeps_done hI

theorem keeps_settle : Keeps I (settle systems) := by
  refine keeps_bind (keeps_look _) fun s => ?_
  split
  · exact keeps_pure _
  · refine keeps_ite (keeps_bind (keeps_done hI) fun _ => keeps_pure _) ?_
    refine keeps_bind (keeps_look _) fun _ => keeps_ite (keeps_ite ?_ ?_) (keeps_pure _)
    · split
      · exact keeps_bind (keeps_done hI) fun _ => keeps_pure _
      · refine keeps_ite ?_ (keeps_bind (keeps_done hI) fun _ => keeps_pure _)
        exact keeps_bind (keeps_kernelModulesIntoSystems hI _ _) fun _ =>
          keeps_ite (keeps_bind (keeps_done hI) fun _ => keeps_pure _) (keeps_pure _)
    · exact keeps_bind (keeps_each (fun os => keeps_refill hI _ _ _ _ os) systems)
        fun _ => keeps_bind (keeps_done hI) fun _ => keeps_pure _

theorem keeps_tidySets : Keeps I (tidySets systems) :=
  keeps_bind (keeps_look _) fun r =>
    keeps_bind (keeps_each (fun os => keeps_setFromOld hI r os) systems) fun _ =>
      keeps_bind (keeps_each (fun os => keeps_removeStale hI none os) systems) fun _ => keeps_pure _

theorem keeps_prepare : Keeps I (prepare systems b) := by
  have room : Keeps I (bootRoom systems b) :=
    keeps_bind (keeps_look _) fun _ => keeps_ite (keeps_pure _) (keeps_bootKeptDrop hI _)
  have unpacked : Keeps I (unpack b) :=
    keeps_bind (hI.op fun _ _ => rfl) fun _ =>
      keeps_bind (keeps_look _) fun _ => keeps_ite
        (keeps_bind (hI.op fun _ _ => rfl) fun _ => keeps_pure _)
        (keeps_pure _)
  exact keeps_bind (keeps_look _) fun _ =>
    keeps_ite (keeps_bind room fun _ => unpacked) (keeps_pure _)

theorem keeps_newModules : Keeps I (newModules systems b) := by
  unfold newModules
  split
  · exact keeps_pure _
  · exact keeps_bind (hI.op fun _ _ => rfl) fun _ =>
      keeps_kernelModulesIntoSystems hI _ _

theorem keeps_upToDate : Keeps I (upToDate systems b) :=
  keeps_bind (keeps_newModules hI b) fun _ =>
    keeps_ite (keeps_bind (keeps_done hI) fun _ => keeps_pure _) (keeps_pure _)

end Mu300.KernelStep
