import Mu300.KernelStep.Modules
import Mu300.KernelStep.Frame

/-!
# The ramdisk of the image in the slot

An installer's image has a ramdisk of its own, the device's part. An update puts the generic part
of its release behind it; the next one has to take that off again. Whether there is one to take
off the updater knows from `written`: an image that is not the one it wrote last counts as an
installer's, and all of its ramdisk as the device's part.

`Layered` is the invariant. No step breaks it as long as each starts with `written` of the image
in the slot, or with an installer's image there.
-/

namespace Mu300.KernelStep

open Shell Crash Crash.Prog List Option

variable {systems : List System} {s : State}

/-! ## The ramdisk -/

/-- The installer's ramdisk, with the generic part of one release behind it or none. -/
def OneSegment (inst ramdisk : List Segment) : Prop :=
  ramdisk = inst ∨ ∃ g, ramdisk = inst ++ [g]

/-- The ramdisks of the images here are layered as they should be, and the device's part, where it
was taken, is the installer's. -/
structure Layered (inst : List Segment) (s : State) : Prop where
  slot : OneSegment inst s.slot.ramdisk
  prev : ∀ body, s.prevBody = some body → OneSegment inst body.image.ramdisk
  device : ∀ d, s.device = some d → d = inst
  taken : s.written.isSome ∨ s.prevBody.isSome → s.device.isSome

/-- What a step can tell from the record of the image written last. -/
def Known (inst : List Segment) (s : State) : Prop :=
  s.written = some s.slot ∨ s.slot.ramdisk = inst

variable {inst : List Segment}

theorem Layered.indifferent : Indifferent (Layered inst) := by
  intro s s' hslot hwritten hid hdevice hprev h
  refine ⟨hslot ▸ h.slot, fun body hb => ?_, fun d hd => h.device d (hdevice ▸ hd), fun ht => ?_⟩
  · rcases hprev with hp | hp
    · exact h.prev body (hp ▸ hb)
    · rw [hp] at hb
      cases hb
  · rw [hdevice]
    refine h.taken (ht.imp (fun hw => hwritten ▸ hw) fun hb => ?_)
    rcases hprev with hp | hp
    · rw [← hp]
      exact hb
    · rw [hp] at hb
      cases hb

theorem Known.indifferent : Indifferent fun s => Layered inst s ∧ Known inst s := by
  intro s s' hslot hwritten hid hdevice hprev h
  refine ⟨.indifferent s s' hslot hwritten hid hdevice hprev h.1, ?_⟩
  rw [Known, hslot, hwritten]
  exact h.2

theorem wp_of_keeps {α : Type} {I : State → Prop} {Q : α → State → Prop} {p : Prog Answer State α}
    (hp : Keeps I p) (hs : I s) (hL : ∀ s, I s → Layered inst s) (hQ : ∀ a s', I s' → Q a s') :
    wp (fun _ => True) (Layered inst) Q p s :=
  wp_mono hL hQ (hp s hs)

section Install

def Taken (inst : List Segment) (s : State) : Prop := Layered inst s ∧ s.device = some inst

theorem Taken.indifferent : Indifferent (Taken inst) :=
  fun s s' hslot hwritten hid hdevice hprev h =>
    ⟨.indifferent s s' hslot hwritten hid hdevice hprev h.1, hdevice ▸ h.2⟩

variable {image : Image}

theorem Taken.write (h : Taken inst s) (hi : OneSegment inst image.ramdisk) :
    Taken inst { s with slot := image } := ⟨⟨hi, h.1.prev, h.1.device, h.1.taken⟩, h.2⟩

variable {body : Body} {b : Bundle}

theorem keeps_prevModulesCommit (hb : OneSegment inst body.image.ramdisk) :
    Keeps (Taken inst) (prevModulesCommit body) := by
  have hI : Indifferent (Taken inst) := .indifferent
  refine keeps_bind (hI.op fun _ _ => rfl) fun _ =>
    keeps_bind (hI.op fun _ _ => rfl) fun _ =>
      keeps_bind (hI.op fun _ _ => rfl) fun _ =>
        keeps_op fun _ s h => ⟨⟨h.1.slot, fun body' he => ?_, h.1.device, fun _ => ?_⟩, h.2⟩
  · cases he
    exact hb
  · exact isSome_iff_exists.2 ⟨inst, h.2⟩

theorem keeps_writeBoot (hi : OneSegment inst image.ramdisk) :
    Keeps (Taken inst) (writeBoot image) :=
  keeps_op fun e s h => by
    split
    · exact h.write hi
    · exact h

theorem keeps_written :
    Keeps (Taken inst) (act fun s => { s with written := some image } : Prog Answer State Unit) :=
  keeps_op fun _ _ h =>
    ⟨⟨h.1.slot, h.1.prev, h.1.device, fun _ => isSome_iff_exists.2 ⟨inst, h.2⟩⟩, h.2⟩

theorem keeps_writeNew
    (hb : OneSegment inst body.image.ramdisk) (hi : OneSegment inst image.ramdisk) :
    Keeps (Taken inst) (writeNew systems b body image) := by
  have hI : Indifferent (Taken inst) := .indifferent
  refine keeps_bind (keeps_writeBoot hi) fun ok => keeps_ite ?_ ?_
  · exact keeps_bind keeps_written fun _ =>
      keeps_bind (keeps_op fun _ s h => ⟨⟨h.1.slot, h.1.prev, h.1.device, h.1.taken⟩, h.2⟩) fun _ =>
        keeps_bind (keeps_done hI) fun _ =>
          keeps_bind (keeps_each (fun os => keeps_removeStale hI none os) systems) fun _ =>
            keeps_pure _
  · have hback : Keeps (Taken inst) (op
        (fun e s => if e.writesBack then { s with slot := body.image } else s) fun _ _ => () :
        Prog Answer State Unit) := keeps_op fun e s h => by
      split
      · exact h.write hb
      · exact h
    exact keeps_bind hback fun _ => keeps_bind (keeps_look _) fun kept =>
      keeps_bind (keeps_prevModulesRestore hI kept) fun _ =>
        keeps_bind (keeps_done hI) fun _ => keeps_pure _

/-- With the device's part taken, a new image is put together from it and one generic part. -/
theorem wp_install_layered (h : Taken inst s) (hb : OneSegment inst body.image.ramdisk) :
    wp (fun _ => True) (Layered inst) (fun _ => Layered inst) (install systems b body) s := by
  have hI : Indifferent (Taken inst) := .indifferent
  have hL : ∀ s, Taken inst s → Layered inst s := fun _ h => h.1
  refine wp_step h.1 fun _ _ => ?_
  rw [h.2, getD_some]
  refine wp_of_keeps (I := Taken inst) ?_ h hL fun _ _ h => h.1
  refine keeps_bind (keeps_look _) fun _ => keeps_ite ?_ (keeps_pure _)
  refine keeps_bind (keeps_prevModulesSave hI b) fun _ => keeps_ite ?_ (keeps_pure _)
  refine keeps_bind (keeps_newModules hI b) fun _ => keeps_ite ?_ ?_
  · exact keeps_bind (keeps_prevModulesCommit hb) fun _ => keeps_writeNew hb (.inr ⟨b.generic, rfl⟩)
  · exact keeps_bind (keeps_look _) fun kept =>
      keeps_bind (keeps_prevModulesRestore hI kept) fun _ =>
        keeps_bind (keeps_done hI) fun _ => keeps_pure _

end Install

/-- The device's part is taken from the image in the slot, unless the image is the one written
last: then it was taken before. -/
theorem wp_takeDevice {Q : Bool → State → Prop} (h : Layered inst s) (hk : Known inst s)
    (hfail : Q false s) (hok : ∀ s', Taken inst s' → Q true s') :
    wp (fun _ => True) (Layered inst) Q takeDevice s := by
  refine wp_step h fun _ _ => ?_
  refine wp_if (fun hnew => ?_) fun hold => ?_
  · have hnew : s.written ≠ some s.slot ∨ s.device = none := of_decide_eq_true hnew
    have hinst : s.slot.ramdisk = inst := by
      refine hk.resolve_left fun hw => ?_
      rcases hnew with hne | hnone
      · exact hne hw
      · have := h.taken (.inl (by rw [hw]; rfl))
        rw [hnone] at this
        cases this
    refine wp_step h fun _ _ => ?_
    refine wp_if (fun _ => ?_) fun _ => hfail
    rw [wp_bind, wp_act]
    refine ⟨h, fun _ _ => hok _ ⟨⟨h.slot, h.prev, fun d hd => ?_, fun _ => rfl⟩, ?_⟩⟩
    · cases hd
      exact hinst
    · rw [hinst]
  · have hsome : s.device ≠ none := fun hn => hold (decide_eq_true (.inr hn))
    obtain ⟨d, hd⟩ := ne_none_iff_exists'.1 hsome
    refine hok s ⟨h, ?_⟩
    rw [hd, h.device d hd]

theorem wp_bootUpdate_layered {b : Bundle} (h : Layered inst s) (hk : Known inst s) :
    wp (fun _ => True) (Layered inst) (fun _ => Layered inst) (bootUpdate systems b) s := by
  have hI : Indifferent fun s => Layered inst s ∧ Known inst s := Known.indifferent
  have hL : ∀ s, (Layered inst s ∧ Known inst s) → Layered inst s := fun _ h => h.1
  have hend : ∀ ok s, Layered inst s → wp (fun _ => True) (Layered inst) (fun _ => Layered inst) (do
      let ok' ← settle systems
      act fun s => { s with staged := none }
      act fun s => { s with prevModulesNew := none }
      return ok && ok') s := by
    intro ok s h
    have hJ : Indifferent (Layered inst) := .indifferent
    refine wp_of_keeps (I := Layered inst) ?_ h (fun _ h => h) fun _ _ h => h
    exact keeps_bind (keeps_settle hJ) fun _ =>
      keeps_bind (hJ.op fun _ _ => rfl) fun _ =>
        keeps_bind (hJ.op fun _ _ => rfl) fun _ => keeps_pure _
  rw [bootUpdate, wp_bind, bootUpdateRun, wp_bind]
  refine wp_of_keeps (keeps_settle hI) ⟨h, hk⟩ hL fun ok s₁ h₁ => ?_
  refine wp_if (fun _ => ?_) fun _ => hend _ _ h₁.1
  rw [wp_bind]
  refine wp_of_keeps (keeps_bind (hI.op fun _ _ => rfl) fun _ => hI.op fun _ _ => rfl) h₁ hL
    fun _ s₂ h₂ => ?_
  refine wp_step h₂.1 fun _ _ => ?_
  refine wp_if (fun _ => ?_) fun _ => hend _ _ h₂.1
  rw [wp_bind]
  refine wp_of_keeps (keeps_tidySets hI) h₂ hL fun _ s₃ h₃ => ?_
  rw [wp_bind]
  refine wp_of_keeps (keeps_prepare hI b) h₃ hL fun ok s₄ h₄ => ?_
  refine wp_if (fun _ => ?_) fun _ => hend _ _ h₄.1
  refine wp_step h₄.1 fun _ _ => ?_
  refine wp_if (fun _ => ?_) fun _ => ?_
  · exact wp_of_keeps (keeps_upToDate hI b) h₄ hL fun ok s₅ h₅ => hend ok s₅ h₅.1
  · rw [wp_bind]
    refine wp_takeDevice h₄.1 h₄.2 (hend _ _ h₄.1) fun s₅ h₅ => ?_
    exact wp_mono (fun _ h => h) (fun ok s₆ h₆ => hend ok s₆ h₆) (wp_install_layered h₅ h₄.1.slot)

theorem wp_rollbackBoot_layered (h : Layered inst s) :
    wp (fun _ => True) (Layered inst) (fun _ => Layered inst) (rollbackBoot systems) s := by
  refine wp_step h fun _ _ => ?_
  rcases hp : s.prevBody with _ | body
  · exact h
  have hb : OneSegment inst body.image.ramdisk := h.prev body hp
  have hd : s.device = some inst := by
    obtain ⟨d, hd⟩ := isSome_iff_exists.1 (h.taken (.inr (by rw [hp]; rfl)))
    rw [hd, h.device d hd]
  have hI : Indifferent (Taken inst) := .indifferent
  refine wp_of_keeps (I := Taken inst) ?_ ⟨h, hd⟩ (fun _ h => h.1) fun _ _ h => h.1
  refine keeps_bind (keeps_look _) fun _ => keeps_ite ?_ (keeps_pure _)
  refine keeps_bind (hI.op fun _ _ => rfl) fun _ =>
    keeps_bind (keeps_writeBoot hb) fun _ => keeps_ite ?_ ?_
  · exact keeps_bind (keeps_prevModulesRestore hI _) fun _ =>
      keeps_bind (hI.op fun _ _ => rfl) fun _ =>
        keeps_bind keeps_written fun _ =>
          keeps_bind (keeps_op fun _ s h => ⟨⟨h.1.slot, h.1.prev, h.1.device, h.1.taken⟩, h.2⟩)
            fun _ => keeps_pure _
  · exact keeps_bind (hI.op fun _ _ => rfl) fun _ => keeps_pure _

/-! ## Whole histories -/

/-- Every kernel step of a history starts with what it can tell from the record. -/
def AllKnown (systems : List System) (inst : List Segment) : State → List Action → Prop
  | _, [] => True
  | s, .bootUpdate b es :: as =>
    Known inst s ∧ AllKnown systems inst (step systems s (.bootUpdate b es)) as
  | s, a :: as => AllKnown systems inst (step systems s a) as

/-- A boot image made by an installer, and no update so far. -/
structure FromInstaller (inst : List Segment) (s : State) : Prop where
  slot : s.slot.ramdisk = inst
  written : s.written = none
  prevBody : s.prevBody = none
  device : s.device = none

theorem FromInstaller.layered (h : FromInstaller inst s) : Layered inst s := by
  refine ⟨.inl h.slot, fun body hb => ?_, fun d hd => ?_, fun ht => ?_⟩
  · rw [h.prevBody] at hb
    cases hb
  · rw [h.device] at hd
    cases hd
  · rw [h.written, h.prevBody] at ht
    rcases ht with ht | ht <;> cases ht

theorem Layered.run (h : Layered inst s) {as : List Action} (hk : AllKnown systems inst s as) :
    Layered inst (run systems s as) := by
  induction as generalizing s with
  | nil => exact h
  | cons a as ih =>
    cases a with
    | bootUpdate b es =>
      exact ih (exec_state_of_wp (fun _ _ => trivial) (wp_bootUpdate_layered h hk.1)) hk.2
    | rollbackBoot es =>
      exact ih (exec_state_of_wp (fun _ _ => trivial) (wp_rollbackBoot_layered h)) hk
    | boot es =>
      have hb : Layered inst (KernelStep.boot s) := ⟨h.slot, h.prev, h.device, h.taken⟩
      exact ih ((keeps_settleInit .indifferent).exec_state es hb) hk

/-- **The ramdisk never accumulates**: in every history from an installer's image, with commands
cut off anywhere, the ramdisk in the slot is the installer's with at most one generic part behind
it, as long as every kernel step starts with the record of the image in the slot or with an
installer's ramdisk there. -/
theorem ramdisk_never_accumulates (systems : List System) (inst : List Segment) (s : State)
    (h : FromInstaller inst s) (as : List Action) (hk : AllKnown systems inst s as) :
    OneSegment inst (run systems s as).slot.ramdisk := (h.layered.run hk).slot

namespace Sample

/-- OpenWrt as an installer left it. -/
def fresh : State :=
  { start with slot := ⟨kernelA, [['d']]⟩, written := none, installedId := none, device := none }

/-- An update, back, and the next update. -/
def upAndBack : List Action :=
  [.bootUpdate bundleB (replicate 60 fine), .boot (replicate 20 fine),
    .rollbackBoot (replicate 20 fine), .bootUpdate bundleA (replicate 60 fine)]

end Sample

open Sample in
/-- One generic part, after three steps. -/
theorem ramdisk_after_upAndBack :
    (run [.openwrt] fresh upAndBack).slot.ramdisk = [['d'], ['g', 'a']] ∧
      OneSegment [['d']] (run [.openwrt] fresh upAndBack).slot.ramdisk := by
  refine ⟨by decide, ramdisk_never_accumulates [.openwrt] [['d']] fresh ⟨rfl, rfl, rfl, rfl⟩ _ ?_⟩
  exact ⟨.inr rfl, .inl (by decide), trivial⟩

open Sample in
/-- A cut between the image and its record: the next step takes the ramdisk of the image for an
installer's, and both generic parts stay. -/
theorem ramdisk_accumulates :
    FromInstaller [['d']] fresh ∧ (run [.openwrt] fresh [.bootUpdate bundleB (replicate 32 fine),
        .boot (replicate 20 fine), .bootUpdate bundleA (replicate 60 fine)]).slot.ramdisk =
        [['d'], ['g', 'b'], ['g', 'a']] ∧
      ¬ OneSegment [['d']] [['d'], ['g', 'b'], ['g', 'a']] := by
  refine ⟨⟨rfl, rfl, rfl, rfl⟩, by decide, ?_⟩
  rintro (h | ⟨g, h⟩)
  · cases h
  · cases h

end Mu300.KernelStep
