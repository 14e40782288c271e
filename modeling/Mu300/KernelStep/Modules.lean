import Mu300.KernelStep.Settle
import Mathlib.Logic.Relation

/-!
# Kernel and modules after a cut

A kernel step that is cut off anywhere, and the next boot: the systems have the modules of the
kernel that runs. Before the mark is written the sets are the ones the step found (`Before`); with
the mark both sets are at hand, whatever is in the directories (`Marked`); and the mark goes when
the right one is in.

What the step relies on is in `Fair`. The checks that lead to the short way of a step whose image
is in place already look at two records, and one of them can be of another image than the other.
-/

namespace Mu300.KernelStep

open Shell Crash Crash.Prog List Option

/-- What a step with a bundle relies on. -/
structure Fair (systems : List System) (s : State) (b : Bundle) (ms : List Module) : Prop where
  /-- the records that say the bundle's image is in place are of the image that is -/
  recorded : s.written = some s.slot → s.installedId = some b.id → s.slot.kernel = b.kernel
  /-- a kernel that is in place already has its modules -/
  own : s.slot.kernel = b.kernel → ∀ os ∈ systems, s.modules os b.release = ms
  /-- the sets of the release are no leftovers -/
  needed : ∀ os ∈ systems, s.stale none os b.release = false
  /-- no copy of a system has a set for it that the system lacks -/
  complete : ∀ os ∈ systems, b.release = s.slot.kernel.release →
    s.modules os b.release = [] → s.oldSets os b.release = []

/-- The sets that belong to the kernel in the slot, once settled. -/
def Expected (systems : List System) (s₀ : State) (b : Bundle) (ms : List Module)
    (s : State) : Prop :=
  ∀ os ∈ systems, after systems s os b.release =
    if s.slot.kernel = b.kernel then ms else s₀.modules os b.release

/-- The step has not touched the sets of the bundle's release. -/
structure Before (systems : List System) (s₀ : State) (b : Bundle) (s : State) : Prop where
  pending : s.pending = none
  slot : s.slot = s₀.slot
  running : s.running = s₀.running
  oldSets : s.oldSets = s₀.oldSets
  written : s.written = s₀.written
  installedId : s.installedId = s₀.installedId
  modules : ∀ os ∈ systems, s.modules os b.release = s₀.modules os b.release

/-- The mark is there, and what to do about it. -/
structure Marked (systems : List System) (s₀ : State) (b : Bundle) (ms : List Module) (s : State) :
    Prop where
  pending : s.pending = some (b.release, b.kernel.banner)
  staged : stagedModules s = ms
  kept : ∀ os ∈ systems, keptModules s b.release os = s₀.modules os b.release
  there : ∀ os ∈ systems, s.sets os b.release = none → s₀.modules os b.release = []

variable {systems : List System} {s₀ s s' : State} {b : Bundle} {ms : List Module}

/-! ## Up to the mark -/

/-- The set of the bundle is at hand. -/
def Unpacked (b : Bundle) (s : State) : Prop := s.staged = b.modules.map fun ms => (b.release, ms)

theorem Unpacked.modules (h : Unpacked b s) (hb : b.modules = some ms) : stagedModules s = ms := by
  rw [stagedModules, h, hb]
  rfl

/-- An invariant of the part of a step that comes before its mark. -/
structure Calm (C I : State → Prop) : Prop where
  cut : ∀ {s}, I s → C s
  pending : ∀ {s}, I s → s.pending = none
  staging : ∀ {s} staged kept device, I s →
    I { s with staged := staged, prevModulesNew := kept, device := device }

namespace Calm

variable {A : Answer → Prop} {C I : State → Prop} {Q : Bool → State → Prop}
  (hI : Calm C I) (h : I s)
  (hdrop : ∀ s, I s → wp A C (fun _ => I)
    (bootKeptDrop systems (b.modules.map fun _ => b.release)) s)

include hI h hdrop

theorem wp_prepare : wp A C (fun ok s' => I s' ∧ (ok = true → Unpacked b s'))
    (prepare systems b) s := by
  refine wp_step (hI.cut h) fun _ _ => ?_
  refine wp_if (fun _ => ?_) fun _ => ⟨h, by rintro ⟨⟩⟩
  rw [wp_bind]
  refine wp_step (hI.cut h) fun _ _ => ?_
  rw [wp_ite, wp_pure]
  have unpacked : ∀ s₁, I s₁ → wp A C (fun ok s' => I s' ∧ (ok = true → Unpacked b s'))
      (unpack b) s₁ := by
    intro s₁ h₁
    have h₂ : ∀ staged, I { s₁ with staged := staged } := fun staged => hI.staging staged _ _ h₁
    refine wp_step (hI.cut h₁) fun e _ => ?_
    refine wp_step (hI.cut (h₂ _)) fun _ _ => ?_
    refine wp_if (fun _ => ?_) fun _ => ⟨h₂ _, by rintro ⟨⟩⟩
    exact wp_step (hI.cut (h₂ _)) fun _ _ => ⟨h₂ _, fun _ => rfl⟩
  exact ⟨fun _ => unpacked s h, fun _ =>
    wp_mono (fun _ hC => hC) (fun _ s₁ h₁ => unpacked s₁ h₁) (hdrop s h)⟩

/-- A step up to where it puts anything in. -/
theorem wp_bootUpdateRun (hQ : ∀ ok s, I s → Q ok s)
    (htidy : wp A C (fun _ => I) (tidySets systems)
      { s with staged := none, prevModulesNew := none })
    (hup : ∀ s, I s → Unpacked b s → s.written = some s.slot → s.installedId = some b.id →
      wp A C Q (upToDate systems b) s)
    (hinstall : ∀ s, I s → Unpacked b s → wp A C Q (install systems b ⟨s.slot, s.modules⟩) s) :
      wp A C Q (bootUpdateRun systems b) s := by
  rw [bootUpdateRun, wp_bind]
  refine wp_step (hI.cut h) fun _ _ => ?_
  simp only [hI.pending h]
  rw [wp_pure, if_pos rfl, wp_bind]
  refine wp_step (hI.cut h) fun _ _ => ?_
  rw [wp_act]
  refine ⟨hI.cut (hI.staging _ _ _ h), fun _ _ => ?_⟩
  have h₁ : I { s with staged := none, prevModulesNew := none } := hI.staging _ _ _ h
  refine wp_step (hI.cut h₁) fun _ _ => ?_
  refine wp_if (fun _ => ?_) fun _ => hQ _ _ h₁
  refine wp_seq htidy fun _ s₂ h₂ => ?_
  refine wp_seq (hI.wp_prepare h₂ hdrop) fun ok s₃ h₃ => ?_
  obtain ⟨h₃, hst⟩ := h₃
  refine wp_if (fun hok => ?_) fun _ => hQ _ _ h₃
  refine wp_step (hI.cut h₃) fun _ _ => ?_
  refine wp_if (fun hrec => hup s₃ h₃ (hst hok) hrec.1 hrec.2) fun _ => ?_
  rw [wp_bind]
  refine wp_step (hI.cut h₃) fun _ _ => ?_
  refine wp_if (fun _ => ?_) fun _ => hinstall s₃ h₃ (hst hok)
  refine wp_step (hI.cut h₃) fun _ _ => ?_
  refine wp_if (fun _ => ?_) fun _ => hQ _ _ h₃
  refine wp_step (hI.cut h₃) fun _ _ => ?_
  exact hinstall _ (hI.staging _ _ _ h₃) (hst hok)

end Calm

section Step

variable (hb : b.modules = some ms) (hms : ms ≠ []) (hv : validRelease b.release = true)
  (hf : Fair systems s₀ b ms)

theorem Before.refl (h : s₀.pending = none) : Before systems s₀ b s₀ :=
  ⟨h, rfl, rfl, rfl, rfl, rfl, fun _ _ => rfl⟩

include hf in
/-- What was in place belongs to the kernel in the slot, as long as that is the one before. -/
theorem expected_of_found (hp : s.pending = none) (hs : s.slot = s₀.slot)
    (hm : ∀ os ∈ systems, s.modules os b.release = s₀.modules os b.release) :
    Expected systems s₀ b ms s := by
  intro os hos
  rw [after_of_not_pending hp, hm os hos, hs]
  split
  · next hk => exact hf.own hk os hos
  · rfl

include hf in
theorem Before.expected (h : Before systems s₀ b s) : Expected systems s₀ b ms s :=
  expected_of_found hf h.pending h.slot h.modules

include hms hv in
theorem Marked.expected (h : Marked systems s₀ b ms s) : Expected systems s₀ b ms s := by
  intro os hos
  by_cases hk : s.slot.kernel = b.kernel
  · have harr : Arrived s b.release b.kernel.banner := (running_iff _ _).2 hk
    rw [after_of_arrived h.pending hv harr (h.staged ▸ hms), if_pos ⟨hos, rfl⟩, if_pos hk, h.staged]
  · have harr : ¬ Arrived s b.release b.kernel.banner := fun h => hk ((running_iff _ _).1 h)
    rw [after_of_not_arrived h.pending hv harr, if_pos ⟨hos, rfl⟩, if_neg hk]
    split
    · next hn => exact (h.there os hos hn).symm
    · exact h.kept os hos

theorem Marked.touched (h : Marked systems s₀ b ms s)
    (ht : Touched systems b.release s s') : Marked systems s₀ b ms s' := by
  have hthere : ∀ os ∈ systems, s'.sets os b.release = none →
      s₀.modules os b.release = [] := fun os hos hn =>
    h.there os hos (by_contra fun hs => ht.there os hs hn)
  rw [ht.rest]
  exact ⟨h.pending, h.staged, h.kept, hthere⟩

section

variable (h : Before systems s₀ b s) {os : System}

include h

theorem Before.frame (hs : s' = { s with
      sets := s'.sets, prevBody := s'.prevBody, prevModules := s'.prevModules,
      prevModulesNew := s'.prevModulesNew, staged := s'.staged, device := s'.device,
      apart := s'.apart })
    (hm : ∀ os ∈ systems, s'.sets os b.release = s.sets os b.release) :
    Before systems s₀ b s' := by
  rw [hs]
  exact ⟨h.pending, h.slot, h.running, h.oldSets, h.written, h.installedId,
    fun os hos => (modules_of_eq (hm os hos)).trans (h.modules os hos)⟩

theorem Before.put {q : Text} (hq : b.release ≠ q) (os : System)
    (ms : List Module) : Before systems s₀ b (s.put os q ms) :=
  h.frame rfl fun o _ => by simp [State.put, hq]

theorem Before.remove {rs : Text → Bool}
    (hr : os ∈ systems → rs b.release = false) : Before systems s₀ b (s.remove os rs) := by
  refine h.frame rfl fun o ho => ?_
  by_cases hoo : o = os
  · subst hoo
    simp [State.remove, hr ho]
  · simp [State.remove, hoo]

theorem Before.stale_eq (hpb : s.prevBody = s₀.prevBody)
    (hos : os ∈ systems) : s.stale none os b.release = s₀.stale none os b.release := by
  rw [State.stale, State.stale, State.needs, State.needs, h.slot, h.running, hpb, h.modules os hos]

end

variable {A : Answer → Prop} {kept : KeptSet} {Q : Bool → State → Prop} {os : System}

include hf in
theorem Before.calm : Calm (Expected systems s₀ b ms) (Before systems s₀ b) :=
  ⟨fun h => h.expected hf, fun h => h.pending, fun _ _ _ h => h.frame rfl fun _ _ => rfl⟩

include hf in
theorem wp_tidySets (h : Before systems s₀ b s) (hpb : s.prevBody = s₀.prevBody) :
    wp A (Expected systems s₀ b ms) (fun _ => Before systems s₀ b) (tidySets systems) s := by
  let I : State → Prop := fun s => Before systems s₀ b s ∧ s.prevBody = s₀.prevBody
  have hC : ∀ s, I s → Expected systems s₀ b ms s := fun s hI => hI.1.expected hf
  refine wp_step (h.expected hf) fun _ _ => ?_
  refine wp_seq (wp_each_inv (I := I) (fun os hos s₁ hI => ?_) ⟨h, hpb⟩) fun _ s₁ hI₁ => ?_
  · -- a set from the copy: not one of the bundle's release
    refine wp_step (hC s₁ hI) fun _ _ => ?_
    refine wp_if (fun hcond => ?_) fun _ => hI
    have hne : b.release ≠ s.slot.kernel.release := by
      intro he
      rw [← he, hI.1.modules os hos, hI.1.oldSets] at hcond
      exact hcond.2.2 (hf.complete os hos (by rw [he, h.slot]) hcond.2.1)
    exact wp_seq (wp_refill_inv (fun s' ms' hI' => ⟨hI'.1.put hne os ms', hI'.2⟩) hC hI)
      fun _ _ hI => hI
  · -- the stale sets: those of the bundle's release are not
    refine wp_seq (wp_each_inv (I := I) (fun os hos s₂ hI => ?_) hI₁) fun _ s₂ hI₂ => hI₂.1
    refine wp_removeStale_inv (fun s' rs hI' hrs => ⟨hI'.1.remove fun _ => ?_, hI'.2⟩) hC hI
    have hst := hI.1.stale_eq hI.2 hos
    rw [hf.needed os hos] at hst
    by_contra hne
    rw [hrs _ (by simpa using hne)] at hst
    cases hst

include hf in
theorem wp_bootKeptDrop (h : Before systems s₀ b s) :
    wp A (Expected systems s₀ b ms) (fun _ => Before systems s₀ b)
      (bootKeptDrop systems (some b.release)) s := by
  have hC : ∀ s, Before systems s₀ b s → Expected systems s₀ b ms s := fun s hI => hI.expected hf
  have hB : ∀ {s'}, s' = { s with
      prevBody := s'.prevBody, prevModules := s'.prevModules, apart := s'.apart } →
      Before systems s₀ b s' := by
    intro s' hs'
    refine h.frame ?_ fun os _ => by rw [hs']
    rw [hs']
  refine wp_step (hC _ h) fun e _ => ?_
  refine wp_step (hC _ (hB rfl)) fun _ _ => ?_
  refine wp_step (hC _ (hB rfl)) fun _ _ => ?_
  refine wp_seq (wp_each_inv (fun os hos s₁ h₁ => ?_) (hB rfl)) fun _ _ hI => hI
  refine wp_removeStale_inv (fun s' rs h' hrs => h'.remove fun _ => ?_) hC h₁
  by_contra hne
  have := hrs _ (by simpa using hne)
  simp [State.stale] at this

/-- The mark of the step was written at `s`, and its release's directories were touched since. -/
abbrev Marking (systems : List System) (b : Bundle) (s : State) : State → Prop :=
  Touched systems b.release { s with pending := some (b.release, b.kernel.banner) }

include hb hv in
theorem wp_newModules {C : State → Prop} (hs : C s)
    (hC : ∀ s', Marking systems b s s' → C s')
    (hfail : ∀ s' e, A e → e.links = false → Marking systems b s s' → Q false s')
    (hok : ∀ s', Marking systems b s s' →
      (∀ os ∈ systems, s'.modules os b.release = ms) → Q true s') :
    wp A C Q (newModules systems b) s := by
  simp only [newModules, hb]
  rw [wp_bind, modulesPending, wp_act]
  refine ⟨hs, fun _ _ => ?_⟩
  rw [kernelModulesIntoSystems, if_pos hv, replace]
  refine wp_each_refill (fun s' ht _ => hC s' ht) hfail
    fun s' ht hsets => hok s' ht fun os hos => ?_
  rw [State.modules, hsets os hos]
  rfl

include hms hv in
theorem wp_restore (h : Marked systems s₀ b ms s) (hr : kept.release = some b.release)
    (hk : ∀ os ∈ systems, (kept.sets os).getD [] = s₀.modules os b.release)
    (hQ : ∀ s', Marked systems s₀ b ms s' → Touched systems b.release s s' →
      (∀ os ∈ systems, s'.modules os b.release = s₀.modules os b.release) →
      Q true s') : wp A (Expected systems s₀ b ms) Q
        (prevModulesRestore systems (some kept)) s := by
  simp only [prevModulesRestore, bind_some, hr, hv, if_true, putBack]
  refine wp_each_refill (fun s' ht _ => (h.touched ht).expected hms hv)
    (by rintro _ _ _ ⟨⟩) fun s' ht hsets => ?_
  refine hQ s' (h.touched ht) ht fun os hos => ?_
  rw [State.modules, hsets os hos]
  by_cases hn : s.sets os b.release = none
  · rw [if_pos ⟨rfl, hn⟩, h.there os hos hn]
    rfl
  · rw [if_neg fun hc => hn hc.2, ← hk os hos]
    rfl

def SavedFor (systems : List System) (s₀ : State) (b : Bundle) (kept : KeptSet) : Prop :=
  kept.release = some b.release ∧ ∀ os ∈ systems, (kept.sets os).getD [] = s₀.modules os b.release

theorem Before.savedFor_saved (h : Before systems s₀ b s) :
    SavedFor systems s₀ b (saved systems s b.release) := by
  refine ⟨rfl, fun os hos => ?_⟩
  rw [← h.modules os hos, saved]
  by_cases hm : s.modules os b.release = []
  · simp [hm]
  · simp [hm, hos]

theorem keptModules_of_saved (h : s.prevModulesNew = some kept ∨
      s.prevModulesNew = none ∧ s.prevModules = some kept) (hk : SavedFor systems s₀ b kept)
    (hos : os ∈ systems) : keptModules s b.release os = s₀.modules os b.release := by
  rw [keptModules, State.keptFor, ← hk.2 os hos]
  rcases h with h | h
  · simp [h, hk.1]
  · simp [h, hk.1]

theorem Before.marked (h : Before systems s₀ b s) (hst : stagedModules s = ms)
    (hn : s.prevModulesNew = some kept) (hk : SavedFor systems s₀ b kept) : Marked systems s₀ b ms
      { s with pending := some (b.release, b.kernel.banner) } := by
  refine ⟨rfl, hst, fun os hos => keptModules_of_saved (.inl hn) hk hos, fun os hos hnone => ?_⟩
  rw [← h.modules os hos, State.modules]
  rw [hnone]
  rfl

variable (hA : ∀ e, A e → e.writesBack) {body : Body}

include hms hv hf hA in
theorem wp_writeNew {image : Image} (h : Marked systems s₀ b ms s)
    (hn : s.prevModules = some kept) (hk : SavedFor systems s₀ b kept)
    (hbody : body.image = s₀.slot) (himage : image.kernel = b.kernel)
    (hm : ∀ os ∈ systems, s.modules os b.release = ms) :
    wp A (Expected systems s₀ b ms) (fun _ => Expected systems s₀ b ms)
      (writeNew systems b body image) s := by
  refine wp_step (h.expected hms hv) fun e _ => ?_
  cases hw : e.writes with
  | true =>
    -- the new image is in the slot, with its modules
    simp only [Bool.true_or, if_true]
    have hM : ∀ written installedId, Marked systems s₀ b ms
        { s with slot := image, written := written, installedId := installedId } :=
      fun _ _ => ⟨h.pending, h.staged, h.kept, h.there⟩
    refine wp_step ((hM _ _).expected hms hv) fun _ _ => ?_
    refine wp_step ((hM _ _).expected hms hv) fun _ _ => ?_
    refine wp_step ((hM _ _).expected hms hv) fun _ _ => ?_
    let I : State → Prop := fun s => s.pending = none ∧ s.slot = image ∧
      ∀ os ∈ systems, s.modules os b.release = ms
    have hI : ∀ s, I s → Expected systems s₀ b ms s := by
      intro s hI os hos
      rw [after_of_not_pending hI.1, hI.2.2 os hos, hI.2.1, if_pos himage]
    refine wp_seq (wp_each_inv (I := I) (fun os hos s₁ h₁ => ?_) ⟨rfl, rfl, hm⟩)
      fun _ s' h' => hI s' h'
    refine wp_removeStale_inv (fun s' rs h' hrs => ⟨h'.1, h'.2.1, fun o ho => ?_⟩) hI h₁
    rw [← h'.2.2 o ho]
    refine modules_of_eq ?_
    have hr : rs b.release = false := by
      by_contra hne
      have hst := hrs _ (by simpa using hne)
      simp [State.stale, State.needs, h₁.2.1, himage] at hst
    simp [State.remove, hr]
  | false =>
    simp only [Bool.false_or]
    have h₁ : Marked systems s₀ b ms (if e.leavesNew then { s with slot := image } else s) := by
      split
      · exact ⟨h.pending, h.staged, h.kept, h.there⟩
      · exact h
    have hn₁ : (if e.leavesNew then { s with slot := image } else s).prevModules = some kept := by
      split
      · exact hn
      · exact hn
    simp only [Bool.false_eq_true, if_false]
    refine wp_step (h₁.expected hms hv) fun e' he' => ?_
    rw [if_pos (hA e' he')]
    generalize (if e.leavesNew then { s with slot := image } else s) = s₁ at h₁ hn₁ ⊢
    have h₂ : Marked systems s₀ b ms { s₁ with slot := body.image } :=
      ⟨h₁.pending, h₁.staged, h₁.kept, h₁.there⟩
    refine wp_step (h₂.expected hms hv) fun _ _ => ?_
    rw [wp_bind]
    have hn₂ : State.prevModules { s₁ with slot := body.image } = some kept := hn₁
    have hs₂ : State.slot { s₁ with slot := body.image } = s₀.slot := hbody
    generalize ({ s₁ with slot := body.image } : State) = s₂ at h₂ hn₂ hs₂ ⊢
    rw [hn₂]
    refine wp_restore hms hv h₂ hk.1 hk.2 fun s₃ h₃ ht hm₃ => ?_
    refine wp_step (h₃.expected hms hv) fun _ _ => expected_of_found hf rfl ?_ hm₃
    rw [ht.rest]
    exact hs₂

/-- The image before and the set put aside are the ones kept. -/
def State.commit (s : State) (body : Body) : State :=
  { s with
    prevModules := s.prevModulesNew, prevModulesNew := none, prevBody := some body, apart := false }

include hms hv in
theorem wp_prevModulesCommit {Q : Unit → State → Prop}
    (h : Marked systems s₀ b ms s) (hn : s.prevModulesNew = some kept)
    (hk : SavedFor systems s₀ b kept)
    (hQ : Marked systems s₀ b ms (s.commit body) → Q () (s.commit body)) :
    wp A (Expected systems s₀ b ms) Q (prevModulesCommit body) s := by
  refine wp_step (h.expected hms hv) fun e _ => ?_
  have hprev : ∀ prev, Marked systems s₀ b ms { s with prevModules := prev, apart := true } :=
    fun prev => ⟨h.pending, h.staged, fun os hos => keptModules_of_saved (.inl hn) hk hos, h.there⟩
  refine wp_step ((hprev _).expected hms hv) fun _ _ => ?_
  refine wp_step ((hprev _).expected hms hv) fun _ _ => ?_
  have hdone : ∀ t : State, t = { s.commit body with prevBody := t.prevBody, apart := t.apart } →
      Marked systems s₀ b ms t := fun t ht => by
    rw [ht]
    exact ⟨h.pending, h.staged, fun os hos => keptModules_of_saved (.inr ⟨rfl, hn⟩) hk hos, h.there⟩
  exact ⟨(hdone _ rfl).expected hms hv, fun _ _ => hQ (hdone _ rfl)⟩

include hb hms hv hf hA in
theorem wp_install (h : Before systems s₀ b s) (hst : stagedModules s = ms)
    (hbody : body.image = s₀.slot) :
    wp A (Expected systems s₀ b ms) (fun _ => Expected systems s₀ b ms)
      (install systems b body) s := by
  have hC : ∀ s, Before systems s₀ b s → Expected systems s₀ b ms s := fun s hI => hI.expected hf
  refine wp_step (hC s h) fun _ _ => ?_
  refine wp_step (hC s h) fun _ _ => ?_
  refine wp_if (fun _ => ?_) fun _ => hC s h
  rw [wp_bind]
  refine wp_step (hC s h) fun e _ => ?_
  have h₁ : ∀ kept, Before systems s₀ b { s with prevModulesNew := kept } := fun kept =>
    h.frame rfl fun _ _ => rfl
  rw [if_pos ⟨by rw [hb]; rfl, hv⟩]
  refine wp_step (hC _ (h₁ _)) fun _ _ => ?_
  refine wp_if (fun _ => ?_) fun _ => ?_
  · rw [wp_bind, wp_act]
    refine ⟨hC _ (h₁ _), fun _ _ => ?_⟩
    rw [wp_pure, if_pos rfl, wp_bind]
    have hk := (h₁ (some e.junkKept)).savedFor_saved
    have h₂ := h₁ (some (saved systems { s with prevModulesNew := some e.junkKept } b.release))
    generalize saved systems { s with prevModulesNew := some e.junkKept } b.release = kept
      at hk h₂ ⊢
    have h₃ := h₂.marked hst rfl hk
    refine wp_newModules hb hv (hC _ h₂) (fun s₄ ht => (h₃.touched ht).expected hms hv)
      (fun s₄ _ _ _ ht => ?_) fun s₄ ht hm => ?_
    · -- the new set did not go in: the kept one goes back
      have h₄ := h₃.touched ht
      have hn₄ : s₄.prevModulesNew = some kept := by rw [ht.rest]
      simp only [Bool.false_eq_true, if_false]
      refine wp_step (h₄.expected hms hv) fun _ _ => ?_
      rw [hn₄, wp_bind]
      refine wp_restore hms hv h₄ hk.1 hk.2 fun s₅ h₅ ht₅ hm₅ => ?_
      rw [wp_bind, wp_act]
      refine ⟨h₅.expected hms hv, fun _ _ => expected_of_found hf rfl ?_ hm₅⟩
      rw [ht₅.rest, ht.rest]
      exact h.slot
    · have hn₄ : s₄.prevModulesNew = some kept := by rw [ht.rest]
      simp only [if_true]
      rw [wp_bind]
      refine wp_prevModulesCommit hms hv (h₃.touched ht) hn₄ hk fun h₅ => ?_
      exact wp_writeNew hms hv hf hA h₅ hn₄ hk hbody rfl hm
  · refine wp_step (hC _ (h₁ _)) fun _ _ => ?_
    rw [wp_pure, if_neg nofun]
    exact hC _ (h₁ none)

include hb hms hv hf in
theorem wp_upToDate (h : Before systems s₀ b s) (hst : stagedModules s = ms)
    (hk : s₀.slot.kernel = b.kernel) :
    wp A (Expected systems s₀ b ms) (fun _ => Expected systems s₀ b ms) (upToDate systems b) s := by
  -- the kernel in the slot is the one the mark names, from the start
  have arrived : ∀ s', Marking systems b s s' → Expected systems s₀ b ms s' := by
    intro s' ht os hos
    have hs' : s'.slot.kernel = b.kernel := by rw [ht.rest, ← hk, ← h.slot]
    have hp' : s'.pending = some (b.release, b.kernel.banner) := by rw [ht.rest]
    have hst' : stagedModules s' = ms := by rw [ht.rest]; exact hst
    rw [after_of_arrived hp' hv ((running_iff _ _).2 hs') (hst' ▸ hms), if_pos ⟨hos, rfl⟩,
      if_pos hs', hst']
  rw [upToDate, wp_bind]
  refine wp_newModules hb hv (h.expected hf) arrived (fun s' _ _ _ ht => arrived s' ht)
    fun s' ht hm => ?_
  simp only [if_true]
  refine wp_step (arrived s' ht) fun _ _ os hos => ?_
  have hs' : s'.slot.kernel = b.kernel := by rw [ht.rest, ← hk, ← h.slot]
  exact (hm os hos).trans (if_pos hs').symm

include hb hms hv hf hA in
/-- **A step keeps to the set of the kernel in the slot**, wherever it is cut off. -/
theorem wp_bootUpdateRun (h : s₀.pending = none) :
    wp A (Expected systems s₀ b ms) (fun _ => Expected systems s₀ b ms)
      (bootUpdateRun systems b) s₀ := by
  have h₀ : Before systems s₀ b s₀ := Before.refl h
  refine (Before.calm hf).wp_bootUpdateRun h₀ (fun s h => ?_) (fun _ _ h => h.expected hf)
    (wp_tidySets hf (h₀.frame rfl fun _ _ => rfl) rfl) (fun s h hst hslot hid => ?_)
      fun s h hst => ?_
  · rw [hb]
    exact wp_bootKeptDrop hf h
  · refine wp_upToDate hb hms hv hf h (hst.modules hb) (hf.recorded ?_ ?_)
    · rw [← h.written, ← h.slot]
      exact hslot
    · rw [← h.installedId]
      exact hid
  · exact wp_install hb hms hv hf hA h (hst.modules hb) h.slot

end Step

/-! ## Interrupted steps -/

/-- A bundle that carries modules. -/
structure Carries (b : Bundle) (ms : List Module) : Prop where
  modules : b.modules = some ms
  some : ms ≠ []
  release : validRelease b.release

/-- Any number of kernel steps, each of them cut off and followed by a boot. -/
inductive Interrupted (systems : List System) : State → State → Prop where
  | refl (s : State) : Interrupted systems s s
  | step {s₀ s s' : State} (b : Bundle) (es : List Answer) : Interrupted systems s₀ s →
      Boots systems (exec (bootUpdateRun systems b) es s).state s' → Interrupted systems s₀ s'

theorem Interrupted.not_pending (h₀ : s₀.pending = none) (h : Interrupted systems s₀ s) :
    s.pending = none := by
  cases h with
  | refl => exact h₀
  | step b es _ hboot => exact hboot.spec.2.1

/-- **Kernel and modules match after a cut.** After any number of interrupted kernel steps, a step
that may rely on what it relies on is cut off anywhere, and Linux boots: every system has exactly
the modules that belong to the kernel that runs, the bundle's if it is the bundle's kernel and
otherwise those that were in place before the step. -/
theorem modules_match_after_cut (systems : List System) (s₀ s s' : State) (h₀ : s₀.pending = none)
    (hruns : Interrupted systems s₀ s) (b : Bundle) (ms : List Module) (hb : Carries b ms)
    (hf : Fair systems s b ms) (es : List Answer) (hes : ∀ e ∈ es, e.writesBack)
    (hboot : Boots systems (exec (bootUpdateRun systems b) es s).state s') :
    ∀ os ∈ systems, s'.modules os b.release =
      if s'.running = b.kernel then ms else s.modules os b.release := by
  intro os hos
  have hx : Expected systems s b ms (exec (bootUpdateRun systems b) es s).state :=
    exec_state_of_wp hes
      (wp_bootUpdateRun hb.modules hb.some hb.release hf (fun _ he => he) (hruns.not_pending h₀))
  obtain ⟨hrest, -, hm⟩ := hboot.spec
  have hrun : s'.running = (exec (bootUpdateRun systems b) es s).state.slot.kernel := by
    rw [hrest.eq]
    rfl
  rw [hm os b.release, hx os hos, hrun]

namespace Sample

def kernelA : Kernel := ⟨['6'], ['#', '1'], ['1'], rfl, by decide⟩

def kernelB : Kernel := ⟨['6'], ['#', '2'], ['2'], rfl, by decide⟩

def modulesA : List Module := [⟨['w'], ['a']⟩]

def modulesB : List Module := [⟨['w'], ['b']⟩]

def bundleA : Bundle := ⟨kernelA, ['g', 'a'], some modulesA⟩

def bundleB : Bundle := ⟨kernelB, ['g', 'b'], some modulesB⟩

/-- OpenWrt with the first build, put in by an update. -/
def start : State where
  slot := ⟨kernelA, [['d'], ['g', 'a']]⟩
  running := kernelA
  sets os r := if os = .openwrt ∧ r = ['6'] then some modulesA else none
  oldSets _ _ := []
  prevBody := none
  prevModules := none
  prevModulesNew := none
  pending := none
  staged := none
  written := some ⟨kernelA, [['d'], ['g', 'a']]⟩
  installedId := some bundleA.id
  device := some [['d']]
  apart := false

/-- Everything works, and a directory under way is empty. -/
def fine : Answer := ⟨true, true, true, true, true, [], ⟨none, fun _ => none⟩, fun _ => true⟩

/-- The state some steps into the step with a bundle. -/
def cutAt (b : Bundle) (n : ℕ) (s : State) : State :=
  (exec (bootUpdateRun [.openwrt] b) (replicate n fine) s).state

def booted (s : State) : State :=
  (exec (settleInit [.openwrt]) (replicate 20 fine) (boot s)).state

theorem boots_booted
    (h : (exec (settleInit [.openwrt]) (replicate 20 fine) (boot s)).result = some ()) :
    Boots [.openwrt] s (booted s) := ⟨[], replicate 20 fine, Outcome.eq_done h⟩

theorem fair_start : Fair [.openwrt] start bundleB modulesB where
  recorded _ h := absurd h (by decide)
  own h := absurd h (by decide)
  needed := by decide
  complete _ _ _ _ := rfl

end Sample

open Sample in
/-- A cut with the new set in and the old image in the slot: the old set is back. -/
theorem modules_back_after_cut :
    (cutAt bundleB 27 start).modules .openwrt ['6'] = modulesB ∧
      (booted (cutAt bundleB 27 start)).modules .openwrt ['6'] = modulesA := by
  have h := modules_match_after_cut [.openwrt] start start (booted (cutAt bundleB 27 start)) rfl
    (.refl start) bundleB modulesB ⟨rfl, by decide, by decide⟩ fair_start (replicate 27 fine)
    (fun e he => by rw [eq_of_mem_replicate he]; rfl) (boots_booted (by decide)) .openwrt
    mem_cons_self
  exact ⟨by decide, h.trans (by decide)⟩

open Sample in
/-- A cut between the two records, and the bundle before once more: it counts as installed, its
modules go in with the kernel of the other build in the slot, and after the next cut settling
finds that other kernel and puts in the set that was kept for the image before it. -/
theorem modules_of_another_build :
    Interrupted [.openwrt] start (booted (cutAt bundleB 31 start)) ∧
      Boots [.openwrt] (cutAt bundleA 18 (booted (cutAt bundleB 31 start)))
        (booted (cutAt bundleA 18 (booted (cutAt bundleB 31 start)))) ∧
      (booted (cutAt bundleB 31 start)).modules .openwrt ['6'] = modulesB ∧
      (booted (cutAt bundleA 18 (booted (cutAt bundleB 31 start)))).running = kernelB ∧
      (booted (cutAt bundleA 18 (booted (cutAt bundleB 31 start)))).modules .openwrt ['6'] =
        modulesA := by
  refine ⟨?_, boots_booted (by decide), by decide, by decide, by decide⟩
  exact .step bundleB (replicate 31 fine) (.refl start) (boots_booted (by decide))

/-- **The first boot settles**: whatever was cut off before it, no boot behind it finds a mark or
changes a module. -/
theorem boots_settled {systems : List System} {s s' s'' : State} (h : Boots systems s s')
    (h' : Relation.ReflTransGen (Boots systems) s' s'') :
    s''.pending = none ∧ s''.slot = s.slot ∧ ∀ os r, s''.modules os r = after systems s os r := by
  induction h' with
  | refl => exact ⟨h.spec.2.1, by rw [h.spec.1.eq]; rfl, h.spec.2.2⟩
  | tail _ hb ih =>
    obtain ⟨hrest, hpending, hmodules⟩ := hb.spec
    obtain ⟨hnone, hslot, hafter⟩ := ih
    refine ⟨hpending, by rw [hrest.eq]; exact hslot, fun os r => ?_⟩
    rw [hmodules, after, hnone, hafter]

open Sample in
/-- Cut off in the middle of an update, and booted twice. -/
theorem boots_settled_twice :
    (booted (booted (cutAt bundleB 27 start))).modules .openwrt ['6'] = modulesA :=
  have h (s : State) (hs) : Boots [.openwrt] s (booted s) := boots_booted hs
  ((boots_settled (h (cutAt bundleB 27 start) (by decide)) (.single (h _ (by decide)))).2.2 _
    _).trans (by decide)

end Mu300.KernelStep
