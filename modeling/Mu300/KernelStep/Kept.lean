import Mu300.KernelStep.Modules

/-!
# The kept image and the kept modules

`rollback-boot` puts the kept image back into the slot and then the modules kept with it. For the
two to belong together they have to be kept together, which takes two renames, and to be put back
together, which takes a write and the links, both without a mark.

`apart` marks the states in between, and everywhere else a kernel step keeps `Together`: before the
mark nothing that counts is touched (`Quiet`), and behind it both ways out lead back (`Committed`).
-/

namespace Mu300.KernelStep

open Shell Crash Crash.Prog Option

/-- The modules that belong to the builds that have their own: never an empty set, and under a
release that can be a directory. -/
structure Builds where
  modules : Kernel → Option (List Module)
  some : ∀ {k : Kernel} {ms : List Module}, modules k = .some ms → ms ≠ []
  valid : ∀ {k : Kernel} {ms : List Module}, modules k = .some ms → validRelease k.release

/-- What a system's directory of a release would hold after `rollback-boot`. -/
def restored (systems : List System) (s : State) (os : System) (q : Text) : List Module :=
  if s.prevModules.bind (·.release) = some q then
    if s.sets os q = none then [] else (s.prevModules.bind (·.sets os)).getD []
  else after systems s os q

/-- The modules kept are those the image kept ran with. -/
def Belongs (systems : List System) (s : State) : Prop :=
  ∀ body kept, s.prevBody = some body → s.prevModules = some kept →
    ∃ r, kept.release = some r ∧ validRelease r ∧
      ∀ os ∈ systems, (kept.sets os).getD [] = body.dirs os r

/-- Images and modules go together. -/
structure Together (systems : List System) (builds : Builds) (s : State) :
    Prop where
  slot : ∀ ms, builds.modules s.slot.kernel = some ms →
    ∀ os ∈ systems, after systems s os s.slot.kernel.release = ms
  belongs : Belongs systems s
  place : ∀ body, s.prevBody = some body → ∀ ms, builds.modules body.image.kernel = some ms →
    ∀ os ∈ systems, restored systems s os body.image.kernel.release = ms

/-- Unless two things are just being changed one after the other. -/
def Fine (systems : List System) (builds : Builds) (s : State) : Prop :=
  s.apart ∨ Together systems builds s

section Step

variable {systems : List System} {builds : Builds} {s s' : State} {b : Bundle} {A : Answer → Prop}
  {C : State → Prop}

/-! ## What changes nothing -/

theorem Together.congr (h : Together systems builds s) (hslot : s'.slot = s.slot)
    (hbody : s'.prevBody = s.prevBody) (hmods : s'.prevModules = s.prevModules)
    (hafter : ∀ os ∈ systems, ∀ q, after systems s' os q = after systems s os q)
    (hthere : ∀ os ∈ systems, ∀ q, s.sets os q ≠ none → s'.sets os q ≠ none) :
    Together systems builds s' := by
  refine ⟨fun ms hms os hos => ?_, fun body kept hb hk => ?_, fun body hb ms hms os hos => ?_⟩
  · rw [hslot] at hms ⊢
    rw [hafter os hos]
    exact h.slot ms hms os hos
  · exact h.belongs body kept (hbody ▸ hb) (hmods ▸ hk)
  · have hp := h.place body (hbody ▸ hb) ms hms os hos
    rw [restored] at hp ⊢
    rw [hmods, hafter os hos]
    split
    · next hr =>
      rw [if_pos hr] at hp
      by_cases hn : s.sets os body.image.kernel.release = none
      · rw [if_pos hn] at hp
        exact absurd hp.symm (builds.some hms)
      · rw [if_neg hn] at hp
        rw [if_neg (hthere os hos _ hn), hp]
    · next hr => rwa [if_neg hr] at hp

/-- Without a mark, other directories and other files than those that count may change. -/
theorem Together.frame (h : Together systems builds s) (hp : s.pending = none)
    (hp' : s'.pending = none) (hslot : s'.slot = s.slot) (hbody : s'.prevBody = s.prevBody)
    (hmods : s'.prevModules = s.prevModules)
    (hown : ∀ os ∈ systems, s'.sets os s.slot.kernel.release = s.sets os s.slot.kernel.release)
    (hprev : ∀ body, s.prevBody = some body → ∀ os ∈ systems,
      s'.sets os body.image.kernel.release = s.sets os body.image.kernel.release) :
      Together systems builds s' := by
  refine ⟨fun ms hms os hos => ?_, fun body kept hb hk => ?_, fun body hb ms hms os hos => ?_⟩
  · rw [hslot] at hms ⊢
    rw [after_of_not_pending hp', modules_of_eq (hown os hos), ← after_of_not_pending hp]
    exact h.slot ms hms os hos
  · exact h.belongs body kept (hbody ▸ hb) (hmods ▸ hk)
  · have hb : s.prevBody = some body := hbody ▸ hb
    have hpl := h.place body hb ms hms os hos
    rw [restored, after_of_not_pending hp] at hpl
    rw [restored, hmods, hprev body hb os hos, after_of_not_pending hp',
      modules_of_eq (hprev body hb os hos)]
    exact hpl

/-! ## Before the mark -/

structure Quiet (systems : List System) (builds : Builds) (s : State) :
    Prop where
  together : Together systems builds s
  pending : s.pending = none

section

variable (h : Quiet systems builds s)

include h

theorem Quiet.fine : Fine systems builds s := .inr h.together

theorem Quiet.other (hp : s'.pending = s.pending) (hslot : s'.slot = s.slot)
    (hbody : s'.prevBody = s.prevBody)
    (hmods : s'.prevModules = s.prevModules) (hsets : s'.sets = s.sets) :
    Quiet systems builds s' := by
  have hp' : s'.pending = none := hp.trans h.pending
  refine ⟨h.together.frame h.pending hp' hslot hbody hmods (fun _ _ => ?_) fun _ _ _ _ => ?_, hp'⟩
  · rw [hsets]
  · rw [hsets]

/-- What a step stages and puts aside does not count. -/
theorem Quiet.aside (staged : Option (Text × List Module)) (kept : Option KeptSet) :
    Quiet systems builds { s with staged := staged, prevModulesNew := kept } :=
  h.other rfl rfl rfl rfl rfl

theorem Quiet.done : Quiet systems builds s.done :=
  h.other h.pending.symm rfl rfl rfl rfl

theorem Quiet.remove {os : System} {rs : Text → Bool}
    (hrs : ∀ q, rs q → s.needs q = false) : Quiet systems builds (s.remove os rs) := by
  have keep : ∀ q, s.needs q → ∀ o, (s.remove os rs).sets o q = s.sets o q := by
    intro q hq o
    have hr : rs q = false := by
      by_contra hne
      rw [hrs q (by simpa using hne)] at hq
      cases hq
    simp [State.remove, hr]
  refine ⟨h.together.frame h.pending h.pending rfl rfl rfl (fun o _ => keep _ ?_ o)
    fun body hb o _ => keep _ ?_ o, h.pending⟩
  · simp [State.needs]
  · simp [State.needs, hb]

end

theorem wp_removeStale_quiet {more : Option Text}
    (hC : ∀ s, Quiet systems builds s → C s) (h : Quiet systems builds s) :
    wp A C (fun _ => Quiet systems builds) (each (removeStale more) systems) s := by
  refine wp_each_inv (fun os _ s₁ h₁ => ?_) h
  have hrm : wp A C (fun _ s => Quiet systems builds s ∧ s.needs = s₁.needs)
      (removeStale more os) s₁ := by
    refine wp_removeStale_inv (fun s' rs hI hrs => ⟨hI.1.remove fun q hq => ?_, hI.2⟩)
      (fun s hI => hC s hI.1) ⟨h₁, rfl⟩
    have hst := hrs q hq
    simp only [State.stale, Bool.and_eq_true, Bool.not_eq_true'] at hst
    rw [hI.2]
    exact hst.1.1.2
  exact wp_mono (fun _ hC => hC) (fun _ _ hI => hI.1) hrm

/-- A release no image here has its modules of: a set of it may go in. -/
structure Free (builds : Builds) (s : State) (r : Text) : Prop where
  slot : s.slot.kernel.release = r → builds.modules s.slot.kernel = none
  prev : ∀ body, s.prevBody = some body → body.image.kernel.release = r →
    ∀ ms, builds.modules body.image.kernel = some ms → s.prevModules.bind (·.release) = some r

theorem Quiet.put (h : Quiet systems builds s) {r : Text} (hf : Free builds s r) (os : System)
    (ms : List Module) : Quiet systems builds (s.put os r ms) := by
  have hp : (s.put os r ms).pending = none := h.pending
  have keep : ∀ q, q ≠ r → ∀ o, (s.put os r ms).sets o q = s.sets o q := by
    intro q hq o
    simp [State.put, hq]
  refine ⟨⟨fun ms' hms o ho => ?_, h.together.belongs, fun body hb ms' hms o ho => ?_⟩, hp⟩
  · have hq : s.slot.kernel.release ≠ r := by
      intro hr
      have hnone := hf.slot hr
      rw [show builds.modules s.slot.kernel = some ms' from hms] at hnone
      cases hnone
    rw [after_of_not_pending hp]
    refine (modules_of_eq (keep _ hq o)).trans ?_
    rw [← after_of_not_pending h.pending]
    exact h.together.slot ms' hms o ho
  · have hpl := h.together.place body hb ms' hms o ho
    by_cases hq : body.image.kernel.release = r
    · -- its modules are kept, and go back whatever is in the directory
      have hk := hf.prev body hb hq ms' hms
      rw [← hq] at hk
      have hpm : (s.put os r ms).prevModules = s.prevModules := rfl
      rw [restored, if_pos hk] at hpl
      rw [restored, hpm, if_pos hk]
      by_cases hn : s.sets o body.image.kernel.release = none
      · rw [if_pos hn] at hpl
        exact absurd hpl.symm (builds.some hms)
      · rw [if_neg hn] at hpl
        rw [if_neg, hpl]
        rw [State.put]
        by_cases hoo : o = os ∧ body.image.kernel.release = r
        · simp [hoo]
        · simpa [hoo] using hn
    · rw [restored, after_of_not_pending h.pending] at hpl
      rw [restored, after_of_not_pending hp, modules_of_eq (keep _ hq o), keep _ hq o]
      exact hpl

theorem Quiet.free (h : Quiet systems builds s) {os : System} (hos : os ∈ systems)
    (hm : s.modules os s.slot.kernel.release = []) : Free builds s s.slot.kernel.release := by
  refine ⟨fun _ => ?_, fun body hb hr ms hms => ?_⟩
  · rcases hk : builds.modules s.slot.kernel with _ | ms
    · rfl
    · have hs := h.together.slot ms hk os hos
      rw [after_of_not_pending h.pending, hm] at hs
      exact absurd hs.symm (builds.some hk)
  · by_contra hk
    have hpl := h.together.place body hb ms hms os hos
    rw [restored, hr, if_neg hk, after_of_not_pending h.pending, hm] at hpl
    exact absurd hpl.symm (builds.some hms)

theorem wp_tidySets_quiet (hC : ∀ s, Quiet systems builds s → C s) (h : Quiet systems builds s) :
    wp A C (fun _ => Quiet systems builds) (tidySets systems) s := by
  refine wp_step (hC s h) fun _ _ => ?_
  rw [wp_bind]
  have hloop : wp A C
      (fun _ s' => Quiet systems builds s' ∧ s'.slot.kernel.release = s.slot.kernel.release)
      (each (setFromOld s.slot.kernel.release) systems) s := by
    refine wp_each_inv (fun os hos s₁ h₁ => ?_) ⟨h, rfl⟩
    refine wp_step (hC _ h₁.1) fun _ _ => ?_
    refine wp_if (fun hcond => ?_) fun _ => h₁
    rw [← h₁.2] at hcond ⊢
    have hf := h₁.1.free hos hcond.2.1
    refine wp_seq
      (wp_refill_inv (I := fun s' => Quiet systems builds s' ∧
        Free builds s' s₁.slot.kernel.release ∧ s'.slot.kernel.release = s₁.slot.kernel.release)
        (fun s' ms' hI => ?_) (fun s' hI => hC s' hI.1) ⟨h₁.1, hf, rfl⟩) fun _ s₂ hI =>
          ⟨hI.1, hI.2.2⟩
    exact ⟨hI.1.put hI.2.1 os ms', ⟨hI.2.1.slot, hI.2.1.prev⟩, hI.2.2⟩
  refine wp_mono (fun _ hC => hC) (fun _ s₁ h₁ => ?_) hloop
  exact wp_seq (wp_removeStale_quiet hC h₁.1) fun _ _ h => h

section

variable (h : Quiet systems builds s)

include h

theorem Quiet.forget (hp : s'.pending = s.pending)
    (hslot : s'.slot = s.slot) (hbody : s'.prevBody = none) (hsets : s'.sets = s.sets) :
    Quiet systems builds s' := by
  have hp' : s'.pending = none := hp.trans h.pending
  refine ⟨⟨fun ms hms os hos => ?_, fun body _ hb => ?_, fun body hb => ?_⟩, hp'⟩
  · rw [hslot] at hms ⊢
    have hs := h.together.slot ms hms os hos
    rw [after_of_not_pending h.pending] at hs
    rw [after_of_not_pending hp', ← hs]
    exact modules_of_eq (by rw [hsets])
  · rw [hbody] at hb
    cases hb
  · rw [hbody] at hb
    cases hb

theorem wp_bootKeptDrop_quiet {more : Option Text} :
    wp A (Fine systems builds) (fun _ => Quiet systems builds) (bootKeptDrop systems more) s := by
  refine wp_step h.fine fun e _ => ?_
  refine wp_step (.inl rfl) fun _ _ => ?_
  refine wp_step (.inl rfl) fun _ _ => ?_
  exact wp_seq (wp_removeStale_quiet (fun _ h => h.fine) (h.forget rfl rfl rfl rfl)) fun _ _ h => h

/-! ## Behind the mark -/

/-- The mark names the kernel that is in the slot already: its modules were there before. -/
theorem Quiet.after_arrived {ms : List Module}
    (hk : s.slot.kernel = b.kernel) (hb : builds.modules b.kernel = some ms)
    (hst : stagedModules s = ms) (ht : Marking systems b s s') {os : System}
    (hos : os ∈ systems) (q : Text) : after systems s' os q = after systems s os q := by
  have hp' : s'.pending = some (b.release, b.kernel.banner) := by rw [ht.rest]
  have hk' : s'.slot.kernel = b.kernel := by rw [ht.rest]; exact hk
  have hst' : stagedModules s' = ms := by rw [ht.rest]; exact hst
  rw [after_of_arrived hp' (builds.valid hb) ((running_iff _ _).2 hk')
    (hst' ▸ builds.some hb), hst']
  split
  · next hoq =>
    rw [← h.together.slot ms (hk ▸ hb) os hos, hk, hoq.2]
  · next hoq =>
    rw [after_of_not_pending h.pending]
    exact modules_of_eq (ht.frame os q hoq)

end

theorem Together.done (h : Together systems builds s)
    (hm : ∀ os ∈ systems, ∀ q, s.modules os q = after systems s os q) :
    Quiet systems builds s.done :=
  ⟨h.congr rfl rfl rfl hm fun _ _ _ hs => hs, rfl⟩

theorem wp_upToDate_quiet (hb : b.modules = builds.modules b.kernel)
    (hA : ∀ e, A e → e.links) (h : Quiet systems builds s) (hk : s.slot.kernel = b.kernel)
    (hst : Unpacked b s) :
    wp A (Fine systems builds) (fun _ => Quiet systems builds) (upToDate systems b) s := by
  rcases hms : b.modules with _ | ms
  · simp only [upToDate, newModules, hms]
    exact wp_step h.fine fun _ _ => h.done
  have hb' : builds.modules b.kernel = some ms := hb ▸ hms
  have hst' := hst.modules hms
  have together : ∀ s', Marking systems b s s' → Together systems builds s' := by
    intro s' ht
    refine h.together.congr ?_ ?_ ?_ (fun os hos q => h.after_arrived hk hb' hst' ht hos q)
      fun os _ q hs => ht.toRest.there os q hs
    all_goals rw [ht.rest]
  rw [upToDate, wp_bind]
  refine wp_newModules hms (builds.valid hb') h.fine (fun s' ht => .inr (together s' ht))
    (fun s' e he hl => absurd (hA e he) (by rw [hl]; decide)) fun s' ht hm => ?_
  refine wp_step (.inr (together s' ht)) fun _ _ => (together s' ht).done fun os hos q => ?_
  rw [h.after_arrived hk hb' hst' ht hos q]
  by_cases hq : q = b.release
  · rw [hq, hm os hos, ← h.together.slot ms (hk ▸ hb') os hos, hk]
  · rw [after_of_not_pending h.pending]
    exact modules_of_eq (ht.frame os q fun hc => hq hc.2)

section Marked

variable {s₁ : State} {ms : List Module} {kept : KeptSet} {os : System}

/-- What settling comes to behind the mark: the bundle's release with the kernel in the slot, and
everything else as it is. -/
theorem Marked.after_eq (h : Marked systems s₁ b ms s) (hb : builds.modules b.kernel = some ms)
    (hos : os ∈ systems) (q : Text) : after systems s os q = if q = b.release then
        if s.slot.kernel = b.kernel then ms else s₁.modules os b.release
      else s.modules os q := by
  by_cases hq : q = b.release
  · rw [if_pos hq, hq]
    exact h.expected (builds.some hb) (builds.valid hb) os hos
  · rw [if_neg hq, after, h.pending]
    simp [hq]

theorem Marked.after_found (h : Marked systems s₁ b ms s) (hb : builds.modules b.kernel = some ms)
    (hq₁ : Quiet systems builds s₁) (hslot : s.slot = s₁.slot)
    (hother : ∀ os ∈ systems, ∀ q, q ≠ b.release → s.modules os q = s₁.modules os q)
    (hos : os ∈ systems) (q : Text) : after systems s os q = s₁.modules os q := by
  rw [h.after_eq hb hos]
  split
  · next hq =>
    rw [hslot, hq]
    split
    · next hk =>
      have hown := hq₁.together.slot ms (hk ▸ hb) os hos
      rw [after_of_not_pending hq₁.pending, hk] at hown
      exact hown.symm
    · rfl
  · next hq => exact hother os hos q hq

/-- The set of the bundle is in, the image before is kept with the set it ran with, and the mark
is there. -/
structure Committed (systems : List System) (s₁ : State) (b : Bundle) (ms : List Module)
    (kept : KeptSet) (s : State) : Prop where
  marked : Marked systems s₁ b ms s
  prevModules : s.prevModules = some kept
  prevBody : s.prevBody = some ⟨s₁.slot, s₁.modules⟩
  other : ∀ os ∈ systems, ∀ q, q ≠ b.release → s.modules os q = s₁.modules os q
  there : ∀ os ∈ systems, s.sets os b.release ≠ none

section

variable (h : Committed systems s₁ b ms kept s)

include h

theorem Committed.other_slot (hs : s' = { s with
      slot := s'.slot, written := s'.written, installedId := s'.installedId }) :
    Committed systems s₁ b ms kept s' := by
  rw [hs]
  exact ⟨⟨h.marked.pending, h.marked.staged, h.marked.kept, h.marked.there⟩, h.prevModules,
    h.prevBody, h.other, h.there⟩

theorem Committed.touched (ht : Touched systems b.release s s') :
    Committed systems s₁ b ms kept s' := by
  refine ⟨h.marked.touched ht, ?_, ?_,
    fun os hos q hq => ?_, fun os hos => ht.there os (h.there os hos)⟩
  · rw [ht.rest]
    exact h.prevModules
  · rw [ht.rest]
    exact h.prevBody
  · rw [← h.other os hos q hq]
    exact modules_of_eq (ht.frame os q fun hc => hq hc.2)

variable (hb : builds.modules b.kernel = some ms) (hk : SavedFor systems s₁ b kept)
  (hq₁ : Quiet systems builds s₁)

include hb hk

theorem Committed.restored_eq (hos : os ∈ systems) (q : Text) :
    restored systems s os q = s₁.modules os q := by
  rw [restored, h.prevModules, bind_some, hk.1]
  by_cases hq : q = b.release
  · rw [hq, if_pos rfl, if_neg (h.there os hos)]
    exact hk.2 os hos
  · rw [if_neg fun hc => hq (some.inj hc).symm, h.marked.after_eq hb hos, if_neg hq]
    exact h.other os hos q hq

include hq₁

theorem Committed.together (hslot : s.slot = s₁.slot ∨ s.slot.kernel = b.kernel) :
    Together systems builds s := by
  have found : ∀ ms', builds.modules s₁.slot.kernel = some ms' → ∀ os ∈ systems,
      s₁.modules os s₁.slot.kernel.release = ms' := by
    intro ms' hms' os hos
    rw [← after_of_not_pending hq₁.pending]
    exact hq₁.together.slot ms' hms' os hos
  refine ⟨fun ms' hms' os hos => ?_,
    fun body kept' hbody hkept => ?_, fun body hbody ms' hms' os hos => ?_⟩
  · rcases hslot with hslot | hnew
    · rw [h.marked.after_found hb hq₁ hslot h.other hos, hslot]
      exact found ms' (hslot ▸ hms') os hos
    · rw [hnew] at hms' ⊢
      rw [h.marked.after_eq hb hos, if_pos rfl, if_pos hnew]
      exact some.inj (hb.symm.trans hms')
  · cases h.prevBody.symm.trans hbody
    cases h.prevModules.symm.trans hkept
    exact ⟨b.release, hk.1, builds.valid hb, hk.2⟩
  · cases h.prevBody.symm.trans hbody
    rw [h.restored_eq hb hk hos]
    exact found ms' hms' os hos

theorem Committed.done (hslot : s.slot = s₁.slot ∨ s.slot.kernel = b.kernel)
    (hm : ∀ os ∈ systems, s.modules os b.release =
      if s.slot.kernel = b.kernel then ms else s₁.modules os b.release) : Quiet systems
        builds s.done := by
  refine (h.together hb hk hq₁ hslot).done fun os hos q => ?_
  rw [h.marked.after_eq hb hos]
  split
  · next hq => rw [hq, hm os hos]
  · rfl

theorem wp_writeNew_quiet {body : Body} {image : Image} (hA : ∀ e, A e → e.writesBack)
    (hbody : body.image = s₁.slot) (himage : image.kernel = b.kernel) (hslot : s.slot = s₁.slot)
    (hm : ∀ os ∈ systems, s.modules os b.release = ms) :
    wp A (Fine systems builds) (fun _ => Quiet systems builds)
      (writeNew systems b body image) s := by
  have hfine : ∀ s, Committed systems s₁ b ms kept s → s.slot = s₁.slot ∨ s.slot.kernel = b.kernel →
      Fine systems builds s := fun s h hslot => .inr (h.together hb hk hq₁ hslot)
  refine wp_step (hfine s h (.inl hslot)) fun e _ => ?_
  cases hw : e.writes with
  | true =>
    have hC : ∀ written installedId, Committed systems s₁ b ms kept
        { s with slot := image, written := written, installedId := installedId } :=
      fun _ _ => h.other_slot rfl
    refine wp_step (hfine _ (hC _ _) (.inr himage)) fun _ _ => ?_
    refine wp_step (hfine _ (hC _ _) (.inr himage)) fun _ _ => ?_
    refine wp_step (hfine _ (hC _ _) (.inr himage)) fun _ _ => ?_
    rw [wp_bind]
    refine wp_removeStale_quiet (fun _ h => h.fine) ((hC _ _).done hb hk hq₁ (.inr himage) ?_)
    intro os hos
    rw [if_pos himage]
    exact hm os hos
  | false =>
    simp only [Bool.false_or, Bool.false_eq_true, if_false]
    have h₂ : Committed systems s₁ b ms kept
        (if e.leavesNew then { s with slot := image } else s) := by
      split
      · exact h.other_slot rfl
      · exact h
    have hslot₂ : (if e.leavesNew then { s with slot := image } else s).slot = s₁.slot ∨
        (if e.leavesNew then { s with slot := image } else s).slot.kernel = b.kernel := by
      split
      · exact .inr himage
      · exact .inl hslot
    generalize (if e.leavesNew then { s with slot := image } else s) = s₂ at h₂ hslot₂ ⊢
    refine wp_step (hfine s₂ h₂ hslot₂) fun e' he' => ?_
    rw [if_pos (hA e' he')]
    -- the image before is back in the slot
    have h₃ : Committed systems s₁ b ms kept { s₂ with slot := body.image } := h₂.other_slot rfl
    have hslot₃ : State.slot { s₂ with slot := body.image } = s₁.slot := hbody
    generalize ({ s₂ with slot := body.image } : State) = s₃ at h₃ hslot₃ ⊢
    refine wp_step (hfine s₃ h₃ (.inl hslot₃)) fun _ _ => ?_
    rw [h₃.prevModules, wp_bind]
    simp only [prevModulesRestore, bind_some, hk.1, builds.valid hb, if_true, putBack]
    have slot_of : ∀ s', Touched systems b.release s₃ s' → s'.slot = s₁.slot := by
      intro s' ht
      rw [ht.rest]
      exact hslot₃
    refine wp_each_refill (fun s' ht _ => hfine s' (h₃.touched ht) (.inl (slot_of s' ht)))
      (by rintro _ _ _ ⟨⟩) fun s₄ ht hsets => ?_
    refine wp_step (hfine s₄ (h₃.touched ht) (.inl (slot_of s₄ ht))) fun _ _ => ?_
    refine (h₃.touched ht).done hb hk hq₁ (.inl (slot_of s₄ ht)) fun os hos => ?_
    have hback : s₄.modules os b.release = s₁.modules os b.release := by
      rw [State.modules, hsets os hos, if_neg fun hc => h₃.there os hos hc.2, ← hk.2 os hos]
      rfl
    have hfound := h₃.marked.after_found hb hq₁ hslot₃ h₃.other hos b.release
    rw [h₃.marked.after_eq hb hos, if_pos rfl, hslot₃] at hfound
    rw [hback, slot_of s₄ ht, hfound]

end

theorem wp_prevModulesCommit_quiet {Q : Unit → State → Prop} {body : Body}
    (h : Fine systems builds s)
    (hQ : Q () (s.commit body)) : wp A (Fine systems builds) Q (prevModulesCommit body) s := by
  refine wp_step h fun e _ => ?_
  refine wp_step (.inl rfl) fun _ _ => ?_
  refine wp_step (.inl rfl) fun _ _ => ?_
  exact ⟨.inl rfl, fun _ _ => hQ⟩

theorem wp_install_modules (hA : ∀ e, A e → e.links ∧ e.writesBack)
    (hms : b.modules = some ms) (hb : builds.modules b.kernel = some ms)
    (h : Quiet systems builds s) (hst : stagedModules s = ms) :
    wp A (Fine systems builds) (fun _ => Quiet systems builds)
      (install systems b ⟨s.slot, s.modules⟩) s := by
  have hv := builds.valid hb
  refine wp_step h.fine fun _ _ => ?_
  refine wp_step h.fine fun _ _ => ?_
  refine wp_if (fun _ => ?_) fun _ => h
  rw [wp_bind]
  refine wp_step h.fine fun e _ => ?_
  have h₁ := h.aside s.staged
  rw [if_pos ⟨by rw [hms]; rfl, hv⟩]
  refine wp_step (h₁ _).fine fun _ _ => ?_
  refine wp_if (fun _ => ?_) fun _ => ?_
  · rw [wp_bind, wp_act]
    refine ⟨(h₁ _).fine, fun _ _ => ?_⟩
    rw [wp_pure, if_pos rfl, wp_bind]
    -- what is found before the mark
    have hbefore : Before systems { s with prevModulesNew := some e.junkKept } b
        { s with prevModulesNew := some e.junkKept } := .refl (h₁ (some e.junkKept)).pending
    have hk := hbefore.savedFor_saved
    have hq₂ := h₁ (some (saved systems { s with prevModulesNew := some e.junkKept } b.release))
    generalize saved systems { s with prevModulesNew := some e.junkKept } b.release = kept
      at hk hq₂ ⊢
    have hmark := (Before.refl hq₂.pending).marked hst rfl hk
    have other : ∀ s₃, Marking systems b { s with prevModulesNew := some kept } s₃ →
        ∀ os ∈ systems, ∀ q, q ≠ b.release → s₃.modules os q = s.modules os q :=
      fun s₃ ht os _ q hq => modules_of_eq (ht.frame os q fun hc => hq hc.2)
    have hfine : ∀ s₃, Marking systems b { s with prevModulesNew := some kept } s₃ →
        Fine systems builds s₃ := by
      intro s₃ ht
      refine .inr (hq₂.together.congr ?_ ?_ ?_ (fun os hos q => ?_) fun os _ q hs =>
        ht.toRest.there os q hs)
      · rw [ht.rest]
      · rw [ht.rest]
      · rw [ht.rest]
      · rw [(hmark.touched ht).after_found hb hq₂ (by rw [ht.rest]) (other s₃ ht) hos,
          after_of_not_pending hq₂.pending]
    refine wp_newModules hms hv hq₂.fine hfine
      (fun s₃ e he hl => absurd (hA e he).1 (by rw [hl]; decide)) fun s₃ ht hm => ?_
    simp only [if_true]
    rw [wp_bind]
    refine wp_prevModulesCommit_quiet (hfine s₃ ht) ?_
    have hn₃ : s₃.prevModulesNew = some kept := by rw [ht.rest]
    have hC : Committed systems { s with prevModulesNew := some kept } b ms kept
      (s₃.commit ⟨s.slot, s.modules⟩) := by
      refine ⟨⟨(hmark.touched ht).pending, (hmark.touched ht).staged, fun os hos => ?_,
        (hmark.touched ht).there⟩, hn₃, rfl, other s₃ ht, fun os hos hnone => ?_⟩
      · exact keptModules_of_saved (s := s₃.commit _) (.inr ⟨rfl, hn₃⟩) hk hos
      · have hempty := hm os hos
        rw [State.modules, show s₃.sets os b.release = none from hnone] at hempty
        exact builds.some hb hempty.symm
    have hslot : (s₃.commit ⟨s.slot, s.modules⟩).slot = s.slot := by rw [State.commit, ht.rest]
    exact wp_writeNew_quiet hC hb hk hq₂ (fun e he => (hA e he).2) rfl rfl hslot hm
  · refine wp_step (h₁ _).fine fun _ _ => ?_
    exact h₁ none

end Marked

/-! ## A bundle without modules -/

theorem Quiet.bare (h : Quiet systems builds s) {image : Image}
    (himage : image = s.slot ∨ builds.modules image.kernel = none) (hp : s'.pending = s.pending)
    (hslot : s'.slot = image) (hbody : s'.prevBody = some ⟨s.slot, s.modules⟩)
    (hmods : s'.prevModules = none) (hsets : s'.sets = s.sets) : Quiet systems builds s' := by
  have hp' : s'.pending = none := hp.trans h.pending
  have found : ∀ ms, builds.modules s.slot.kernel = some ms → ∀ os ∈ systems,
      s'.modules os s.slot.kernel.release = ms := by
    intro ms hms os hos
    rw [modules_of_eq (s := s) (by rw [hsets]), ← after_of_not_pending h.pending]
    exact h.together.slot ms hms os hos
  refine ⟨⟨fun ms hms os hos => ?_, fun body kept _ hk => ?_, fun body hb ms hms os hos => ?_⟩, hp'⟩
  · rw [hslot] at hms ⊢
    rw [after_of_not_pending hp']
    rcases himage with rfl | hnone
    · exact found ms hms os hos
    · rw [hnone] at hms
      cases hms
  · rw [hmods] at hk
    cases hk
  · cases hbody.symm.trans hb
    rw [restored, hmods, if_neg nofun, after_of_not_pending hp']
    exact found ms hms os hos

theorem wp_install_bare (hA : ∀ e, A e → e.writesBack) (hms : b.modules = none)
    (hb : builds.modules b.kernel = none) (h : Quiet systems builds s) :
    wp A (Fine systems builds) (fun _ => Quiet systems builds)
      (install systems b ⟨s.slot, s.modules⟩) s := by
  refine wp_step h.fine fun _ _ => ?_
  refine wp_step h.fine fun _ _ => ?_
  refine wp_if (fun _ => ?_) fun _ => h
  rw [wp_bind]
  refine wp_step h.fine fun e _ => ?_
  have h₁ := h.aside s.staged
  rw [if_neg (by simp [hms])]
  refine wp_step (h₁ _).fine fun _ _ => ?_
  rw [wp_pure, if_pos rfl]
  simp only [newModules, hms]
  rw [wp_bind, wp_pure, if_pos rfl, wp_bind]
  refine wp_prevModulesCommit_quiet (h₁ none).fine ?_
  -- from here on, with either image in the slot
  generalize ht : State.commit { s with prevModulesNew := none } ⟨s.slot, s.modules⟩ = t
  have hself : { t with slot := s.slot } = t := by rw [← ht]; rfl
  have kept : ∀ image written installedId, image = s.slot ∨ builds.modules image.kernel = none →
      Quiet systems builds
        { t with slot := image, written := written, installedId := installedId } := by
    subst ht
    exact fun image _ _ himage => h.bare himage rfl rfl rfl rfl rfl
  have h₂ : Quiet systems builds t := by
    rw [← hself]
    exact kept s.slot t.written t.installedId (.inl rfl)
  refine wp_step h₂.fine fun e _ => ?_
  cases hw : e.writes with
  | true =>
    refine wp_step ((kept _ _ _ (.inr hb)).fine) fun _ _ => ?_
    refine wp_step ((kept _ _ _ (.inr hb)).fine) fun _ _ => ?_
    refine wp_step ((kept _ _ _ (.inr hb)).fine) fun _ _ => ?_
    rw [wp_bind]
    exact wp_removeStale_quiet (fun _ h => h.fine) (.done (kept _ _ _ (.inr hb)))
  | false =>
    simp only [Bool.false_or, Bool.false_eq_true, if_false]
    refine wp_step ?_ fun e' he' => ?_
    · split
      · exact (kept _ _ _ (.inr hb)).fine
      · exact h₂.fine
    rw [if_pos (hA e' he')]
    have back : ∀ x,
        { (if e.leavesNew then { t with slot := x } else t) with slot := s.slot } = t :=
      fun x => by split <;> exact hself
    rw [back]
    refine wp_step h₂.fine fun _ _ => ?_
    have hnone : t.prevModules = none := by rw [← ht]; rfl
    simp only [prevModulesRestore, hnone, bind_none]
    exact wp_step h₂.fine fun _ _ => .done h₂

end Step

end Mu300.KernelStep
