import Mu300.KernelStep.Kept
import Mu300.KernelStep.Frame

/-!
# Kept images over whole histories

Kernel steps, `rollback-boot` and boots, each of them cut off anywhere. What the commands keep is
`Together`, and a boot keeps it too; a history is `Regular` when no cut falls between two changes
that belong together and each kernel step can trust its records.
-/

namespace Mu300.KernelStep

open Shell Crash Crash.Prog List Option

section Commands

variable {systems : List System} {builds : Builds} {s s' : State} {b : Bundle} {A : Answer → Prop}

/-! ## The commands -/

/-- The records that say the bundle's image is in place are of the image that is. -/
def Recorded (b : Bundle) (s : State) : Prop :=
  s.written = some s.slot → s.installedId = some b.id → s.slot.kernel = b.kernel

theorem Recorded.indifferent : Indifferent (Recorded b) := by
  intro s s' hslot hwritten hid _ _ h
  rw [Recorded, hslot, hwritten, hid]
  exact h

theorem Quiet.calm : Calm (Fine systems builds) fun s => Quiet systems builds s ∧ Recorded b s :=
  ⟨fun h => h.1.fine, fun h => h.1.pending, fun _ _ _ h => ⟨h.1.other rfl rfl rfl rfl rfl, h.2⟩⟩

section

variable (hA : ∀ e, A e → e.links ∧ e.writesBack) (hb : b.modules = builds.modules b.kernel)
  (h : Quiet systems builds s) (hrec : Recorded b s)
include hA hb h hrec

/-- **A kernel step keeps images and modules together**, but for a cut between two renames. -/
theorem wp_bootUpdateRun_quiet :
    wp A (Fine systems builds) (fun _ => Quiet systems builds) (bootUpdateRun systems b) s := by
  refine Quiet.calm.wp_bootUpdateRun ⟨h, hrec⟩
    (fun s h => (keeps_bootKeptDrop .indifferent _).wp_and h.2 (wp_bootKeptDrop_quiet h.1))
    (fun _ _ h => h.1)
    ((keeps_tidySets .indifferent).wp_and hrec
      (wp_tidySets_quiet (fun _ h => h.fine) (h.aside none none)))
    (fun s h hst hslot hid => ?_) fun s h hst => ?_
  · exact wp_upToDate_quiet hb (fun e he => (hA e he).1) h.1 (h.2 hslot hid) hst
  · rcases hms : b.modules with _ | ms
    · exact wp_install_bare (fun e he => (hA e he).2) hms (hb ▸ hms) h.1
    · exact wp_install_modules hA hms (hb ▸ hms) h.1 (hst.modules hms)

theorem wp_bootUpdate_quiet :
    wp A (Fine systems builds) (fun _ => Fine systems builds) (bootUpdate systems b) s := by
  refine wp_seq (wp_bootUpdateRun_quiet hA hb h hrec) fun _ s₁ h₁ => ?_
  rw [wp_bind]
  refine wp_step h₁.fine fun _ _ => ?_
  simp only [h₁.pending]
  rw [wp_pure]
  refine wp_step h₁.fine fun _ _ => ?_
  have h₂ := h₁.aside none
  exact wp_step (h₂ _).fine fun _ _ => (h₂ none).fine

end

theorem Quiet.rolledBack {body : Body} (h : Quiet systems builds s) (hbody : s.prevBody = some body)
    (hp : s'.pending = s.pending) (hslot : s'.slot = body.image) (hprev : s'.prevBody = s.prevBody)
    (hmods : s'.prevModules = s.prevModules)
    (hthere : ∀ os q, s'.sets os q = none ↔ s.sets os q = none)
    (hm : ∀ os ∈ systems, ∀ q, s'.modules os q = restored systems s os q) :
    Quiet systems builds s' := by
  have hp' : s'.pending = none := hp.trans h.pending
  have again : ∀ os ∈ systems, ∀ q, restored systems s' os q = restored systems s os q := by
    intro os hos q
    rw [restored, after_of_not_pending hp', hm os hos, restored, hmods]
    simp only [hthere]
    split <;> rfl
  refine ⟨⟨fun ms hms os hos => ?_, fun body kept hb hk => ?_, fun body hb ms hms os hos => ?_⟩,
    hp'⟩
  · rw [hslot] at hms ⊢
    rw [after_of_not_pending hp', hm os hos]
    exact h.together.place body hbody ms hms os hos
  · exact h.together.belongs body kept (hprev ▸ hb) (hmods ▸ hk)
  · rw [again os hos]
    exact h.together.place body (hprev ▸ hb) ms hms os hos

theorem wp_rollbackBoot_quiet (h : Quiet systems builds s) :
    wp A (Fine systems builds) (fun _ => Fine systems builds) (rollbackBoot systems) s := by
  refine wp_step h.fine fun _ _ => ?_
  rcases hbody : s.prevBody with _ | body
  · exact h.fine
  refine wp_step h.fine fun _ _ => ?_
  refine wp_if (fun _ => ?_) fun _ => h.fine
  refine wp_step h.fine fun _ _ => ?_
  rw [wp_bind, writeBoot, wp_op]
  refine ⟨.inl rfl, fun e _ => ?_⟩
  cases hw : e.writes with
  | false =>
    refine wp_step (.inl ?_) fun _ _ => ?_
    · split <;> rfl
    split
    · -- the write left the new image
      by_cases hsame : body.image = s.slot
      · exact Quiet.fine (h.other rfl hsame rfl rfl rfl)
      · exact .inl (by simp [hsame])
    · exact Quiet.fine (h.other rfl rfl rfl rfl rfl)
  | true =>
    simp only [Bool.true_or, if_true]
    -- the image is in, and then the modules
    have finish : ∀ s', s' = { s with slot := body.image, apart := true, sets := s'.sets } →
        (∀ os q, s'.sets os q = none ↔ s.sets os q = none) →
        (∀ os ∈ systems, ∀ q, s'.modules os q = restored systems s os q) →
        wp A (Fine systems builds) (fun _ => Fine systems builds) (do
          act fun s => { s with apart := false }
          act fun s => { s with written := some body.image }
          act fun s => { s with installedId := none }
          return true : Prog Answer State Bool) s' := by
      intro s' hs' hthere hm
      have h₁ : Quiet systems builds { s' with apart := false } := by
        refine h.rolledBack hbody ?_ ?_ ?_ ?_ hthere hm
        all_goals rw [hs']
      have h₂ : ∀ written installedId, Quiet systems builds
          { s' with apart := false, written := written, installedId := installedId } :=
        fun _ _ => h₁.other rfl rfl rfl rfl rfl
      refine wp_step (.inl (by rw [hs'])) fun _ _ => ?_
      refine wp_step h₁.fine fun _ _ => ?_
      exact wp_step (h₂ _ s'.installedId).fine fun _ _ => (h₂ _ _).fine
    rw [wp_bind]
    rcases hkept : s.prevModules with _ | kept
    · simp only [prevModulesRestore, bind_none]
      refine finish _ (by rw [hkept]) (fun _ _ => .rfl) fun os _ q => ?_
      rw [restored, hkept, if_neg (by rintro ⟨⟩), after_of_not_pending h.pending]
      rfl
    · obtain ⟨r, hr, hv, -⟩ := h.together.belongs body kept hbody hkept
      simp only [prevModulesRestore, bind_some, hr, hv, if_true, putBack]
      refine wp_each_refill (fun s' ht _ => .inl (by rw [ht.rest])) (by rintro _ _ _ ⟨⟩)
        fun s' ht hsets => ?_
      refine finish s' (by rw [hkept]; exact ht.rest) (fun os q => ?_) fun os hos q => ?_
      · by_cases hq : os ∈ systems ∧ q = r
        · obtain ⟨hos, rfl⟩ := hq
          rw [hsets os hos]
          simp
        · rw [ht.frame os q hq]
      · rw [restored, hkept, bind_some, hr]
        by_cases hq : q = r
        · subst hq
          rw [if_pos rfl, State.modules, hsets os hos]
          simp only [true_and]
          split <;> rfl
        · rw [if_neg fun hc => hq (some.inj hc).symm, after_of_not_pending h.pending]
          exact modules_of_eq (ht.frame os q fun hc => hq hc.2)

theorem Together.boot (h : Together systems builds s) (es : List Answer) :
    Together systems builds (step systems s (.boot es)) := by
  have start : Together systems builds (KernelStep.boot s) :=
    h.congr rfl rfl rfl (fun _ _ _ => rfl) fun _ _ _ hs => hs
  refine exec_state_of_wp (fun _ _ => trivial) (wp_mono (fun s' h' => ?_) (fun _ s' h' => ?_)
    (wp_settleInit (rfl : (KernelStep.boot s).running = (KernelStep.boot s).slot.kernel)))
  · obtain ⟨hrest, hafter⟩ := h'
    refine start.congr ?_ ?_ ?_ (fun os _ q => hafter os q) fun os _ q hs => hrest.there os q hs
    all_goals rw [hrest.eq]
  · obtain ⟨hrest, hp, hm⟩ := h'
    refine start.congr ?_ ?_ ?_ (fun os _ q => ?_) fun os _ q hs => hrest.there os q hs
    · rw [hrest.eq]
    · rw [hrest.eq]
    · rw [hrest.eq]
    · rw [after_of_not_pending hp, hm]

end Commands

/-! ## Histories -/

/-- What an action has to find, and where it is not cut off: a command runs on a disk that is
settled, a kernel step with records it can trust, with modules that can be linked and with the
image before written back when the new one cannot be, and the end does not come between two
changes that belong together. -/
def Careful (systems : List System) (builds : Builds) (s : State) : Action → Prop
  | .bootUpdate b es =>
    s.pending = none ∧ b.modules = builds.modules b.kernel ∧ Recorded b s ∧
      (∀ e ∈ es, e.links ∧ e.writesBack) ∧
      (step systems s (.bootUpdate b es)).apart = false
  | .rollbackBoot es => s.pending = none ∧ (step systems s (.rollbackBoot es)).apart = false
  | .boot _ => True

def Regular (systems : List System) (builds : Builds) : State → List Action → Prop
  | _, [] => True
  | s, a :: as => Careful systems builds s a ∧ Regular systems builds (step systems s a) as

section Histories

variable {systems : List System} {builds : Builds} {s : State}

theorem Fine.together (h : Fine systems builds s) (ha : s.apart = false) :
    Together systems builds s := h.resolve_left (by rw [ha]; decide)

theorem Together.step (h : Together systems builds s) {a : Action}
    (ha : Careful systems builds s a) : Together systems builds (step systems s a) := by
  cases a with
  | bootUpdate b es =>
    obtain ⟨hp, hb, hrec, hes, hapart⟩ := ha
    exact Fine.together (exec_state_of_wp hes
      (wp_bootUpdate_quiet (fun _ he => he) hb ⟨h, hp⟩ hrec)) hapart
  | rollbackBoot es =>
    obtain ⟨hp, hapart⟩ := ha
    exact Fine.together (exec_state_of_wp (fun _ _ => trivial)
      (wp_rollbackBoot_quiet (A := fun _ => True) ⟨h, hp⟩)) hapart
  | boot es => exact h.boot es

theorem Together.run (h : Together systems builds s) {as : List Action}
    (hr : Regular systems builds s as) : Together systems builds (run systems s as) := by
  induction as generalizing s with
  | nil => exact h
  | cons a as ih => exact ih (h.step hr.1) hr.2

theorem Together.boots {s' : State} (h : Together systems builds s) (hboot : Boots systems s s') :
    s'.slot = s.slot ∧ ∀ ms, builds.modules s'.slot.kernel = some ms →
      ∀ os ∈ systems, s'.modules os s'.slot.kernel.release = ms := by
  obtain ⟨hrest, -, hm⟩ := hboot.spec
  have hslot : s'.slot = s.slot := by
    rw [hrest.eq]
    rfl
  refine ⟨hslot, fun ms hms os hos => ?_⟩
  rw [hm, hslot]
  exact h.slot ms (hslot ▸ hms) os hos

end Histories

/-- **The kept image and the kept modules belong together.** After every regular history, the
modules kept are those the kept image ran with; and after a `rollback-boot`, ended or cut off, and
the next boot, the systems have the modules of the kernel in the slot. -/
theorem kept_belong_together (systems : List System) (builds : Builds) (s₀ : State)
    (h₀ : Together systems builds s₀) (as : List Action) (hr : Regular systems builds s₀ as) :
    Belongs systems (run systems s₀ as) ∧
    ∀ es s', Careful systems builds (run systems s₀ as) (.rollbackBoot es) →
        Boots systems (step systems (run systems s₀ as) (.rollbackBoot es)) s' →
        ∀ ms, builds.modules s'.slot.kernel = some ms →
          ∀ os ∈ systems, s'.modules os s'.slot.kernel.release = ms := by
  have h := h₀.run hr
  exact ⟨h.belongs, fun es s' hc hboot => ((h.step hc).boots hboot).2⟩

namespace Sample

def builds : Builds where
  modules k := if k = kernelA then some modulesA else if k = kernelB then some modulesB else none
  some := by
    intro k ms h
    split at h
    · cases h
      decide
    · split at h
      · cases h
        decide
      · cases h
  valid := by
    intro k ms h
    split at h
    · next hk =>
      rw [hk]
      decide
    · split at h
      · next hk =>
        rw [hk]
        decide
      · cases h

theorem together_start : Together [.openwrt] builds start where
  slot := by decide
  belongs _ _ hb := nomatch hb
  place _ hb := nomatch hb

/-- The second build goes in, and runs. -/
def updated : List Action :=
  [.bootUpdate bundleB (replicate 60 fine), .boot (replicate 20 fine)]

theorem regular_updated : Regular [.openwrt] builds start updated := by
  refine ⟨⟨rfl, rfl, fun _ h => absurd h (by decide), fun e he => ?_, by decide⟩, trivial, trivial⟩
  rw [eq_of_mem_replicate he]
  exact ⟨rfl, rfl⟩

end Sample

open Sample in
/-- An update and back: the first build has its modules again. -/
theorem modules_back_with_their_image :
    ((run [.openwrt] start updated).modules .openwrt ['6'] = modulesB ∧
      Belongs [.openwrt] (run [.openwrt] start updated)) ∧
      (booted (step [.openwrt] (run [.openwrt] start updated)
        (.rollbackBoot (replicate 20 fine)))).modules .openwrt ['6'] = modulesA := by
  obtain ⟨hbelongs, hback⟩ :=
    kept_belong_together [.openwrt] builds start together_start updated regular_updated
  have h := hback (replicate 20 fine) _ ⟨by decide, by decide⟩ (boots_booted (by decide))
    modulesA (by decide) .openwrt mem_cons_self
  exact ⟨⟨by decide, hbelongs⟩, h⟩

open Sample in
/-- A cut between the rename of the kept set and that of the kept image leaves the set of one with
the image before it; and a cut between the image and the modules of a `rollback-boot` leaves the
first build to boot with the modules of the second, with no mark that says so. -/
theorem kept_apart :
    Together [.openwrt] builds start ∧ ¬ Belongs [.openwrt] (run [.openwrt] start
        (updated ++ [.bootUpdate bundleA (replicate 28 fine)])) ∧
      ∃ s', Boots [.openwrt] (step [.openwrt] (run [.openwrt] start updated)
          (.rollbackBoot (replicate 4 fine))) s' ∧
        builds.modules s'.slot.kernel = some modulesA ∧ s'.modules .openwrt ['6'] = modulesB := by
  refine ⟨together_start, fun h => ?_, _, boots_booted (by decide), by decide, by decide⟩
  obtain ⟨r, hr, -, hsets⟩ := h _ _ rfl rfl
  obtain rfl : ['6'] = r := some.inj (.trans (by decide) hr)
  exact absurd (hsets .openwrt mem_cons_self) (by decide)

end Mu300.KernelStep
