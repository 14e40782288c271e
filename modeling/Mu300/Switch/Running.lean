import Mu300.Switch.Commands

/-!
# The directory that runs

The running system stays in its directory under whatever name the renames give it. Two layers:

* `Distinct` — every directory is in one place, whatever `rm -rf` leaves behind.
* `Safe` — the running one has a name of its own, as long as every `rm -rf` clears.
-/

namespace Mu300.Switch

open Crash Crash.Prog Directory List Function

variable {s : State}

/-! ## Every directory in one place -/

/-- No directory is in two places, and the numbers to come are new. -/
structure Distinct (s : State) : Prop where
  once : ∀ i, total s.dirs i ≤ 1
  fresh : ∀ i, s.next ≤ i → total s.dirs i = 0

namespace Distinct

section

variable (h : Distinct s)

include h

theorem shrink {s' : State} {n : Name} {x : Option (Dir Name)}
    (hdirs : s'.dirs = update s.dirs n x) (hnext : s'.next = s.next)
    (hx : ∀ i, weight i x ≤ weight i (s.dirs n)) : Distinct s' := by
  have le : ∀ i, total s'.dirs i ≤ total s.dirs i := by
    intro i
    have hu := total_update s.dirs n x i
    have := hx i
    rw [hdirs]
    omega
  refine ⟨fun i => Nat.le_trans (le i) (h.once i), fun i hi => ?_⟩
  have := h.fresh i (hnext ▸ hi)
  have := le i
  omega

theorem tear (n : Name) (keeps : Name → Bool) : Distinct (s.tear n keeps) := by
  rw [State.tear]
  split
  · exact h
  · next d hd =>
    refine h.shrink rfl rfl fun i => ?_
    rw [hd]
    exact Nat.add_le_add_left (Inner.count_prune_le keeps i d.inner) _

theorem drop (n : Name) : Distinct (s.drop n) :=
  h.shrink rfl rfl fun _ => Nat.zero_le _

theorem move (src dst : Name) : Distinct (s.move src dst) := by
  rw [State.move]
  split
  · exact h
  · next dirs hmv =>
    refine ⟨fun i => ?_, fun i hi => ?_⟩
    · rw [total_mv hmv]
      exact h.once i
    · rw [total_mv hmv]
      exact h.fresh i hi

theorem mkdir : Distinct s.mkdir := by
  rw [State.mkdir]
  split
  · next hnew =>
    have hu : ∀ i, total (update s.dirs .new (some ⟨s.next, false, .empty⟩)) i =
        total s.dirs i + if s.next = i then 1 else 0 := by
      intro i
      have := total_update s.dirs .new (some ⟨s.next, false, .empty⟩) i
      rw [hnew] at this
      exact this
    refine ⟨fun i => ?_, fun i hi => ?_⟩
    · rw [hu]
      split
      · next hi =>
        have := h.fresh i (Nat.le_of_eq hi)
        omega
      · exact h.once i
    · have hi : s.next + 1 ≤ i := hi
      rw [hu, h.fresh i (by omega), if_neg (by omega)]
  · exact h

theorem fill : Distinct s.fill := by
  refine h.shrink rfl rfl fun i => ?_
  rcases s.dirs .new with _ | d
  · exact Nat.le_refl _
  · exact Nat.le_refl _

theorem isRoot_inj {n m : Name} (hn : s.IsRoot n) (hm : s.IsRoot m) : n = m := by
  obtain ⟨d, hd, hr⟩ := hn
  obtain ⟨d', hd', hr'⟩ := hm
  by_contra hne
  have hle := weight_add_weight_le s.dirs (.symm hne) d.id
  have hid : d'.id = d.id := Option.some.inj (hr'.symm.trans hr)
  have h₁ := d.count_id_pos
  have h₂ := d'.count_id_pos
  have h₃ := h.once d.id
  rw [hid] at h₂
  rw [hd, hd', weight_some, weight_some] at hle
  omega

theorem count_root_eq_zero {n m : Name} {d : Dir Name} {r : ℕ} (hn : s.IsRoot n)
    (hr : s.root = some r) (hm : s.dirs m = some d) (hne : m ≠ n) : d.count r = 0 := by
  obtain ⟨e, he, hr'⟩ := hn
  cases hr.symm.trans hr'
  have hle := weight_add_weight_le s.dirs hne e.id
  have h₁ := e.count_id_pos
  have h₂ := h.once e.id
  rw [he, hm, weight_some, weight_some] at hle
  omega

end

theorem keeps_rm (n : Name) : Keeps Distinct (rm n) :=
  keeps_bind (keeps_op fun e _ h => h.tear n e.keeps) fun _ => keeps_op fun e _ h => by
    split
    · exact h.drop n
    · exact h

theorem keeps_mv (src dst : Name) : Keeps Distinct (mv src dst) := keeps_op fun e _ h => by
  split
  · exact h.move src dst
  · exact h

theorem keeps_rmUnlessRoot (n : Name) : Keeps Distinct (rmUnlessRoot n) :=
  keeps_bind (keeps_test _) fun _ => keeps_ite (keeps_pure _) (keeps_rm n)

theorem keeps_die : Keeps Distinct die := keeps_bind (keeps_rm _) fun _ => keeps_pure _

theorem keeps_renames (aside : Name) : Keeps Distinct (renames aside) :=
  keeps_bind (keeps_rm _) fun _ => keeps_bind (keeps_mv _ _) fun _ =>
    keeps_ite
      (keeps_bind (keeps_mv _ _) fun _ =>
        keeps_ite (keeps_pure _) (keeps_bind (keeps_mv _ _) fun _ => keeps_die))
      keeps_die

theorem keeps_switchOver (link : Bool) : Keeps Distinct (switchOver link) :=
  keeps_bind (keeps_test _) fun _ => keeps_ite keeps_die <|
    keeps_ite
      (keeps_bind (keeps_test _) fun _ =>
        keeps_ite keeps_die (keeps_bind (keeps_rm _) fun _ => keeps_renames _))
      (keeps_renames _)

theorem keeps_applyOne (noRollback : Bool) : Keeps Distinct (applyOne noRollback) :=
  keeps_bind (keeps_rm _) fun _ => keeps_bind (keeps_op fun _ _ h => h.mkdir) fun _ =>
    keeps_bind (keeps_look _) fun _ =>
      keeps_ite
        (keeps_bind (keeps_op fun _ _ h => h.fill) fun _ =>
          keeps_bind (keeps_look _) fun _ => keeps_switchOver _)
        keeps_die

theorem keeps_apply (noRollback : Bool) : Keeps Distinct (apply noRollback) :=
  keeps_bind (keeps_test _) fun _ => keeps_ite
    (keeps_bind (keeps_test _) fun _ => keeps_ite (keeps_pure _)
      (keeps_bind (keeps_rmUnlessRoot _) fun _ => keeps_bind (keeps_rmUnlessRoot _) fun _ =>
        keeps_bind (keeps_look _) fun _ => keeps_ite (keeps_applyOne _) (keeps_pure _)))
    (keeps_pure _)

theorem keeps_rollback : Keeps Distinct rollback :=
  keeps_bind (keeps_test _) fun _ => keeps_ite
    (keeps_bind (keeps_test _) fun _ => keeps_ite (keeps_pure _)
      (keeps_bind (keeps_rmUnlessRoot _) fun _ => keeps_bind (keeps_mv _ _) fun _ => keeps_ite
        (keeps_bind (keeps_mv _ _) fun _ => keeps_ite
          (keeps_bind (keeps_rmUnlessRoot _) fun _ => keeps_pure _)
          (keeps_bind (keeps_mv _ _) fun _ => keeps_pure _))
        (keeps_pure _)))
    (keeps_pure _)

theorem step (h : Distinct s) (a : Action) : Distinct (Switch.step s a) := by
  cases a with
  | apply noRollback es => exact (keeps_apply noRollback).exec_state es h
  | rollback es => exact keeps_rollback.exec_state es h
  | clean es =>
    exact (keeps_bind (keeps_rmUnlessRoot _) fun _ => keeps_bind (keeps_rmUnlessRoot _) fun _ =>
      keeps_pure _).exec_state es h
  | reboot => exact ⟨h.once, h.fresh⟩

theorem installed : Distinct installed := by
  have e : ∀ i, total Switch.installed.dirs i = if 0 = i then 1 else 0 := fun i => rfl
  refine ⟨fun i => ?_, fun i hi => ?_⟩
  · rw [e]
    split <;> omega
  · have hi : 1 ≤ i := hi
    rw [e, if_neg (by omega)]

theorem run (h : Distinct s) (as : List Action) : Distinct (Switch.run s as) := by
  induction as generalizing s with
  | nil => exact h
  | cons a as ih => exact ih (h.step a)

end Distinct

/-! ## The running directory -/

/-- The running directory has a name of its own, and no `rm -rf` came near it. -/
structure Safe (s : State) : Prop extends Distinct s where
  placed : ∀ r, s.root = some r → ∃ n, n ≠ .new ∧ s.IsRoot n
  spared : ∀ d r, Event.removed d (some r) ∈ s.log → d.count r = 0

namespace Safe

section

variable (h : Safe s)

include h

theorem not_isRoot_new : ¬ s.IsRoot .new := by
  intro hn
  obtain ⟨d, hd, hr⟩ := hn
  obtain ⟨m, hm, hroot⟩ := h.placed _ hr
  exact hm (h.isRoot_inj hroot ⟨d, hd, hr⟩)

theorem frame {s' : State} {n : Name} (hd : Distinct s') (hn : ¬ s.IsRoot n)
    (hdirs : ∀ m, m ≠ n → s'.dirs m = s.dirs m) (hroot : s'.root = s.root)
    (hlog : ∀ d r, Event.removed d (some r) ∈ s'.log → d.count r = 0) : Safe s' := by
  refine ⟨hd, fun r hr => ?_, hlog⟩
  obtain ⟨m, hm, hrun⟩ := h.placed r (hroot ▸ hr)
  have hne : m ≠ n := fun e => hn (e ▸ hrun)
  exact ⟨m, hm, hrun.congr (hdirs m hne) hroot⟩

theorem tear {n : Name} (hn : ¬ s.IsRoot n) (keeps : Name → Bool) : Safe (s.tear n keeps) := by
  refine h.frame (h.toDistinct.tear n keeps) hn (fun m hm => s.tear_dirs_of_ne hm keeps)
    (s.tear_root n keeps) ?_
  intro d r hlog
  rw [State.tear] at hlog
  split at hlog
  · exact h.spared d r hlog
  · next d' hd' =>
    rcases mem_cons.1 hlog with heq | hmem
    · -- the tree the removal starts on: the running directory is another one
      obtain ⟨rfl, hr⟩ := Event.removed.inj heq
      obtain ⟨m, -, hrun⟩ := h.placed r hr.symm
      exact h.count_root_eq_zero hrun hr.symm hd' fun e => hn (e ▸ hrun)
    · exact h.spared d r hmem

theorem drop {n : Name} (hn : ¬ s.IsRoot n) : Safe (s.drop n) :=
  h.frame (h.toDistinct.drop n) hn (fun _ hm => s.drop_dirs_of_ne hm) rfl h.spared

theorem mkdir : Safe s.mkdir :=
  h.frame h.toDistinct.mkdir h.not_isRoot_new (fun _ hm => s.mkdir_dirs_of_ne hm) s.mkdir_root
    fun d r hlog => h.spared d r (s.mkdir_log ▸ hlog)

theorem fill : Safe s.fill :=
  h.frame h.toDistinct.fill h.not_isRoot_new (fun _ hm => update_of_ne hm ..) rfl h.spared

theorem move {src dst : Name} {dirs : Listing Name} (hmv : Directory.mv s.dirs src dst = some dirs)
    (hnew : dst ≠ .new) (hfree : s.IsRoot src → s.dirs dst = none) : Safe (s.move src dst) := by
  have hd := h.toDistinct.move src dst
  rw [s.move_of_some hmv] at hd ⊢
  refine ⟨hd, fun r hr => ?_, fun d r hlog => ?_⟩
  · obtain ⟨d, -, -, -, hframe, hdst⟩ := mv_eq_some hmv
    obtain ⟨m, hm, e, he, hroot⟩ := h.placed r hr
    by_cases hms : m = src
    · -- the running directory is renamed
      subst hms
      have hnone := hfree ⟨e, he, hroot⟩
      exact ⟨dst, hnew, e, (mv_to_free hmv hnone).trans he, hroot⟩
    · by_cases hmd : m = dst
      · -- another one goes inside the running directory
        subst hmd
        rcases hdst with ⟨hnone, -⟩ | ⟨t, ht, hd'⟩
        · cases hnone.symm.trans he
        · cases ht.symm.trans he
          exact ⟨m, hm, e.take src d, hd', hroot⟩
      · exact ⟨m, hm, e, (hframe m hms hmd).trans he, hroot⟩
  · rcases mem_cons.1 hlog with heq | hmem
    · cases heq
    · exact h.spared d r hmem

end

variable {α : Type}

section

variable (h : Safe s)

include h

theorem tear_drop {n : Name} (hn : ¬ s.IsRoot n) (keeps : Name → Bool) :
    Safe ((s.tear n keeps).drop n) := by
  refine (h.tear hn keeps).drop ?_
  rintro ⟨d, hd, hr⟩
  rw [State.tear] at hd hr
  rcases hs : s.dirs n with _ | d'
  · simp only [hs] at hd
    cases hd
  · simp only [hs, update_self, Option.some.injEq] at hd hr
    subst hd
    exact hn ⟨d', hs, hr⟩

theorem wp_rm {Q : Unit → State → Prop} {n : Name} (hn : ¬ s.IsRoot n)
    (hQ : ∀ s', Safe s' → s'.dirs = update s.dirs n none → s'.root = s.root → Q () s') :
    wp Clears Safe Q (rm n) s :=
  wp_rm_clears h (fun keeps => h.tear hn keeps) fun keeps =>
    hQ _ (h.tear_drop hn keeps) (s.tear_drop_dirs n keeps) (s.tear_root n keeps)

theorem wp_rmUnlessRoot {Q : Unit → State → Prop} {n : Name}
    (hQ : ∀ s', Safe s' → (s.IsRoot n ∧ s' = s ∨ s'.dirs n = none) → Q () s') :
    wp Clears Safe Q (rmUnlessRoot n) s :=
  wp_rmUnlessRoot_clears h (fun hr => hQ s h (.inl ⟨hr, rfl⟩)) fun hr =>
    ⟨fun keeps => h.tear hr keeps, fun keeps =>
      hQ _ (h.tear_drop hr keeps) (.inr (State.drop_dirs_self ..))⟩

theorem wp_mv {Q : Bool → State → Prop} {src dst : Name} (hnew : dst ≠ .new)
    (hfree : s.IsRoot src → s.dirs dst = none) (hfails : Q false s)
    (hQ : ∀ s', Safe s' → s'.dirs src = none → Q true s') : wp Clears Safe Q (mv src dst) s := by
  refine Switch.wp_mv h (fun _ => hfails) fun dirs hmv => ?_
  obtain ⟨d, -, -, hsrc, -, -⟩ := mv_eq_some hmv
  refine hQ _ ?_ hsrc
  rw [← s.move_of_some hmv]
  exact h.move hmv hnew hfree

theorem wp_die : wp Clears Safe (fun _ => Safe) die s := by
  rw [die, wp_bind]
  exact h.wp_rm h.not_isRoot_new fun s' hs' _ _ => hs'

/-- The renames start with a free name to go aside to: `OS.old` after the removal, or a name that
was free before it. -/
theorem wp_renames {aside : Name} (hold : ¬ s.IsRoot .old)
    (hnew : aside ≠ .new) (hfree : aside = .old ∨ s.dirs aside = none) :
    wp Clears Safe (fun _ => Safe) (renames aside) s := by
  rw [renames, wp_bind]
  refine h.wp_rm hold fun s₁ h₁ hdirs _ => ?_
  have hfree₁ : s₁.dirs aside = none := by
    rw [hdirs]
    by_cases ha : aside = .old
    · rw [ha, update_self]
    · rw [update_of_ne ha]
      exact hfree.resolve_left ha
  rw [wp_bind]
  refine h₁.wp_mv hnew (fun _ => hfree₁) h₁.wp_die fun s₂ h₂ hos₂ => ?_
  simp only [if_true]
  rw [wp_bind]
  refine h₂.wp_mv (by decide) (fun _ => hos₂) ?_ fun s₃ h₃ _ => h₃
  -- the new system did not go in: the old one back to `OS`, a free name
  simp only [Bool.false_eq_true, if_false]
  rw [wp_bind]
  exact h₂.wp_mv (by decide) (fun _ => hos₂) h₂.wp_die fun s₃ h₃ _ => h₃.wp_die

theorem wp_switchOver (link : Bool) : wp Clears Safe (fun _ => Safe) (switchOver link) s := by
  refine wp_step h fun _ _ => ?_
  refine wp_if (fun _ => h.wp_die) fun hold => ?_
  have hold : ¬ s.IsRoot .old := fun hr => hold (decide_eq_true hr)
  refine wp_if (fun _ => ?_) fun _ => h.wp_renames hold (by decide) (.inl rfl)
  refine wp_step h fun _ _ => ?_
  refine wp_if (fun _ => h.wp_die) fun hbroken => ?_
  rw [wp_bind]
  refine h.wp_rm (fun hr => hbroken (decide_eq_true hr)) fun s₁ h₁ hdirs hroot => ?_
  have hgone : s₁.dirs .broken = none := by rw [hdirs, update_self]
  refine h₁.wp_renames (fun hr => hold ?_) (by decide) (.inr hgone)
  have hframe : s.dirs .old = s₁.dirs .old := by rw [hdirs, update_of_ne (by decide)]
  exact hr.congr hframe hroot.symm

theorem wp_applyOne (noRollback : Bool) :
    wp Clears Safe (fun _ => Safe) (applyOne noRollback) s := by
  rw [applyOne, wp_bind]
  refine h.wp_rm h.not_isRoot_new fun s₁ h₁ _ _ => ?_
  refine wp_step h₁ fun _ _ => ?_
  refine wp_step h₁.mkdir fun _ _ => ?_
  refine wp_if (fun _ => ?_) fun _ => h₁.mkdir.wp_die
  refine wp_step h₁.mkdir fun _ _ => ?_
  exact wp_step h₁.mkdir.fill fun _ _ => h₁.mkdir.fill.wp_switchOver _

theorem wp_apply (noRollback : Bool) : wp Clears Safe (fun _ => Safe) (apply noRollback) s := by
  refine wp_step h fun _ _ => ?_
  refine wp_if (fun _ => ?_) fun _ => h
  refine wp_step h fun _ _ => ?_
  refine wp_if (fun _ => h) fun _ => ?_
  rw [cleanBroken, wp_bind]
  refine h.wp_rmUnlessRoot fun s₁ h₁ _ => ?_
  rw [deltaClean, wp_bind]
  refine h₁.wp_rmUnlessRoot fun s₂ h₂ _ => ?_
  refine wp_step h₂ fun _ _ => ?_
  exact wp_if (fun _ => h₂.wp_applyOne noRollback) fun _ => h₂

theorem wp_rollback : wp Clears Safe (fun _ => Safe) rollback s := by
  refine wp_step h fun _ _ => ?_
  refine wp_if (fun _ => ?_) fun _ => h
  refine wp_step h fun _ _ => ?_
  refine wp_if (fun _ => h) fun _ => ?_
  rw [wp_bind]
  refine h.wp_rmUnlessRoot fun s₁ h₁ hbroken => ?_
  -- the name is free, or it is the running system: then `OS` is not
  have hfree : s₁.IsRoot .os → s₁.dirs .broken = none := by
    intro hos
    rcases hbroken with ⟨hrun, rfl⟩ | hnone
    · cases h.isRoot_inj hrun hos
    · exact hnone
  rw [goBack, wp_bind]
  refine h₁.wp_mv (by decide) hfree h₁ fun s₂ h₂ hos₂ => ?_
  simp only [if_true]
  rw [wp_bind]
  refine h₂.wp_mv (by decide) (fun _ => hos₂) ?_ fun s₃ h₃ _ => ?_
  · simp only [Bool.false_eq_true, if_false]
    rw [wp_bind]
    exact h₂.wp_mv (by decide) (fun _ => hos₂) h₂ fun s₃ h₃ _ => h₃
  · simp only [if_true]
    rw [wp_bind]
    exact h₃.wp_rmUnlessRoot fun s₄ h₄ _ => h₄

theorem wp_clean : wp Clears Safe (fun _ => Safe) clean s := by
  rw [clean, wp_bind]
  refine h.wp_rmUnlessRoot fun s₁ h₁ _ => ?_
  rw [wp_bind]
  exact h₁.wp_rmUnlessRoot fun s₂ h₂ _ => h₂

end

theorem installed : Safe installed := by
  refine ⟨.installed, fun r hr => ?_, fun d r hlog => ?_⟩
  · exact ⟨.os, by decide, ⟨0, true, .empty⟩, rfl, rfl⟩
  · cases hlog

end Safe

/-- Every `rm -rf` of the action gets to its end, unless the action is cut off. -/
def Action.Clears : Action → Prop
  | .apply _ es => ∀ e ∈ es, Switch.Clears e
  | .rollback es | .clean es => ∀ e ∈ es, Switch.Clears e
  | .reboot => True

theorem Safe.step (h : Safe s) {a : Action} (ha : a.Clears) : Safe (Switch.step s a) := by
  cases a with
  | apply noRollback es => exact exec_state_of_wp ha (h.wp_apply noRollback)
  | rollback es => exact exec_state_of_wp ha h.wp_rollback
  | clean es => exact exec_state_of_wp ha h.wp_clean
  | reboot =>
    refine ⟨⟨h.once, h.fresh⟩, fun r hr => ?_, h.spared⟩
    obtain ⟨d, hd, hid⟩ := Option.map_eq_some_iff.1 hr
    exact ⟨.os, by decide, d, hd, congrArg (Option.map Dir.id) hd⟩

theorem Safe.run (h : Safe s) {as : List Action} (has : ∀ a ∈ as, a.Clears) :
    Safe (Switch.run s as) := by
  induction as generalizing s with
  | nil => exact h
  | cons a as ih =>
    exact ih (h.step (has a mem_cons_self)) fun a' ha' => has a' (.tail _ ha')

/-- **The running system is never removed**, in any history of updates, rollbacks, cleanings and
reboots whose removals get to their end: no `rm -rf` was ever started on a tree that had the
directory in it that was running at the time. -/
theorem running_system_spared (as : List Action) (has : ∀ a ∈ as, a.Clears) (d : Dir Name) (r : ℕ)
    (hlog : Event.removed d (some r) ∈ (run installed as).log) : d.count r = 0 :=
  (Safe.installed.run has).spared d r hlog

def fine : Answer := ⟨true, true, fun _ => false, true⟩

/-- Everything works but `rm -rf`, which leaves something behind. -/
def stuck : Answer := { fine with clears := false }

/-- A copy that is not running goes: the one the update put aside. -/
theorem old_copy_removed :
    Event.removed ⟨0, true, .empty⟩ (some 1) ∈
        (run installed [.apply false (replicate 30 fine), .reboot,
          .clean (replicate 10 fine)]).log ∧
      Dir.count 1 (⟨0, true, .empty⟩ : Dir Name) = 0 := by
  have hlog : Event.removed ⟨0, true, .empty⟩ (some 1) ∈
      (run installed [.apply false (replicate 30 fine), .reboot,
        .clean (replicate 10 fine)]).log := by decide
  refine ⟨hlog, running_system_spared _ ?_ _ _ hlog⟩
  have hfine : ∀ k, ∀ e ∈ replicate k fine, Clears e := by
    intro k e he
    rw [eq_of_mem_replicate he]
    rfl
  intro a ha
  simp only [mem_cons, not_mem_nil, or_false] at ha
  rcases ha with rfl | rfl | rfl
  · exact hfine 30
  · trivial
  · exact hfine 10

/-- One `rm -rf` of `OS.old` that leaves something: the running system goes inside what is left,
under a name nothing looks for, and `clean` removes it. -/
theorem running_system_removed :
    Event.removed ⟨0, false, .entry .os 1 true .empty .empty⟩ (some 1) ∈
        (run installed [.apply false (replicate 30 fine), .reboot,
          .apply false (replicate 30 stuck), .clean (replicate 10 fine)]).log ∧
      Dir.count 1 (⟨0, false, .entry .os 1 true .empty .empty⟩ : Dir Name) = 1 := by
  decide

end Mu300.Switch
