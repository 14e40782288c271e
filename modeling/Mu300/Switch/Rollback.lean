import Mu300.Switch.Running

/-!
# What a rollback leaves

`rollback` is to put the kept copy in the place of the system and the system away: as
`OS.broken` while it runs, and nowhere otherwise. It does so unless `OS.broken` is what runs when
it starts, which an update between a rollback and its reboot brings about: `mv OS OS.broken` then
puts the system inside the running one.
-/

namespace Mu300.Switch

open Crash Crash.Prog Directory List Function

variable {s : State}

/-- A rollback that did what it is for. -/
structure Swapped (s s' : State) : Prop where
  os : s'.dirs .os = s.dirs .old
  old : s'.dirs .old = none
  new : s'.dirs .new = s.dirs .new
  broken : s'.dirs .broken = if s.IsRoot .os then s.dirs .os else none

/-- The two renames, when `OS.broken` is what runs: it keeps its name, with the system inside. -/
theorem isRoot_broken_of_nested {dirs dirs' : Listing Name} {log : List Event}
    (hb : s.IsRoot .broken)
    (hmv : Directory.mv s.dirs .os .broken = some dirs)
    (hmv' : Directory.mv dirs .old .os = some dirs') :
    State.IsRoot { s with dirs := dirs', log := log } .broken := by
  obtain ⟨t, ht, hid⟩ := hb
  obtain ⟨d, -, -, -, -, hdst⟩ := mv_eq_some hmv
  obtain ⟨e, -, -, -, hframe', -⟩ := mv_eq_some hmv'
  rcases hdst with ⟨hnone, -⟩ | ⟨t', ht', hsome⟩
  · cases hnone.symm.trans ht
  · cases ht.symm.trans ht'
    exact ⟨t.take .os d, (hframe' .broken (by decide) (by decide)).trans hsome, hid⟩

theorem rollback_renames {dirs dirs' : Listing Name}
    (hmv : Directory.mv (update s.dirs .broken none) .os .broken = some dirs)
    (hmv' : Directory.mv dirs .old .os = some dirs') :
    dirs' .os = s.dirs .old ∧ dirs' .old = none ∧ dirs' .new = s.dirs .new ∧
      dirs' .broken = s.dirs .os := by
  obtain ⟨d, -, -, hos, hframe, -⟩ := mv_eq_some hmv
  obtain ⟨e, -, -, hold', hframe', -⟩ := mv_eq_some hmv'
  have hframe : ∀ m, m ≠ .os → m ≠ .broken → dirs m = s.dirs m := by
    intro m hm hm'
    rw [hframe m hm hm', update_of_ne hm']
  have hbroken : dirs .broken = s.dirs .os := by
    rw [mv_to_free hmv (update_self ..), update_of_ne (by decide)]
  refine ⟨?_, hold', ?_, ?_⟩
  · rw [mv_to_free hmv' hos, hframe .old (by decide) (by decide)]
  · rw [hframe' .new (by decide) (by decide), hframe .new (by decide) (by decide)]
  · rw [hframe' .broken (by decide) (by decide), hbroken]

/-- A rollback that says it went back has made both renames, and then removed what it put away
unless that runs. -/
theorem wp_goBack {P : State → Prop}
    (hP : ∀ dirs₁ dirs₂ log s', Directory.mv s.dirs .os .broken = some dirs₁ →
      Directory.mv dirs₁ .old .os = some dirs₂ → s' = { s with dirs := dirs₂, log := log } →
      (s'.IsRoot .broken → P s') ∧
        (¬ s'.IsRoot .broken → ∀ keeps, P ((s'.tear .broken keeps).drop .broken))) :
    wp Clears (fun _ => True) (fun r s' => r = .rolledBack → P s') goBack s := by
  rw [goBack, wp_bind]
  refine wp_mv trivial (by rintro _ ⟨⟩) fun dirs₁ hmv => ?_
  simp only [if_true]
  rw [wp_bind]
  refine wp_mv trivial (fun _ => ?_) fun dirs₂ hmv' => ?_
  · simp only [Bool.false_eq_true, if_false]
    rw [wp_bind]
    exact wp_mv trivial (by rintro _ ⟨⟩) (by rintro _ _ ⟨⟩)
  simp only [if_true]
  rw [wp_bind]
  obtain ⟨hroot, hrm⟩ := hP dirs₁ dirs₂ _ _ hmv hmv' rfl
  exact wp_rmUnlessRoot_clears trivial (fun hr _ => hroot hr) fun hr =>
    ⟨fun _ => trivial, fun keeps _ => hrm hr keeps⟩

theorem wp_rollback_swapped (hd : Distinct s) : wp Clears (fun _ => True)
      (fun r s' => r = .rolledBack → (Swapped s s' ↔ ¬ s.IsRoot .broken)) rollback s := by
  refine wp_step trivial fun _ _ => ?_
  rw [wp_ite]
  refine ⟨fun _ => ?_, by rintro _ ⟨⟩⟩
  refine wp_step trivial fun _ _ => ?_
  rw [wp_ite]
  refine ⟨by rintro _ ⟨⟩, fun _ => ?_⟩
  rw [wp_bind]
  refine wp_rmUnlessRoot_clears trivial (fun hb => ?_) fun hb => ⟨fun _ => trivial, fun keeps => ?_⟩
  · -- `OS.broken` runs: it stays, and `OS` goes inside
    have hos : ¬ s.IsRoot .os := fun hos => absurd (hd.isRoot_inj hb hos) (by decide)
    refine wp_goBack fun dirs₁ dirs₂ log s' hmv hmv' hs' => ?_
    have hr : s'.IsRoot .broken := hs' ▸ isRoot_broken_of_nested hb hmv hmv'
    refine ⟨fun _ => ⟨fun hswap => ?_, fun hnb => absurd hb hnb⟩, fun hnr => absurd hr hnr⟩
    obtain ⟨d, hsome, -⟩ := hr
    have hnone := hswap.broken
    rw [if_neg hos] at hnone
    cases hnone.symm.trans hsome
  · -- the name is free
    refine wp_goBack fun dirs₁ dirs₂ log s' hmv hmv' hs' => ?_
    rw [s.tear_drop_dirs .broken keeps] at hmv
    obtain ⟨hos, hold, hnew, hbroken⟩ := rollback_renames hmv hmv'
    have hdirs : s'.dirs = dirs₂ := by rw [hs']
    have hroot : s'.root = s.root := by rw [hs']; exact s.tear_root .broken keeps
    have hiff : s'.IsRoot .broken ↔ s.IsRoot .os := by
      unfold State.IsRoot
      rw [hdirs, hbroken, hroot]
    refine ⟨fun hr => ⟨fun _ => hb, fun _ => ?_⟩, fun hr keeps' => ⟨fun _ => hb, fun _ => ?_⟩⟩
    · rw [← hdirs] at hos hold hnew hbroken
      exact ⟨hos, hold, hnew, by rw [if_pos (hiff.1 hr), hbroken]⟩
    · have hframe : ∀ m, m ≠ .broken →
          ((s'.tear .broken keeps').drop .broken).dirs m = dirs₂ m := by
        intro m hm
        rw [s'.tear_drop_dirs, update_of_ne hm, hdirs]
      refine ⟨(hframe _ (by decide)).trans hos, (hframe _ (by decide)).trans hold,
        (hframe _ (by decide)).trans hnew, ?_⟩
      rw [State.drop_dirs_self, if_neg fun h => hr (hiff.2 h)]

/-- **Rollback swaps exactly, unless `OS.broken` is what runs.** After any history, a rollback
that says it went back and whose removals get to their end leaves the kept copy as `OS` and the
former `OS` as `OS.broken` or nowhere, and touches nothing else, if and only if `OS.broken` was
not the running system when it started. -/
theorem rollback_swaps_iff (as : List Action) (es : List Answer) (hes : ∀ e ∈ es, Clears e)
    (s' : State) (h : exec rollback es (run installed as) = .done .rolledBack s') :
    Swapped (run installed as) s' ↔ ¬ (run installed as).IsRoot .broken :=
  exec_done_of_wp hes (wp_rollback_swapped (Distinct.installed.run as)) h rfl

/-- An update, and the reboot into it. -/
def firstUpdate : List Action := [.apply false (replicate 30 fine), .reboot]

/-- Back from the first update, with nothing failing. -/
theorem rollback_of_first_update :
    (exec rollback (replicate 20 fine) (run installed firstUpdate)).result = some .rolledBack ∧
      Swapped (run installed firstUpdate)
        (exec rollback (replicate 20 fine) (run installed firstUpdate)).state := by
  have hdone : (exec rollback (replicate 20 fine) (run installed firstUpdate)).result =
    some .rolledBack := by decide
  have hfine : ∀ e ∈ replicate 20 fine, Clears e := by
    intro e he
    rw [eq_of_mem_replicate he]
    rfl
  exact ⟨hdone, (rollback_swaps_iff firstUpdate _ hfine _ (Outcome.eq_done hdone)).2 (by decide)⟩

/-- Rolled back, updated again and rolled back again without a reboot: the second update ends up
inside the first one, which runs. -/
theorem rollback_puts_inside :
    let s := run installed
      (firstUpdate ++ [.rollback (replicate 20 fine), .apply false (replicate 30 fine)])
    let o := exec rollback (replicate 20 fine) s
    o.result = some .rolledBack ∧ o.state.dirs .broken =
      some ⟨1, true, .entry .os 2 true .empty .empty⟩ ∧ ¬ Swapped s o.state := by
  intro s o
  have hbroken : o.state.dirs .broken = some ⟨1, true, .entry .os 2 true .empty .empty⟩ := by decide
  refine ⟨by decide, hbroken, fun hswap => ?_⟩
  have hnone : o.state.dirs .broken = none := hswap.broken.trans (if_neg (by decide))
  cases hnone.symm.trans hbroken

end Mu300.Switch
