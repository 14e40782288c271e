import Mu300.PickRoot
import Mu300.Switch.Running

/-!
# A power cut during the switch

The switch of `apply_one` and the one of `rollback` have the same heart: `OS` goes aside and
another directory becomes `OS`, by two renames with nothing in between but a moment. A cut
anywhere else leaves the system that was there or the new one as `OS`, and the next boot starts
it. A cut in that moment leaves no `OS` at all.
-/

namespace Mu300.Switch

open Crash Crash.Prog Directory Shell List

variable {s : State} {cur nxt : Dir Name}

/-- The last rename of a record. -/
def lastMove : List Event → Option (Name × Name)
  | [] => none
  | .moved src dst :: _ => some (src, dst)
  | .removed .. :: log => lastMove log

/-- The last rename moved `OS` aside: the moment between the two renames of a switch. -/
def BetweenRenames (s : State) : Prop := ∃ aside, lastMove s.log = some (.os, aside)

/-- `OS` is the system in place or the one that takes its place; or it was just moved aside. -/
def Settled (cur nxt : Dir Name) (s : State) : Prop :=
  (BetweenRenames s ∧ s.dirs .os = none) ∨
    ¬ BetweenRenames s ∧ (s.dirs .os = some cur ∨ s.dirs .os = some nxt)

namespace Settled

theorem frame (h : Settled cur nxt s) {s' : State} (hos : s'.dirs .os = s.dirs .os)
    (hlog : lastMove s'.log = lastMove s.log) : Settled cur nxt s' := by
  rw [Settled, BetweenRenames, hos, hlog]
  exact h

/-- Nothing was renamed yet. -/
theorem start (hlog : s.log = []) (hos : s.dirs .os = some cur) : Settled cur nxt s := by
  refine .inr ⟨?_, .inl hos⟩
  rintro ⟨aside, h⟩
  rw [hlog] at h
  cases h

/-- Something was just renamed to `OS`. -/
theorem moved {src : Name} {dirs : Listing Name} {log : List Event} (hsrc : src ≠ .os)
    (hos : dirs .os = some cur ∨ dirs .os = some nxt) :
    Settled cur nxt { s with dirs := dirs, log := .moved src .os :: log } := by
  refine .inr ⟨?_, hos⟩
  rintro ⟨aside, h⟩
  cases h
  exact hsrc rfl

theorem tear (h : Settled cur nxt s) {n : Name} (hn : n ≠ .os) (keeps : Name → Bool) :
    Settled cur nxt (s.tear n keeps) := by
  refine h.frame (s.tear_dirs_of_ne hn.symm keeps) ?_
  rw [State.tear]
  split
  · rfl
  · rfl

theorem drop (h : Settled cur nxt s) {n : Name} (hn : n ≠ .os) : Settled cur nxt (s.drop n) :=
  h.frame (s.drop_dirs_of_ne hn.symm) rfl

end Settled

variable {A : Answer → Prop} {α : Type}

theorem wp_rm_settled {Q : Unit → State → Prop} {n : Name} (h : Settled cur nxt s) (hn : n ≠ .os)
    (hQ : ∀ s', Settled cur nxt s' → (∀ m, m ≠ n → s'.dirs m = s.dirs m) →
      ((∀ e, A e → Clears e) → s'.dirs n = none) → Q () s') :
      wp A (Settled cur nxt) Q (rm n) s := by
  refine wp_step h fun e _ => ?_
  rw [wp_op]
  refine ⟨h.tear hn e.keeps, fun e' he' => ?_⟩
  have hframe : ∀ m, m ≠ n → (s.tear n e.keeps).dirs m =
    s.dirs m := fun m hm => s.tear_dirs_of_ne hm e.keeps
  split
  · refine hQ _ ((h.tear hn e.keeps).drop hn) (fun m hm => ?_) fun _ => State.drop_dirs_self ..
    rw [State.drop_dirs_of_ne _ hm, hframe m hm]
  · next hc => exact hQ _ (h.tear hn e.keeps) hframe fun hall => absurd (hall e' he') hc

/-- Where the answers are as they should be: renames work, or removals get to their end. -/
def Sound (A : Answer → Prop) : Prop := (∀ e, A e → e.moves) ∨ ∀ e, A e → Clears e

/-- **The two renames.** `OS` goes aside and `src` becomes `OS`; when that fails, what was put
aside becomes `OS` again. Where renames can fail, the name it went to has to be free, or what
comes back is not what went. -/
theorem wp_swap {Q : α → State → Prop} {p q r : Prog Answer State α} {src aside : Name}
    (h : Settled cur nxt s) (hos : s.dirs .os = some cur) (hsrc : s.dirs src = some nxt)
    (hne : src ≠ aside) (hso : src ≠ .os) (hao : aside ≠ .os)
    (hfree : (∀ e, A e → e.moves) ∨ s.dirs aside = none)
    (hp : ∀ s', Settled cur nxt s' → wp A (Settled cur nxt) Q p s')
    (hq : ∀ s', Settled cur nxt s' → wp A (Settled cur nxt) Q q s')
    (hr : ∀ s', Settled cur nxt s' → wp A (Settled cur nxt) Q r s') : wp A (Settled cur nxt) Q (do
      if ← mv .os aside then
        if ← mv src .os then p
        else do
          let _ ← mv aside .os
          q
      else r) s := by
  rw [wp_bind]
  refine wp_mv h (fun _ => hr s h) fun dirs₁ hmv₁ => ?_
  obtain ⟨d, -, -, hos₁, hframe₁, -⟩ := mv_eq_some hmv₁
  have hsrc₁ : dirs₁ src = some nxt := (hframe₁ src hso hne).trans hsrc
  -- nothing is at `OS`: this is the moment
  have h₁ : Settled cur nxt { s with dirs := dirs₁, log := .moved .os aside :: s.log } :=
    .inl ⟨⟨aside, rfl⟩, hos₁⟩
  simp only [if_true]
  rw [wp_bind]
  refine wp_mv h₁ (fun himp => ?_) fun dirs₂ hmv₂ => ?_
  · -- the second rename failed: renames can fail, so what went aside is there by itself
    have hfree : s.dirs aside = none := by
      refine hfree.resolve_left fun hall => ?_
      have := mv_free hsrc₁ hso hos₁
      rw [himp hall] at this
      cases this
    simp only [Bool.false_eq_true, if_false]
    rw [wp_bind]
    refine wp_mv h₁ (fun _ => hq _ h₁) fun dirs₃ hmv₃ => hq _ (.moved (s := s) hao (.inl ?_))
    have haside : dirs₁ aside = some cur := (mv_to_free hmv₁ hfree).trans hos
    exact (mv_to_free hmv₃ hos₁).trans haside
  · exact hp _ (.moved (s := s) hso (.inr ((mv_to_free hmv₂ hos₁).trans hsrc₁)))

theorem wp_die_settled (h : Settled cur nxt s) :
    wp A (Settled cur nxt) (fun _ _ => True) die s := by
  rw [die, wp_bind]
  exact wp_rm_settled h (by decide) fun _ _ _ _ => trivial

theorem wp_renames_settled (hA : Sound A) {aside : Name} (h : Settled cur nxt s)
    (hos : s.dirs .os = some cur) (hnew : s.dirs .new = some nxt) (hne : .new ≠ aside)
    (hao : aside ≠ .os) (hfree : aside = .old ∨ ((∀ e, A e → Clears e) → s.dirs aside = none)) :
    wp A (Settled cur nxt) (fun _ _ => True) (renames aside) s := by
  rw [renames, wp_bind]
  refine wp_rm_settled h (by decide) fun s₁ h₁ hframe hgone => ?_
  have hfree₁ : (∀ e, A e → e.moves) ∨ s₁.dirs aside = none := by
    refine hA.imp_right fun hclears => ?_
    by_cases ha : aside = .old
    · rw [ha]
      exact hgone hclears
    · rw [hframe aside ha]
      exact hfree.resolve_left ha hclears
  exact wp_swap h₁ ((hframe _ (by decide)).trans hos) ((hframe _ (by decide)).trans hnew) hne
    (by decide) hao hfree₁ (fun _ _ => trivial) (fun _ h => wp_die_settled h) fun _ h =>
      wp_die_settled h

theorem wp_switchOver_settled (hA : Sound A) (h : Settled cur nxt s)
    (hos : s.dirs .os = some cur) (hnew : s.dirs .new = some nxt) (link : Bool) :
    wp A (Settled cur nxt) (fun _ _ => True) (switchOver link) s := by
  refine wp_step h fun _ _ => ?_
  refine wp_if (fun _ => wp_die_settled h) fun _ => ?_
  refine wp_if (fun _ => ?_) fun _ =>
    wp_renames_settled hA h hos hnew (by decide) (by decide) (.inl rfl)
  refine wp_step h fun _ _ => ?_
  refine wp_if (fun _ => wp_die_settled h) fun _ => ?_
  rw [wp_bind]
  refine wp_rm_settled h (by decide) fun s₁ h₁ hframe hgone => ?_
  exact wp_renames_settled hA h₁ ((hframe _ (by decide)).trans hos)
    ((hframe _ (by decide)).trans hnew) (by decide) (by decide) (.inr hgone)

theorem wp_rmUnlessRoot_settled {Q : Unit → State → Prop} {n : Name} (h : Settled cur nxt s)
    (hn : n ≠ .os) (hQ : ∀ s', Settled cur nxt s' → (∀ m, m ≠ n → s'.dirs m = s.dirs m) →
      ((∀ e, A e → Clears e) → ¬ s.IsRoot n → s'.dirs n = none) → Q () s') :
    wp A (Settled cur nxt) Q (rmUnlessRoot n) s := by
  refine wp_step h fun _ _ => ?_
  refine wp_if (fun hr => ?_) fun hr => ?_
  · exact hQ s h (fun _ _ => rfl) fun _ hnr => absurd (of_decide_eq_true hr) hnr
  · exact wp_rm_settled h hn fun s' h' hframe hgone => hQ s' h' hframe fun hc _ => hgone hc

theorem wp_rollback_settled
    (hA : (∀ e, A e → e.moves) ∨ (∀ e, A e → Clears e) ∧ ¬ s.IsRoot .broken)
    (h : Settled cur nxt s) (hos : s.dirs .os = some cur) (hold : s.dirs .old = some nxt) :
    wp A (Settled cur nxt) (fun _ _ => True) rollback s := by
  refine wp_step h fun _ _ => ?_
  refine wp_if (fun _ => ?_) fun _ => trivial
  refine wp_step h fun _ _ => ?_
  refine wp_if (fun _ => trivial) fun _ => ?_
  rw [wp_bind]
  refine wp_rmUnlessRoot_settled h (by decide) fun s₁ h₁ hframe hgone => ?_
  have hfree₁ : (∀ e, A e → e.moves) ∨ s₁.dirs .broken = none :=
    hA.imp_right fun hc => hgone hc.1 hc.2
  rw [goBack]
  refine wp_swap h₁ ((hframe _ (by decide)).trans hos) ((hframe _ (by decide)).trans hold)
    (by decide) (by decide) (by decide) hfree₁ (fun s₂ h₂ => ?_) (fun _ _ => trivial)
      fun _ _ => trivial
  rw [wp_bind]
  exact wp_rmUnlessRoot_settled h₂ (by decide) fun _ _ _ _ => trivial

/-! ## The next boot -/

inductive Swap : Type where
  /-- of `apply_one`, with the files carried by link or not -/
  | update (link : Bool)
  | rollback
  deriving DecidableEq

def Swap.prog : Swap → Prog Answer State Result
  | update link => switchOver link
  | rollback => Switch.rollback

/-- The name of the system that is to become `OS`. -/
def Swap.source : Swap → Name
  | update _ => .new
  | rollback => .old

/-- The partition as `pick_root` sees it: `init` says in which directories it finds an init. -/
def diskOf (os : System) (boot : Text) (init : Dir Name → Bool) (others : Text → Bool)
    (legacy : Bool) (s : State) : PickRoot.Disk where
  bootOs := some boot
  hasInit n := if n = os.name then (s.dirs .os).any init else others n
  legacy := legacy

/-- A system with all its files, an init among them. -/
def Complete (init : Dir Name → Bool) (d : Dir Name) : Prop := d.whole ∧ init d

/-- **A power cut during the switch leaves a system to boot, but for one moment.** Wherever an
update's switch or a rollback from a complete system to a complete system is cut off, the next
boot takes `OS` and finds the complete old or the complete new system there, exactly if the cut
is not between the rename that moves `OS` aside and the next one. Renames may fail if the
removals before them get to their end and `rollback` does not find `OS.broken` running, and
removals may stop if no rename fails. The record begins with the switch. -/
theorem cut_leaves_system_to_boot_iff (sw : Swap) (os : System) (boot : Text)
    (hboot : captured boot = os.name) (init : Dir Name → Bool) (others : Text → Bool)
    (legacy : Bool) (s : State) (hlog : s.log = []) (cur nxt : Dir Name)
    (hos : s.dirs .os = some cur) (hsrc : s.dirs sw.source = some nxt) (hcur : Complete init cur)
    (hnxt : Complete init nxt) (es : List Answer)
    (hes : (∀ e ∈ es, e.moves) ∨
      (∀ e ∈ es, Clears e) ∧ (sw = .rollback → ¬ s.IsRoot .broken))
    (s' : State) (hcut : exec sw.prog es s = .cut s') :
    (PickRoot.pickRoot (diskOf os boot init others legacy s') = some (.system os.name) ∧
        ∃ d, s'.dirs .os = some d ∧ (d = cur ∨ d = nxt) ∧ Complete init d) ↔
      ¬ BetweenRenames s' := by
  have hstart : Settled cur nxt s := .start hlog hos
  have settled : Settled cur nxt s' := by
    cases sw with
    | update link =>
      rcases hes with hmoves | ⟨hclears, -⟩
      · exact exec_cut_of_wp hmoves
          (wp_switchOver_settled (.inl fun _ he => he) hstart hos hsrc link) hcut
      · exact exec_cut_of_wp hclears
          (wp_switchOver_settled (.inr fun _ he => he) hstart hos hsrc link) hcut
    | rollback =>
      rcases hes with hmoves | ⟨hclears, hbroken⟩
      · exact exec_cut_of_wp hmoves
          (wp_rollback_settled (.inl fun _ he => he) hstart hos hsrc) hcut
      · exact exec_cut_of_wp hclears
          (wp_rollback_settled (.inr ⟨fun _ he => he, hbroken rfl⟩) hstart hos hsrc) hcut
  rcases settled with ⟨hbetween, hnone⟩ | ⟨hnot, hd⟩
  · refine iff_of_false ?_ (not_not.2 hbetween)
    rintro ⟨-, d, hd, -⟩
    rw [hnone] at hd
    cases hd
  · refine iff_of_true ?_ hnot
    obtain ⟨d, hos', hor, hcomplete⟩ :
        ∃ d, s'.dirs .os = some d ∧ (d = cur ∨ d = nxt) ∧ Complete init d := by
      rcases hd with hd | hd
      · exact ⟨cur, hd, .inl rfl, hcur⟩
      · exact ⟨nxt, hd, .inr rfl, hnxt⟩
    refine ⟨PickRoot.pickRoot_wanted rfl hboot ?_, d, hos', hor, hcomplete⟩
    simp [diskOf, hos', hcomplete.2]

/-- The new system is there beside the one in place. -/
def aboutToSwitch : State where
  dirs n :=
    if n = .os then some ⟨0, true, .empty⟩
    else if n = .new then some ⟨1, true, .empty⟩
    else none
  root := some 0
  next := 2
  log := []

/-- Cut off before the first rename, with the removal of `OS.old` done. -/
theorem cut_before_renames_boots :
    (exec (Swap.update false).prog (replicate 3 fine) aboutToSwitch).result = none ∧
      PickRoot.pickRoot (diskOf .openwrt (line System.openwrt.name) Dir.whole (fun _ => false) false
        (exec (Swap.update false).prog (replicate 3 fine) aboutToSwitch).state) =
        some (.system System.openwrt.name) := by
  have hcut : (exec (Swap.update false).prog (replicate 3 fine) aboutToSwitch).result = none := by
    decide
  have h := cut_leaves_system_to_boot_iff (.update false) .openwrt (line System.openwrt.name)
    (by decide) Dir.whole (fun _ => false) false aboutToSwitch rfl ⟨0, true, .empty⟩
    ⟨1, true, .empty⟩ rfl rfl ⟨rfl, rfl⟩ ⟨rfl, rfl⟩ (replicate 3 fine)
    (.inl fun e he => by rw [eq_of_mem_replicate he]; rfl) _ (Outcome.eq_cut hcut)
  refine ⟨hcut, (h.2 ?_).1⟩
  rintro ⟨aside, hmove⟩
  cases hmove

/-- The moment between the renames: OpenWrt was asked for, and its directory has no name that
anything looks for. With Ubuntu beside it the device boots Ubuntu, without it nothing. -/
theorem cut_between_renames_boots_another :
    let s' := (exec (Swap.update false).prog (replicate 4 fine) aboutToSwitch).state
    (exec (Swap.update false).prog (replicate 4 fine) aboutToSwitch).result = none ∧
      s'.dirs .os = none ∧ PickRoot.pickRoot (diskOf .openwrt (line System.openwrt.name) Dir.whole
        (fun n => n = System.ubuntu.name) false s') = some (.system System.ubuntu.name) ∧
      PickRoot.pickRoot (diskOf .openwrt (line System.openwrt.name) Dir.whole
        (fun _ => false) false s') = none := by
  decide

end Mu300.Switch
