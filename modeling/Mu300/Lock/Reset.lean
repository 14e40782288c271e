import Mu300.Lock.Settings

/-!
# A reset of the locks is final

What is saved when a reset commits is not sent again, and what is saved later stays.

* `State.Good` — the invariant: unless a committed reset is still to be finished, no saved setting
  is from before it, and neither is a cell of the modem, nor one of a reading begun since.
* `Ready xs` — no reset is pending, and these settings may be sent.
-/

namespace Mu300.Lock

open Shell Crash Crash.Prog List

/-! ## Histories -/

section History

variable {es log a : List Event} {x : Setting}

theorem sinceReset_append (h : .committed ∉ es) :
    sinceReset (es ++ log) = es ++ sinceReset log := by
  apply takeWhile_append_of_pos
  intro e he
  exact decide_eq_true fun hc => h (hc ▸ he)

theorem beforeReset_append (h : .committed ∉ es) : beforeReset (es ++ log) = beforeReset log := by
  apply dropWhile_append_of_pos
  intro e he
  exact decide_eq_true fun hc => h (hc ▸ he)

theorem Stale.of_append (h : .committed ∉ a) (hx : Stale x (a ++ log)) : Stale x log := by
  obtain ⟨hsaved, hasked⟩ := hx
  rw [beforeReset_append h] at hsaved
  rw [sinceReset_append h] at hasked
  exact ⟨hsaved, fun ha => hasked (mem_append_right _ ha)⟩

theorem Final.append (h : Final log) (hes : ∀ e ∈ es, ∀ later ⊆ es, e.Allowed (later ++ log)) :
    Final (es ++ log) := by
  induction es with
  | nil => exact h
  | cons e es ih =>
    refine ⟨hes e mem_cons_self es (subset_cons_self ..), ih fun e' he' later hl => ?_⟩
    exact hes e' (.tail _ he') later (subset_cons_of_subset _ hl)

/-- No list of cells was taken from a cache that is older than the last reset. -/
def Sound (log : List Event) : Prop := .seeded false ∉ log

instance (log : List Event) : Decidable (Sound log) := instDecidableNot

theorem Sound.of_append (h : Sound (a ++ log)) : Sound log := fun hm =>
  h (mem_append_right _ hm)

end History

/-! ## The invariant -/

/-- A reading: of a time in the past, and of nothing stale if no reset came after it. -/
structure Cells.Fresh (c : Cells) (commits : ℕ) (log : List Event) : Prop where
  past : c.since ≤ commits
  current : c.since = commits → ∀ x ∈ c.cells, ¬ Stale (.cell x) log

theorem Cells.Fresh.append {c : Cells} {n : ℕ} {log es : List Event} (h : c.Fresh n log)
    (hc : .committed ∉ es) : c.Fresh n (es ++ log) :=
  ⟨h.past, fun hs x hx hst => h.current hs x hx (hst.of_append hc)⟩

theorem Cells.Fresh.commit {c : Cells} {n : ℕ} {log : List Event} (h : c.Fresh n log) :
    c.Fresh (n + 1) (.committed :: log) :=
  ⟨Nat.le_succ_of_le h.past, fun he => absurd h.past (by rw [he]; exact Nat.not_succ_le_self n)⟩

namespace State

/-- What holds whenever a program is killed. -/
structure Good (s : State) : Prop where
  files : s.resetPending = false → ∀ k v, s.files k = some v → ¬ Stale (.one k v) s.log
  cells : s.resetPending = false → ∀ cs, s.cell = some cs → ∀ c ∈ cs, ¬ Stale (.cell c) s.log
  unsaved : s.resetPending → ∀ x, .saved x ∉ sinceReset s.log
  cache : ∀ c, s.cache = some c → c.Fresh s.commits s.log
  readings : ∀ c ∈ s.readings, c.Fresh s.commits s.log
  modem : ∀ c ∈ s.modem, ¬ Stale (.cell c) s.log
  final : Final s.log

/-- The invariant of runs that took no list of cells from an old cache. -/
def Inv (s : State) : Prop := Sound s.log → s.Good

variable {s t : State}

theorem Good.backstep (h : s.Good) (b : Background) : (s.backstep b).Good := by
  cases b with
  | read shows =>
    refine { h with readings := forall_mem_append.2 ⟨h.readings, forall_mem_singleton.2 ?_⟩ }
    exact ⟨le_rfl, fun _ x hx => h.modem x (mem_of_mem_filter hx)⟩
  | write i =>
    rw [State.backstep]
    split
    · rename_i r hr
      refine { h with cache := fun c hc => ?_ }
      cases hc
      exact h.readings r (mem_of_getElem? hr)
    · exact h

section

variable (s : State) (bs : List Background)

theorem settle_eq : ∃ cache readings, s.settle bs =
    { s with cache := cache, readings := readings } := by
  induction bs generalizing s with
  | nil => exact ⟨s.cache, s.readings, rfl⟩
  | cons b bs ih =>
    obtain ⟨c, r, hb⟩ : ∃ c r, s.backstep b = { s with cache := c, readings := r } := by
      cases b with
      | read shows => exact ⟨_, _, rfl⟩
      | write i =>
        rw [State.backstep]
        split
        · exact ⟨_, _, rfl⟩
        · exact ⟨_, _, rfl⟩
    obtain ⟨c', r', hs⟩ := ih (s.backstep b)
    refine ⟨c', r', ?_⟩
    rw [settle, foldl_cons, ← settle, hs, hb]

theorem settle_log : (s.settle bs).log = s.log := by
  obtain ⟨_, _, h⟩ := s.settle_eq bs
  rw [h]

theorem settle_resetPending : (s.settle bs).resetPending = s.resetPending := by
  obtain ⟨_, _, h⟩ := s.settle_eq bs
  rw [h]

theorem settle_modem : (s.settle bs).modem = s.modem := by
  obtain ⟨_, _, h⟩ := s.settle_eq bs
  rw [h]

theorem settle_saves : (s.settle bs).saves = s.saves := by
  obtain ⟨_, _, h⟩ := s.settle_eq bs
  rw [h]
  rfl

end

theorem Good.settle (h : s.Good) (bs : List Background) : (s.settle bs).Good :=
  foldlRecOn bs State.backstep h fun _ ht b _ => ht.backstep b

theorem Inv.settle (h : s.Inv) (bs : List Background) : (s.settle bs).Inv := fun hs =>
  (h (s.settle_log bs ▸ hs)).settle bs

section

variable (h : s.Good) {es : List Event}

include h

theorem Good.notes (hc : .committed ∉ es)
    (hp : s.resetPending → ∀ x, .saved x ∉ es) (hf : Final (es ++ s.log)) :
    (s.notes es).Good where
  files := fun hp k v hv hst => h.files hp k v hv (hst.of_append hc)
  cells := fun hp cs hcs c hm hst => h.cells hp cs hcs c hm (hst.of_append hc)
  unsaved := fun hpend x hx => by
    have hx : Event.saved x ∈ sinceReset (es ++ s.log) := hx
    rw [sinceReset_append hc] at hx
    rcases mem_append.1 hx with hx | hx
    · exact hp hpend x hx
    · exact h.unsaved hpend x hx
  cache := fun c hcache => (h.cache c hcache).append hc
  readings := fun c hr => (h.readings c hr).append hc
  modem := fun c hm hst => h.modem c hm (hst.of_append hc)
  final := hf

theorem Good.note {e : Event} (hc : e ≠ .committed)
    (hp : s.resetPending → ∀ x, e ≠ .saved x) (hf : e.Allowed s.log) : (s.note e).Good :=
  h.notes (fun hm => hc (mem_singleton.1 hm).symm)
    (fun hpend x hm => hp hpend x (mem_singleton.1 hm).symm) ⟨hf, h.final⟩

theorem Good.ask (x : Setting) : (s.note (.asked x)).Good :=
  h.note nofun (fun _ _ => nofun) trivial

theorem Good.send {x : Setting} (hx : ¬ Stale x s.log) (taken : Bool) : (s.send x taken).Good := by
  have hsent : (s.note (.sent x)).Good := h.note nofun (fun _ _ => nofun) hx
  cases x with
  | one k v => exact hsent
  | cell c =>
    cases taken with
    | false => exact hsent
    | true =>
      refine { hsent with modem := fun c' hc' => ?_ }
      rcases mem_append.1 hc' with hc' | hc'
      · exact hsent.modem c' hc'
      · rw [mem_singleton.1 hc']
        exact fun hst => hx (.of_append (a := [.sent (.cell c)]) (by simp) hst)

theorem Good.clear (rat : Text) (taken : Bool) : (s.clear rat taken).Good := by
  cases taken with
  | false => exact h
  | true => exact { h with modem := fun c hc => h.modem c (mem_of_mem_filter hc) }

theorem Good.save (hp : s.resetPending = false) {k : Kind} {v : Text}
    (hx : ¬ Stale (.one k v) s.log) : (s.save k v).Good := by
  have hput : ({ s with files := Function.update s.files k (some v) } : State).Good := by
    refine { h with files := fun hp k' v' hv => ?_ }
    by_cases hk : k' = k
    · subst hk
      rw [show ({ s with files := Function.update s.files k' (some v) } : State).files
        k' = some v from Function.update_self ..] at hv
      cases hv
      exact hx
    · rw [show ({ s with files := Function.update s.files k (some v) } : State).files k' =
        s.files k' from Function.update_of_ne hk ..] at hv
      exact h.files hp k' v' hv
  exact hput.note nofun (fun hpend => by rw [hp] at hpend; cases hpend) trivial

theorem Good.delete (hp : s.resetPending) (hes : ∀ e ∈ es, ∃ x, e = .deleted x) :
    (s.notes es).Good := by
  have hc : .committed ∉ es := fun hm => by
    obtain ⟨x, hx⟩ := hes _ hm
    cases hx
  refine h.notes hc (fun _ x hm => ?_) (h.final.append fun e he later hl => ?_)
  · obtain ⟨y, hy⟩ := hes _ hm
    cases hy
  · obtain ⟨x, rfl⟩ := hes e he
    intro hs
    rw [sinceReset_append fun hm => hc (hl hm)] at hs
    rcases mem_append.1 hs with hs | hs
    · obtain ⟨y, hy⟩ := hes _ (hl hs)
      cases hy
    · exact h.unsaved hp x hs

theorem Good.drop (hp : s.resetPending) (k : Kind) : (s.drop k).Good := by
  have hput : ({ s with files := Function.update s.files k none } : State).Good :=
    { h with files := fun hq => by rw [show s.resetPending = false from hq] at hp; cases hp }
  refine hput.delete hp fun e he => ?_
  obtain ⟨v, -, hv⟩ := mem_map.1 he
  exact ⟨_, hv.symm⟩

theorem Good.dropCell (hp : s.resetPending) : s.dropCell.Good := by
  have hput : ({ s with cell := none } : State).Good :=
    { h with cells := fun _ _ hcs => nomatch hcs }
  refine hput.delete hp fun e he => ?_
  obtain ⟨c, -, hc⟩ := mem_map.1 he
  exact ⟨_, hc.symm⟩

theorem Good.finish (hs : s.saves = false) : ({ s with resetPending := false } : State).Good := by
  have hfile : ∀ k, s.files k = none := by
    intro k
    rw [saves, Bool.or_eq_false_iff] at hs
    have hk := any_eq_false.1 hs.1 k (by cases k <;> decide)
    simpa using hk
  have hcell : s.cell = none := by
    rw [saves, Bool.or_eq_false_iff] at hs
    simpa using hs.2
  exact { h with
    files := fun _ k v hv => by rw [show _ = none from hfile k] at hv; cases hv
    cells := fun _ cs hcs => by rw [show _ = none from hcell] at hcs; cases hcs
    unsaved := nofun }

theorem Good.commit (hm : s.modem = []) : s.commit.Good where
  files := nofun
  cells := nofun
  unsaved := fun _ x hx => by
    rw [show sinceReset s.commit.log = [] from rfl] at hx
    cases hx
  cache := fun c hc => (h.cache c hc).commit
  readings := fun c hc => (h.readings c hc).commit
  modem := fun c hc => by
    rw [show s.commit.modem = [] from hm] at hc
    cases hc
  final := ⟨trivial, h.final⟩

theorem Good.repaint : s.repaint.Good := by
  refine { h with cache := fun c hc => ?_ }
  obtain ⟨c', -, rfl⟩ := Option.map_eq_some_iff.1 hc
  exact ⟨le_rfl, fun _ x hx => nomatch hx⟩

theorem Good.filterCell (keep : Text → Bool) :
    ({ s with cell := s.cell.map fun cs => cs.filter keep } : State).Good := by
  refine { h with cells := fun hp cs hcs c hc => ?_ }
  obtain ⟨cs', hcs', rfl⟩ := Option.map_eq_some_iff.1 hcs
  exact h.cells hp cs' hcs' c (mem_of_mem_filter hc)

theorem Good.emptyCell : ({ s with cell := some [] } : State).Good := by
  refine { h with cells := fun _ cs hcs c hc => ?_ }
  cases hcs
  cases hc

theorem Good.addCell (hp : s.resetPending = false) {c : Text} (hc : ¬ Stale (.cell c) s.log) :
    (s.addCell c).Good := by
  rw [State.addCell]
  split
  · exact h
  · have hput : ({ s with cell := some (s.cell.getD [] ++ [c]) } : State).Good := by
      refine { h with cells := fun hp cs hcs x hx => ?_ }
      cases hcs
      rcases mem_append.1 hx with hx | hx
      · rcases hold : s.cell with _ | old
        · rw [hold] at hx
          cases hx
        · rw [hold] at hx
          exact h.cells hp old hold x hx
      · rw [mem_singleton.1 hx]
        exact hc
    exact hput.note nofun (fun hpend => by rw [hp] at hpend; cases hpend) trivial

theorem Good.seed (hp : s.resetPending = false)
    (hfresh : ∀ c, s.cache = some c → c.since = s.commits) : s.seed.Good := by
  rw [State.seed]
  split
  · exact h
  · rename_i c hc
    have hput : ({ s with cell := some (c.cells.filter cellLine) } : State).Good := by
      refine { h with cells := fun _ cs hcs x hx => ?_ }
      cases hcs
      exact (h.cache c hc).current (hfresh c hc) x (mem_of_mem_filter hx)
    have hpend : s.resetPending → False := by rw [hp]; nofun
    have hseeded := hput.note (e := .seeded (c.since = s.commits)) nofun
      (fun hq => (hpend hq).elim) trivial
    refine hseeded.notes (fun hm => ?_) (fun hq => (hpend hq).elim)
      (hseeded.final.append fun e he _ _ => ?_)
    · obtain ⟨x, -, hx⟩ := mem_map.1 hm
      cases hx
    · obtain ⟨x, -, rfl⟩ := mem_map.1 he
      exact trivial

theorem Good.reboot (keeps : Text → Bool) : (s.step (.reboot keeps)).Good :=
  { h with
    cache := nofun
    readings := nofun
    modem := fun c hc => h.modem c (mem_of_mem_filter hc) }

end

end State

/-! ## Programs -/

/-- No reset is pending, and these settings may be sent. -/
structure Ready (xs : List Setting) (s : State) : Prop where
  inv : s.Inv
  idle : s.resetPending = false
  current : Sound s.log → ∀ x ∈ xs, ¬ Stale x s.log

def Any : Reply → Prop := fun _ => True

section Steps

variable {C : State → Prop} {s : State} {α : Type} {r : Reply → State → α} {Q : α → State → Prop}

theorem wp_stepTo {u : Reply → State → State} :
    wp Any C Q (stepTo u r) s ↔
      C s ∧ ∀ e, Any e → Q (r e (s.settle e.background)) (u e (s.settle e.background)) :=
  Iff.rfl

theorem State.Inv.wp_find (h : s.Inv) (hQ : ∀ e s', s'.Inv → Q (r e s') s') :
    wp Any State.Inv Q (find r) s :=
  wp_stepTo.2 ⟨h, fun e _ => hQ e _ (h.settle _)⟩

end Steps

namespace Ready

variable {xs : List Setting} {s t : State} {Q : Unit → State → Prop}

section

variable (h : Ready xs s) {x : Setting} {k : Kind} {v c : Text} (rat : Text)

include h

theorem settle (bs : List Background) : Ready xs (s.settle bs) where
  inv := h.inv.settle bs
  idle := by rw [s.settle_resetPending, h.idle]
  current := by
    rw [s.settle_log]
    exact h.current

theorem step {a : List Event} (ht : t.log = a ++ s.log) (hc : .committed ∉ a)
    (hp : t.resetPending = s.resetPending) (hgood : Sound t.log → s.Good → t.Good) :
    Ready xs t where
  inv := fun hs => hgood hs (h.inv (.of_append (ht ▸ hs)))
  idle := hp.trans h.idle
  current := by
    intro hs x hx hst
    rw [ht] at hs hst
    exact h.current hs.of_append x hx (hst.of_append hc)

theorem quiet (ht : t.log = s.log) (hp : t.resetPending = s.resetPending)
    (hgood : s.Good → t.Good) : Ready xs t :=
  h.step (a := []) ht not_mem_nil hp fun _ => hgood

theorem ask (x : Setting) : Ready (x :: xs) (s.note (.asked x)) := by
  have hs : Ready xs (s.note (.asked x)) :=
    h.step (a := [.asked x]) rfl (by simp) rfl fun _ hg => hg.ask x
  exact { hs with current := fun hsound =>
    forall_mem_cons.2 ⟨fun hs => hs.2 mem_cons_self, hs.current hsound⟩ }

theorem send (hx : x ∈ xs) (taken : Bool) : Ready xs (s.send x taken) := by
  have hlog : (s.send x taken).log = [.sent x] ++ s.log := by
    cases x <;> cases taken <;> rfl
  have hp : (s.send x taken).resetPending = s.resetPending := by
    cases x <;> cases taken <;> rfl
  refine h.step hlog (by simp) hp fun hs hg => hg.send (h.current ?_ x hx) taken
  rw [hlog] at hs
  exact hs.of_append

theorem clear (taken : Bool) : Ready xs (s.clear rat taken) := by
  refine h.quiet ?_ ?_ fun hg => hg.clear rat taken
  · cases taken <;> rfl
  · cases taken <;> rfl

theorem save (hx : .one k v ∈ xs) : Ready xs (s.save k v) :=
  h.step (a := [.saved (.one k v)]) rfl (by simp) rfl fun hs hg =>
    hg.save h.idle (h.current (.of_append (a := [.saved (.one k v)]) hs) _ hx)

theorem addCell (hx : .cell c ∈ xs) : Ready xs (s.addCell c) := by
  rw [State.addCell]
  split
  · exact h
  · rename_i hc
    refine h.step (a := [.saved (.cell c)]) rfl (by simp) rfl fun hs hg => ?_
    have hadd := hg.addCell h.idle (h.current (.of_append (a := [.saved (.cell c)]) hs) _ hx)
    rwa [State.addCell, if_neg hc] at hadd

theorem seed : Ready xs s.seed := by
  rcases hcache : s.cache with _ | c
  · rw [State.seed, hcache]
    exact h
  · have hlog : s.seed.log = ((c.cells.filter cellLine).map fun x => .saved (.cell x)) ++
        [.seeded (c.since = s.commits)] ++ s.log := by
      rw [State.seed, hcache, append_assoc]
      rfl
    refine h.step hlog ?_ ?_ fun hs hg => hg.seed h.idle fun c' hc' => ?_
    · simp
    · rw [State.seed, hcache]
      rfl
    · cases hcache.symm.trans hc'
      by_contra hold
      rw [decide_eq_false hold] at hlog
      refine hs ?_
      rw [hlog]
      simp

theorem wp_change {ys : List Setting} {u : State → State}
    (hu : ∀ t, Ready xs t → Ready ys (u t)) (hQ : ∀ s', Ready ys s' → Q () s') :
    wp Any State.Inv Q (change u) s :=
  wp_stepTo.2 ⟨h.inv, fun _ _ => hQ _ (hu _ (h.settle _))⟩

theorem wp_ask (hQ : ∀ s', Ready (x :: xs) s' → Q () s') :
    wp Any State.Inv Q (Lock.ask x) s := h.wp_change (fun _ ht => ht.ask x) hQ

theorem wp_write {Q : Bool → State → Prop} (hx : x ∈ xs)
    (hQ : ∀ ok s', Ready xs s' → Q ok s') : wp Any State.Inv Q (write x) s :=
  wp_stepTo.2 ⟨h.inv, fun _ _ => hQ _ _ ((h.settle _).send hx _)⟩

theorem wp_clear {Q : Bool → State → Prop} {rat : Text}
    (hQ : ∀ ok s', Ready xs s' → Q ok s') : wp Any State.Inv Q (Lock.clear rat) s :=
  wp_stepTo.2 ⟨h.inv, fun _ _ => hQ _ _ ((h.settle _).clear rat _)⟩

theorem wp_find {α : Type} {Q : α → State → Prop} {r : Reply → State → α}
    (hQ : ∀ e s', Ready xs s' → Q (r e s') s') : wp Any State.Inv Q (find r) s :=
  wp_stepTo.2 ⟨h.inv, fun e _ => hQ e _ (h.settle _)⟩

theorem wp_cellStateSeed (hQ : ∀ s', Ready xs s' → Q () s') :
    wp Any State.Inv Q cellStateSeed s := by
  rw [cellStateSeed, wp_bind]
  refine h.wp_find fun _ s₁ h₁ => ?_
  refine wp_if (fun _ => ?_) fun _ => hQ s₁ h₁
  rw [wp_bind]
  refine h₁.wp_change (fun t ht => ht.quiet rfl rfl fun hg => hg.emptyCell) fun s₂ h₂ => ?_
  exact h₂.wp_change (fun t ht => ht.seed) hQ

theorem wp_cellStateAdd (hc : .cell c ∈ xs) :
    wp Any State.Inv (fun _ => State.Inv) (cellStateAdd c) s := by
  rw [cellStateAdd, wp_bind]
  refine h.wp_cellStateSeed fun s₁ h₁ => ?_
  exact h₁.wp_change (fun t ht => ht.addCell hc) fun _ h₂ => h₂.inv

theorem wp_cellStateRemove (keep : Text → Bool) :
    wp Any State.Inv (fun _ => State.Inv) (cellStateRemove keep) s := by
  rw [cellStateRemove, wp_bind]
  refine h.wp_cellStateSeed fun s₁ h₁ => ?_
  exact h₁.wp_change (fun t ht => ht.quiet rfl rfl fun hg => hg.filterCell keep) fun _ h₂ => h₂.inv

theorem wp_save (hx : .one k v ∈ xs) :
    wp Any State.Inv (fun _ => State.Inv) (change fun s => s.save k v) s :=
  h.wp_change (fun _ ht => ht.save hx) fun _ h' => h'.inv

theorem wp_applyOne (k : Kind) (v : Text) :
    wp Any State.Inv (fun _ => State.Inv) (applyOne k v) s := by
  rw [applyOne, wp_bind]
  refine h.wp_ask fun s₁ h₁ => ?_
  rw [wp_bind]
  refine h₁.wp_write mem_cons_self fun _ s₂ h₂ => ?_
  exact wp_if (fun _ => h₂.wp_save mem_cons_self) fun _ => h₂.inv

theorem wp_applyMode (v : Text) : wp Any State.Inv (fun _ => State.Inv) (applyMode v) s := by
  rw [applyMode, wp_bind]
  refine h.wp_ask fun s₁ h₁ => ?_
  rw [wp_bind]
  refine h₁.wp_write mem_cons_self fun _ s₂ h₂ => ?_
  refine wp_if (fun _ => ?_) fun _ => h₂.inv
  rw [wp_bind]
  refine h₂.wp_write mem_cons_self fun _ s₃ h₃ => ?_
  exact wp_if (fun _ => h₃.wp_save mem_cons_self) fun _ => h₃.inv

theorem wp_applyBands (r : Rat) (v : Text) :
    wp Any State.Inv (fun _ => State.Inv) (applyBands r v) s := by
  rw [applyBands, wp_bind]
  refine h.wp_find fun _ s₁ h₁ => ?_
  exact wp_if (fun _ => h₁.inv) fun _ => h₁.wp_applyOne _ _

theorem wp_lockCell (c : Text) : wp Any State.Inv (fun _ => State.Inv) (lockCell c) s := by
  rw [lockCell, wp_bind]
  refine h.wp_ask fun s₁ h₁ => ?_
  rw [wp_bind]
  refine h₁.wp_write mem_cons_self fun _ s₂ h₂ => ?_
  exact wp_if (fun _ => h₂.wp_cellStateAdd mem_cons_self) fun _ => h₂.inv

theorem wp_clear_remove (keep : Text → Bool) : wp Any State.Inv (fun _ => State.Inv)
      (do if ← Lock.clear rat then cellStateRemove keep) s := by
  rw [wp_bind]
  refine h.wp_clear fun _ s₁ h₁ => ?_
  exact wp_if (fun _ => h₁.wp_cellStateRemove keep) fun _ => h₁.inv

theorem wp_applyCell (q : CellRequest) : wp Any State.Inv (fun _ => State.Inv) (applyCell q) s := by
  cases q with
  | off =>
    rw [applyCell, wp_bind]
    refine h.wp_clear fun _ s₁ h₁ => ?_
    exact wp_if (fun _ => h₁.wp_clear_remove _ _) fun _ => h₁.inv
  | offNr | offLte => exact h.wp_clear_remove _ _
  | auto =>
    rw [applyCell, wp_bind]
    refine h.wp_find fun e s₁ h₁ => ?_
    rcases e.serving with _ | c
    · exact h₁.inv
    · exact wp_if (fun _ => h₁.wp_lockCell c) fun _ => h₁.inv
  | lock c => exact h.wp_lockCell c

theorem wp_prog (q : Request) : wp Any State.Inv (fun _ => State.Inv) q.prog s := by
  cases q with
  | mode v => exact h.wp_applyMode v
  | endc on => exact h.wp_applyOne _ _
  | bands r v => exact h.wp_applyBands r v
  | cell q => exact h.wp_applyCell q

end

end Ready

namespace State.Inv

variable {s : State} {Q : Bool → State → Prop}

theorem wp_drop {Q : Unit → State → Prop} (h : s.Inv) (hp : s.resetPending)
    {u : State → State} (hlog : ∀ t, ∃ es, (u t).log = es ++ t.log)
    (hpend : ∀ t, (u t).resetPending = t.resetPending)
    (hgood : ∀ t : State, t.Good → t.resetPending → (u t).Good)
    (hQ : ∀ s' : State, s'.Inv → s'.resetPending → Q () s') : wp Any State.Inv Q (change u) s := by
  refine wp_stepTo.2 ⟨h, fun e _ => ?_⟩
  have hp' : (s.settle e.background).resetPending := by rw [s.settle_resetPending, hp]
  refine hQ _ (fun hs => ?_) ((hpend _).trans hp')
  obtain ⟨es, hes⟩ := hlog (s.settle e.background)
  rw [hes] at hs
  exact hgood _ (h.settle _ hs.of_append) hp'

theorem wp_finishResetState (h : s.Inv)
    (hfail : ∀ s' : State, s'.Inv → Q false s') (hdone : ∀ s', Ready [] s' → Q true s') :
    wp Any State.Inv Q finishResetState s := by
  rw [finishResetState, wp_bind]
  refine wp_stepTo.2 ⟨h, fun e _ => ?_⟩
  have h₁ := h.settle e.background
  refine wp_if (fun hp => ?_) fun hp => hdone _ ⟨h₁, Bool.eq_false_iff.2 hp, fun _ => nofun⟩
  have hfile : ∀ {Q' : Unit → State → Prop} (k : Kind) {t : State}, t.Inv → t.resetPending →
      (∀ s' : State, s'.Inv → s'.resetPending → Q' () s') →
      wp Any State.Inv Q' (change fun s => s.drop k) t := by
    intro Q' k t ht htp
    exact ht.wp_drop htp (fun _ => ⟨_, rfl⟩) (fun _ => rfl) fun _ hg hgp => hg.drop hgp k
  rw [wp_bind]
  refine hfile _ h₁ hp fun s₂ h₂ hp₂ => ?_
  rw [wp_bind]
  refine hfile _ h₂ hp₂ fun s₃ h₃ hp₃ => ?_
  rw [wp_bind]
  refine hfile _ h₃ hp₃ fun s₄ h₄ hp₄ => ?_
  rw [wp_bind]
  refine hfile _ h₄ hp₄ fun s₅ h₅ hp₅ => ?_
  rw [wp_bind]
  refine h₅.wp_drop hp₅ (fun _ => ⟨_, rfl⟩) (fun _ => rfl) (fun _ hg hgp => hg.dropCell hgp)
    fun s₆ h₆ _ => ?_
  rw [wp_bind]
  refine h₆.wp_find fun _ s₇ h₇ => ?_
  refine wp_if (fun _ => hfail _ h₇) fun hs => ?_
  rw [wp_bind]
  refine wp_stepTo.2 ⟨h₇, fun e' _ => hdone _ ⟨fun hsound => ?_, rfl, fun _ => nofun⟩⟩
  refine (h₇.settle e'.background hsound).finish ?_
  rw [s₇.settle_saves]
  exact Bool.eq_false_iff.2 hs

theorem wp_doApply (h : s.Inv) (q : Request) :
    wp Any State.Inv (fun _ => State.Inv) (doApply q) s := by
  refine wp_if (fun _ => h) fun _ => ?_
  rw [wp_bind]
  refine h.wp_find fun _ s₁ h₁ => ?_
  refine wp_if (fun _ => h₁) fun _ => ?_
  rw [wp_bind]
  refine h₁.wp_finishResetState (fun s₂ h₂ => h₂) fun s₂ h₂ => ?_
  exact h₂.wp_prog q

theorem wp_clear (h : s.Inv) {rat : Text}
    (hQ : ∀ ok (s' : State), s'.Inv → Q ok s') : wp Any State.Inv Q (Lock.clear rat) s := by
  refine wp_stepTo.2 ⟨h, fun e _ => hQ _ _ fun hs => ?_⟩
  refine (h.settle _ ?_).clear rat _
  cases htaken : e.taken with
  | false | true => simpa [State.clear, htaken] using hs

theorem wp_verifyRetry (n : ℕ) (h : s.Inv) (hfail : ∀ s' : State, s'.Inv → Q false s')
    (hdone : ∀ s' : State, s'.Inv → s'.modem = [] → Q true s') :
    wp Any State.Inv Q (verifyRetry n) s := by
  induction n generalizing s with
  | zero => exact hfail s h
  | succ n ih =>
    rw [verifyRetry, wp_bind]
    refine h.wp_find fun e s₁ h₁ => ?_
    refine wp_if (fun hok => hdone s₁ h₁ ?_) fun _ => ih h₁
    rw [Bool.and_eq_true] at hok
    exact of_decide_eq_true hok.2

theorem wp_commit {Q : Unit → State → Prop} (h : s.Inv) (hm : s.modem = [])
    (hQ : ∀ s' : State, s'.Inv → Q () s') : wp Any State.Inv Q (change State.commit) s := by
  refine wp_stepTo.2 ⟨h, fun e _ => hQ _ fun hs => ?_⟩
  refine (h.settle _ (.of_append (a := [.committed]) hs)).commit ?_
  rw [s.settle_modem, hm]

theorem wp_doReset (h : s.Inv) : wp Any State.Inv (fun _ => State.Inv) doReset s := by
  rw [doReset, wp_bind]
  refine h.wp_finishResetState (fun s₁ h₁ => h₁) fun s₁ h₁ => ?_
  refine wp_if (fun _ => h₁.inv) fun _ => ?_
  rw [wp_bind]
  refine h₁.inv.wp_find fun _ s₂ h₂ => ?_
  refine wp_if (fun _ => h₂) fun _ => ?_
  refine wp_seq (wp_each_inv (I := State.Inv) (fun _ _ t ht => ht.wp_find fun _ _ ht' => ht') h₂)
    fun ok s₃ h₃ => ?_
  refine wp_if (fun _ => h₃) fun _ => ?_
  rw [wp_bind]
  refine h₃.wp_clear fun _ s₄ h₄ => ?_
  refine wp_if (fun _ => h₄) fun _ => ?_
  rw [wp_bind]
  refine h₄.wp_clear fun _ s₅ h₅ => ?_
  refine wp_if (fun _ => h₅) fun _ => ?_
  rw [wp_bind]
  refine h₅.wp_verifyRetry 3 (fun s₆ h₆ => h₆) fun s₆ h₆ _ => ?_
  refine wp_if (fun _ => h₆) fun _ => ?_
  rw [wp_bind]
  refine h₆.wp_verifyRetry 10 (fun s₇ h₇ => h₇) fun s₇ h₇ hm => ?_
  refine wp_if (fun _ => h₇) fun _ => ?_
  rw [wp_bind]
  refine h₇.wp_commit hm fun s₈ h₈ => ?_
  rw [wp_bind]
  refine h₈.wp_finishResetState (fun s₉ h₉ => h₉) fun s₉ h₉ => ?_
  refine wp_if (fun _ => h₉.inv) fun _ => ?_
  rw [wp_bind]
  exact h₉.wp_change (fun t ht => ht.quiet rfl rfl fun hg => hg.repaint) fun _ h' => h'.inv

end State.Inv

namespace Ready

variable {xs : List Setting} {s : State}

theorem forget (h : Ready xs s) : Ready [] s := { h with current := fun _ => nofun }

theorem of_file (h : Ready xs s) {k : Kind} {v : Text} (hv : s.files k = some v) :
    Ready [.one k v] s := by
  refine { h with current := fun hs x hx => ?_ }
  rw [mem_singleton.1 hx]
  exact (h.inv hs).files h.idle k v hv

theorem of_cell (h : Ready xs s) {cs : List Text} (hcs : s.cell = some cs) :
    Ready (cs.map .cell) s := by
  refine { h with current := fun hs x hx => ?_ }
  obtain ⟨c, hc, rfl⟩ := mem_map.1 hx
  exact (h.inv hs).cells h.idle cs hcs c hc

theorem wp_replayOne (h : Ready [] s) (k : Kind) :
    wp Any State.Inv (fun _ => Ready []) (replayOne k) s := by
  rw [replayOne, wp_bind]
  refine wp_stepTo.2 ⟨h.inv, fun e _ => ?_⟩
  have h₁ := h.settle e.background
  rcases hv : (s.settle e.background).files k with _ | v
  · exact h₁
  · rw [wp_bind]
    exact (h₁.of_file hv).wp_write mem_cons_self fun _ s₂ h₂ => h₂.forget

theorem wp_replayCell (h : Ready xs s) {c : Text} (hc : .cell c ∈ xs) :
    wp Any State.Inv (fun _ => Ready xs) (replayCell c) s := by
  refine wp_if (fun _ => ?_) fun _ => h
  rw [wp_bind]
  exact h.wp_write hc fun _ s₁ h₁ => h₁

theorem wp_replayCells (h : Ready [] s) : wp Any State.Inv (fun _ => Ready []) replayCells s := by
  rw [replayCells, wp_bind]
  refine wp_stepTo.2 ⟨h.inv, fun e _ => ?_⟩
  have h₁ := h.settle e.background
  rcases hcs : (s.settle e.background).cell with _ | cs
  · exact h₁
  · rw [wp_bind]
    refine (h₁.of_cell hcs).wp_clear fun _ s₂ h₂ => ?_
    rw [wp_bind]
    refine h₂.wp_clear fun _ s₃ h₃ => ?_
    refine wp_seq (wp_each_inv (I := Ready (cs.map .cell)) (fun c hc t ht => ?_) h₃)
      fun _ s₄ h₄ => h₄.forget
    exact ht.wp_replayCell (mem_map_of_mem hc)

theorem wp_replayDone (h : Ready [] s) :
    wp Any State.Inv (fun _ => State.Inv) (change fun s => { s with replayDone := true }) s :=
  h.wp_change (fun _ ht => ht.quiet rfl rfl fun hg => { hg with }) fun _ h' => h'.inv

end Ready

variable {s : State}

theorem State.Inv.wp_doReplay (h : s.Inv) (early : Bool) :
    wp Any State.Inv (fun _ => State.Inv) (doReplay early) s := by
  rw [doReplay, wp_bind]
  refine h.wp_find fun _ s₁ h₁ => ?_
  refine wp_if (fun _ => h₁) fun _ => ?_
  rw [wp_bind]
  refine h₁.wp_find fun _ s₂ h₂ => ?_
  refine wp_if (fun _ => h₂) fun _ => ?_
  rw [wp_bind]
  refine h₂.wp_find fun _ s₃ h₃ => ?_
  refine wp_if (fun _ => ?_) fun _ => ?_
  · exact wp_stepTo.2 ⟨h₃, fun e _ hs => { h₃.settle e.background hs with }⟩
  rw [wp_bind]
  refine h₃.wp_finishResetState (fun s₄ h₄ => h₄) fun s₄ h₄ => ?_
  refine wp_if (fun _ => h₄.inv) fun _ => ?_
  rw [wp_bind]
  refine h₄.wp_find fun _ s₅ h₅ => ?_
  refine wp_if (fun _ => h₅.wp_replayDone) fun _ => ?_
  refine wp_seq (wp_each_inv (I := Ready []) (fun k _ t ht => ht.wp_replayOne k) h₅)
    fun _ s₆ h₆ => ?_
  refine wp_seq h₆.wp_replayCells fun _ s₇ h₇ => ?_
  rw [wp_bind]
  refine h₇.wp_find fun _ s₈ h₈ => ?_
  exact wp_if (fun _ => h₈.inv) fun _ => h₈.wp_replayDone

/-! ## Runs -/

theorem State.Inv.step (h : s.Inv) (a : Action) : (s.step a).Inv := by
  cases a with
  | apply q es => exact exec_state_of_wp (fun _ _ => trivial) (h.wp_doApply q)
  | autoApply on => exact fun hs => { h hs with }
  | reset es => exact exec_state_of_wp (fun _ _ => trivial) h.wp_doReset
  | replay early es => exact exec_state_of_wp (fun _ _ => trivial) (h.wp_doReplay early)
  | background bs => exact h.settle bs
  | reboot keeps => exact fun hs => (h hs).reboot keeps

theorem start_good (shown : Option (List Text)) (modem : List Text) : (start shown modem).Good where
  files := nofun
  cells := nofun
  unsaved := nofun
  cache := by
    intro c hc
    obtain ⟨cells, -, rfl⟩ := Option.map_eq_some_iff.1 hc
    exact ⟨le_rfl, fun _ x _ hst => nomatch hst.1⟩
  readings := nofun
  modem := fun c _ hst => nomatch hst.1
  final := trivial

theorem State.Inv.runs (h : s.Inv) (as : List Action) : (s.runs as).Inv :=
  foldlRecOn as State.step h fun _ ht a _ => ht.step a

/-- **A reset is final**: nothing that was saved when it committed is sent again unless it is asked
for again, and nothing that was saved since is deleted, as long as the saved list of cells is never
begun from a page cache that is older than the last reset. -/
theorem reset_final (shown : Option (List Text)) (modem : List Text) (as : List Action)
    (h : Sound ((start shown modem).runs as).log) : Final ((start shown modem).runs as).log :=
  (State.Inv.runs (fun _ => start_good shown modem) as h).final

/-- An answer of a modem that does what it is told. -/
def works : Reply := ⟨false, true, true, [], none, []⟩

/-- A cell is locked and shown, the locks are reset with so many answers, another cell is locked,
and the board boots. -/
def lockAndReset (answers : ℕ) : List Action :=
  [.apply (.cell (.lock "nr:1,2")) (replicate 9 works),
   .background [.read fun _ => true, .write 0],
   .reset (replicate answers works),
   .apply (.cell (.lock "nr:5,6")) (replicate 9 works),
   .reboot fun _ => false,
   .replay true (replicate 20 works)]

/-- With enough answers, the reset is final. -/
theorem reset_final_whole :
    Sound ((start none []).runs (lockAndReset 30)).log ∧
    Final ((start none []).runs (lockAndReset 30)).log :=
  ⟨by decide +kernel, reset_final none [] _ (by decide +kernel)⟩

/-- A reset that is killed behind its deletions and before it empties the page cache: the next cell
lock takes the old cell from there, and the next boot sends it. -/
theorem reset_killed_before_repaint :
    ¬ Final ((start none []).runs (lockAndReset 20)).log ∧
      .sent (.cell "nr:1,2") ∈ sinceReset ((start none []).runs (lockAndReset 20)).log := by
  decide +kernel

end Mu300.Lock
