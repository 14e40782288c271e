import Mu300.Sms.Absorb

/-!
# Nothing leaves the SIM that the disk does not have

* `State.Good` — the invariant: every file of the pool is on the disk, so are the tombstones, and
  every removal was of what was listed and is on the disk.
* `Carry v` — what a run is going to remove is accounted for: by a message whose name is on the disk
  or gets there with the others, or by a tombstone of something that was listed.
* `Covered mvs` — the disk accounts for it.
-/

namespace Mu300.Sms

open Shell Crash Crash.Prog List Bool

/-- No run came upon what it should not. -/
def Clean (log : List Event) : Prop := ∀ e ∈ log, e.Clean

instance (log : List Event) : Decidable (Clean log) := decidableBAll _ _

variable {log : List Event} {e : Event} (others : List (Text × Option Text))

theorem Clean.tail (h : Clean (e :: log)) : Clean log := fun e' he =>
  h e' (.tail _ he)

theorem Clean.head (h : Clean (e :: log)) : e.Clean :=
  h e mem_cons_self

/-! ## The invariant -/

namespace State

/-- What holds whenever a run is killed. -/
structure Good (s : State) : Prop where
  data : ∀ m ∈ s.msgs, m.data
  tombstones : s.deleted ≠ [] → s.old = none
  safe : ∀ e ∈ s.log, e.Safe

def Inv (s : State) : Prop := Clean s.log → s.Good

variable {s t : State}

theorem Good.note (h : s.Good) (he : e.Safe) : (s.note e).Good :=
  { h with
    safe := fun e' he' => by
      rcases mem_cons.1 he' with rfl | he'
      · exact he
      · exact h.safe e' he' }

theorem Good.store (h : s.Good) (id : Text) (l : Line) : (s.store id l).Good := by
  exact { h with data := forall_mem_append.2 ⟨h.data, forall_mem_singleton.2 rfl⟩ }

theorem Good.sync (h : s.Good) : s.sync.Good := by
  refine { h with data := fun m hm => ?_ }
  obtain ⟨m', hm', rfl⟩ := mem_map.1 hm
  exact h.data m' hm'

theorem Inv.settle (h : s.Inv) : (s.settle others).Inv := fun hc =>
  { h hc with }

theorem Inv.note (h : s.Inv) (he : e.Clean → s.Good → e.Safe) : (s.note e).Inv := fun hc =>
  (h hc.tail).note (he hc.head (h hc.tail))

theorem Inv.cut {md5 : Text → Text} {same : Text → Text → Bool} (h : s.Inv)
    (msgs : Stored → Option (List Text)) (left : List (Text × List Text))
    (tombstone part : Text → Bool) : (s.step md5 same (.cut msgs left tombstone part)).Inv := by
  intro hc
  refine ⟨fun m hm => ?_, fun _ => rfl, (h hc).safe⟩
  obtain ⟨m', hm', hcut⟩ := mem_filterMap.1 hm
  rw [Stored.afterCut] at hcut
  split at hcut
  · cases hcut
    exact (h hc).data m hm'
  · obtain ⟨slots, -, rfl⟩ := Option.map_eq_some_iff.1 hcut
    rfl

end State

/-! ## What a run is going to remove -/

/-- A message accounts for it that has its name on the disk, or gets it there. -/
def Pooled (s : State) (new : ℕ) (mv : Move) : Prop :=
  ∃ m ∈ s.msgs, m.accounts mv ∧ (m.name ∨ 0 < new)

def Dead (deleted : List Text) (mv : Move) : Prop := mv.fp ∈ deleted ∨ mv.id ∈ deleted

variable {s : State} {mv : Move} {v : Local} {l : Line} {α : Type}

theorem Pooled.mono {t : State} {new new' : ℕ} (h : Pooled s new mv)
    (hmsgs : s.msgs ⊆ t.msgs) (hnew : new ≤ new') : Pooled t new' mv := by
  obtain ⟨m, hm, hacc, hname⟩ := h
  exact ⟨m, hmsgs hm, hacc, hname.imp_right fun h0 => h0.trans_le hnew⟩

theorem Dead.mono {ts ts' : List Text} (h : Dead ts mv) (hts : ts ⊆ ts') : Dead ts' mv :=
  h.imp (fun h => hts h) fun h => hts h

/-- What is under way while the messages are taken in. -/
structure Carry (v : Local) (s : State) : Prop where
  inv : s.Inv
  held : Clean s.log → ∀ mv ∈ v.move, Pooled s v.new mv ∨ Dead (s.deleted.filter (· ∈ v.seen)) mv

structure Covered (mvs : List Move) (s : State) : Prop where
  inv : s.Inv
  covers : Clean s.log → ∀ mv ∈ mvs, s.covers mv

theorem fp_of_mem_moves (h : mv ∈ l.moves) : mv.fp = l.fp := by
  obtain ⟨p, -, rfl⟩ := mem_map.1 h
  rfl

def Any : Reply → Prop := fun _ => True

theorem wp_stepTo {C : State → Prop} {Q : α → State → Prop} {u : Reply → State → State}
    {r : Reply → State → α} : wp Any C Q (stepTo u r) s ↔
      C s ∧ ∀ e, Any e → Q (r e (s.settle e.others)) (u e (s.settle e.others)) :=
  Iff.rfl

theorem State.Inv.wp_find {Q : α → State → Prop} {r : Reply → State → α}
    (h : s.Inv) (hQ : ∀ e s', s'.Inv → Q (r e s') s') : wp Any State.Inv Q (find r) s :=
  wp_stepTo.2 ⟨h, fun e _ => hQ e _ (h.settle _)⟩

namespace Carry

variable {v : Local} {s t : State} {l : Line}

section

variable (h : Carry v s)

include h

theorem step (hinv : t.Inv) (hlog : Clean t.log → Clean s.log)
    (hmsgs : s.msgs ⊆ t.msgs) (hdel : t.deleted = s.deleted) : Carry v t where
  inv := hinv
  held := fun hc mv hmv => by
    rw [hdel]
    exact (h.held (hlog hc) mv hmv).imp_left fun hp => hp.mono hmsgs le_rfl

theorem settle : Carry v (s.settle others) :=
  h.step (h.inv.settle others) id (List.Subset.refl _) rfl

theorem see (ts : List Text) : Carry (v.see ts) s where
  inv := h.inv
  held := fun hc mv hmv => (h.held hc mv hmv).imp_right fun hd => hd.mono fun t ht => by
    simp only [mem_filter, decide_eq_true_eq] at ht ⊢
    exact ⟨ht.1, mem_append_left _ ht.2⟩

theorem out (hl : Clean s.log → ∀ mv ∈ l.moves,
    Pooled s v.new mv ∨ Dead (s.deleted.filter (· ∈ v.seen)) mv) : Carry (v.out l) s where
  inv := h.inv
  held := fun hc => forall_mem_append.2 ⟨h.held hc, hl hc⟩

theorem write (id : Text) (ids : List Text) : Carry v (s.write id ids) :=
  h.step (fun hc => { h.inv hc with }) (fun hc => hc) (List.Subset.refl _) rfl

theorem took (id : Text) : Carry (v.took l) (s.store id l) where
  inv := fun hc => (h.inv hc).store id l
  held := fun hc mv hmv => by
    rcases mem_append.1 hmv with hmv | hmv
    · exact (h.held hc mv hmv).imp_left fun hp =>
        hp.mono (subset_append_left ..) (Nat.le_succ _)
    · refine .inl ⟨_, mem_append_right _ (mem_singleton_self _), ?_, .inr (Nat.succ_pos _)⟩
      rw [Stored.accounts, or_eq_true]
      exact .inl (decide_eq_true (fp_of_mem_moves hmv).symm)

theorem rely : Carry (v.out l) (s.rely v.new l) := by
  have hr : Carry v (s.rely v.new l) :=
    h.step (h.inv.note fun _ _ => rfl) .tail (List.Subset.refl _) rfl
  refine hr.out fun hc mv hmv => .inl ?_
  obtain ⟨m, hm, hacc⟩ := any_eq_true.1 hc.head
  simp only [and_eq_true, or_eq_true, decide_eq_true_eq] at hacc
  refine ⟨m, hm, ?_, hacc.2⟩
  rw [Stored.accounts, or_eq_true]
  exact .inl (decide_eq_true (hacc.1.trans (fp_of_mem_moves hmv).symm))

theorem relyParts (hseen : l.ids ⊆ v.seen) : Carry (v.out l) (s.relyParts v.new l) := by
  have hr : Carry v (s.relyParts v.new l) :=
    h.step (h.inv.note fun _ _ => rfl) .tail (List.Subset.refl _) rfl
  refine hr.out fun hc mv hmv => ?_
  have hid : mv.id ∈ l.ids := by
    obtain ⟨p, hp, rfl⟩ := mem_map.1 hmv
    exact (of_mem_zip hp).2
  have hall := all_eq_true.1 hc.head mv.id hid
  simp only [or_eq_true, any_eq_true, and_eq_true, decide_eq_true_eq] at hall
  rcases hall with hdead | ⟨m, hm, hi, hname⟩
  · exact .inr (.inr (mem_filter.2 ⟨hdead, decide_eq_true (hseen hid)⟩))
  · refine .inl ⟨m, hm, ?_, hname⟩
    rw [Stored.accounts, or_eq_true]
    exact .inr (decide_eq_true hi)

theorem wp_find {Q : α → State → Prop} {r : Reply → State → α}
    (hQ : ∀ e s', Carry v s' → Q (r e s') s') : wp Any State.Inv Q (find r) s :=
  wp_stepTo.2 ⟨h.inv, fun e _ => hQ e _ (h.settle _)⟩

theorem wp_change {Q : Unit → State → Prop} {u : State → State}
    (hQ : ∀ s', Carry v s' → Q () (u s')) : wp Any State.Inv Q (change u) s :=
  wp_stepTo.2 ⟨h.inv, fun _ _ => hQ _ (h.settle _)⟩

end

theorem rewrite : Carry v (s.rewrite l) where
  inv := fun hc => nomatch hc.head
  held := fun hc => nomatch hc.head

theorem wp_knownOrDead (h : Carry v s) (hseen : l.fp ∈ v.seen) :
    wp Any State.Inv (fun r s' => Carry (r.getD v) s') (knownOrDead l v) s := by
  rw [knownOrDead, wp_bind]
  refine h.wp_find fun _ s₁ h₁ => ?_
  rw [wp_ite, wp_ite]
  refine ⟨fun hdead => ?_, fun _ => ⟨fun _ => h₁, fun _ => ?_⟩⟩
  · refine h₁.out fun _ mv hmv => .inr (.inl (mem_filter.2 ?_))
    rw [fp_of_mem_moves hmv]
    exact ⟨of_decide_eq_true hdead, decide_eq_true hseen⟩
  · have hrely : ∀ s₂, Carry v s₂ → wp Any State.Inv (fun r s' => Carry (r.getD v) s')
        (do change fun s => s.rely v.new l; return some (v.out l)) s₂ := fun s₂ h₂ => by
      rw [wp_bind]
      exact h₂.wp_change fun _ h₃ => h₃.rely
    rw [wp_bind]
    refine h₁.wp_find fun _ s₂ h₂ => ?_
    refine wp_if (fun _ => ?_) fun _ => hrely s₂ h₂
    rw [wp_bind]
    exact h₂.wp_change fun _ _ => hrely _ rewrite

theorem wp_take (h : Carry v s) : wp Any State.Inv Carry (take l v) s := by
  have hwrite : wp Any State.Inv (fun _ => Carry v) (writeMsg l) s :=
    wp_stepTo.2 ⟨h.inv, fun _ _ => (h.settle _).write _ _⟩
  refine wp_seq hwrite fun r s₁ h₁ => ?_
  cases r with
  | none => exact h₁
  | some id =>
    rw [wp_bind, wp_stepTo]
    refine ⟨h₁.inv, fun e _ => ?_⟩
    refine wp_if (fun hok => ?_) fun hok => ?_
    · rw [if_pos hok]
      exact (h₁.settle _).took id
    · rw [if_neg hok]
      exact h₁.settle _

theorem wp_absorbPart (h : Carry v s) : wp Any State.Inv Carry (absorbPart l v) s := by
  have hpool : wp Any State.Inv (fun _ => Carry (v.see l.ids)) (poolParts (v.see l.ids)) s := by
    rw [poolParts]
    split
    · exact h.see _
    · exact (h.see _).wp_find fun _ _ h' => h'
  refine wp_seq hpool fun ids s₁ h₁ => ?_
  have h₁ : Carry { v.see l.ids with pooled := some ids } s₁ := ⟨h₁.inv, h₁.held⟩
  rw [wp_ite, wp_bind, wp_bind]
  refine ⟨fun _ => h₁.wp_change fun _ h₂ => ?_, fun _ => h₁.wp_find fun _ s₂ h₂ => ?_⟩
  · exact h₂.relyParts (subset_append_right ..)
  · exact wp_if (fun _ => h₂.wp_take) fun _ => h₂

theorem wp_absorbLine (h : Carry v s) : wp Any State.Inv Carry (absorbLine l v) s := by
  have hseen : l.fp ∈ (v.see [l.fp]).seen := mem_append_right _ (mem_singleton_self _)
  refine wp_seq ((h.see _).wp_knownOrDead hseen) fun r s' h' => ?_
  cases r with
  | some v' => exact h'
  | none =>
    exact wp_if (fun _ => h'.wp_take) fun _ => h'.wp_absorbPart

theorem wp_absorbLines {ls : List Line} (h : Carry v s) :
    wp Any State.Inv Carry (absorbLines ls v) s := by
  induction ls generalizing v s with
  | nil => exact h
  | cons l ls ih =>
    exact wp_seq h.wp_absorbLine fun _ _ h' => ih h'

end Carry

/-! ## The end of the pool lock -/

/-- What is to be removed is accounted for, with the tombstones as they are now. -/
structure Settled (v : Local) (s : State) : Prop where
  inv : s.Inv
  held : Clean s.log → ∀ mv ∈ v.move, Pooled s v.new mv ∨ Dead s.deleted mv

theorem Carry.settled (h : Carry v s) : Settled v s where
  inv := h.inv
  held := fun hc mv hmv => (h.held hc mv hmv).imp_right fun hd => hd.mono (filter_subset_self _)

theorem Carry.prune (h : Carry v s) : Settled v (s.prune v.seen) := by
  rw [State.prune]
  split
  · exact h.settled
  · have hempty : Clean (.pruned (s.deleted.filter (· ∈ v.seen) ≠ []) :: s.log) →
        s.deleted.filter (· ∈ v.seen) = [] := fun hc => by
      have hhead := hc.head
      simpa [Event.Clean] using hhead
    refine ⟨fun hc => ?_, fun hc mv hmv => ?_⟩
    · have hgood : State.Good { s with
          deleted := s.deleted.filter (· ∈ v.seen), old := some (s.old.getD [] ++ s.deleted) } :=
        { h.inv hc.tail with tombstones := fun hne => absurd (hempty hc) hne }
      exact hgood.note rfl
    · exact h.held hc.tail mv hmv

theorem covers_of_held (hs : s.Good) (h : Pooled s 0 mv ∨ Dead s.deleted mv) : s.covers mv := by
  rw [State.covers, or_eq_true]
  rcases h with ⟨m, hm, hacc, hname⟩ | hdead
  · refine .inl (any_eq_true.2 ⟨m, hm, ?_⟩)
    rw [Stored.durable, hs.data m hm, hname.resolve_right (Nat.lt_irrefl 0), hacc]
    rfl
  · have hne : s.deleted ≠ [] := by
      rcases hdead with hd | hd
      · exact ne_nil_of_mem hd
      · exact ne_nil_of_mem hd
    refine .inr ?_
    rw [hs.tombstones hne]
    simpa [Dead] using hdead

namespace Settled

variable {v : Local} {s : State}

theorem covered (h : Settled v s) (h0 : ¬ 0 < v.new) : Covered v.move s where
  inv := h.inv
  covers := fun hc mv hmv => by
    have hheld := h.held hc mv hmv
    rw [Nat.eq_zero_of_not_pos h0] at hheld
    exact covers_of_held (h.inv hc) hheld

theorem sync (h : Settled v s) : Covered v.move s.sync where
  inv := fun hc => (h.inv hc).sync
  covers := fun hc mv hmv => by
    refine covers_of_held (h.inv hc).sync ((h.held hc mv hmv).imp_left ?_)
    rintro ⟨m, hm, hacc, -⟩
    exact ⟨_, mem_map_of_mem hm, hacc, .inl rfl⟩

theorem settle (h : Settled v s) : Settled v (s.settle others) :=
  ⟨h.inv.settle others, h.held⟩

end Settled

/-! ## Removals -/

namespace Covered

variable {mvs : List Move} {mv : Move} {s : State} (todo : List Move)

section

variable (h : Covered mvs s)

include h

theorem settle : Covered mvs (s.settle others) :=
  ⟨h.inv.settle others, h.covers⟩

theorem note
    (he : e.Clean → Clean s.log → (∀ mv ∈ mvs, s.covers mv) → e.Safe) : Covered mvs (s.note e) where
  inv := fun hc => (h.inv hc.tail).note (he hc.head hc.tail (h.covers hc.tail))
  covers := fun hc => h.covers hc.tail

theorem dropPart (hmv : mv ∈ mvs) : Covered mvs (s.dropPart mv) := by
  have hparts : Covered mvs { s with parts := s.parts.filter fun p => p.1 ≠ mv.index } :=
    ⟨fun hc => { h.inv hc with }, h.covers⟩
  exact hparts.note fun _ _ hcov => hcov mv hmv

theorem deleteSlot (hmv : mv ∈ mvs) {want : Text}
    (hheld : Clean s.log → (s.sim mv.index).map upper = some want) :
    Covered mvs (s.deleteSlot want mv) := by
  have hsim : Covered mvs { s with sim := Function.update s.sim mv.index none } :=
    ⟨fun hc => { h.inv hc with }, h.covers⟩
  refine hsim.note fun _ hc hcov => ?_
  rw [Event.Safe, and_eq_true]
  exact ⟨decide_eq_true (hheld hc), hcov mv hmv⟩

theorem slip (mv : Move) : Covered mvs (s.slip others mv) := by
  rw [State.slip]
  split
  · exact h.settle others
  · exact (h.settle others).note fun _ _ _ => rfl

end

theorem sim_slip (mv : Move)
    (hc : Clean (s.slip others mv).log) : (s.slip others mv).sim mv.index = s.sim mv.index := by
  rw [State.slip] at hc ⊢
  split at hc
  · rename_i heq
    rw [if_pos heq]
    exact heq
  · exact nomatch hc.head

theorem wp_cmgd {want : Text} (h : Covered mvs s) (hmv : mv ∈ mvs)
    (hheld : (s.sim mv.index).map upper = some want) :
    wp Any State.Inv (fun _ => Covered mvs) (cmgd want mv) s := by
  refine (wp_op ..).2 ⟨h.inv, fun e _ => ?_⟩
  split
  · refine (h.slip e.others mv).deleteSlot hmv fun hc => ?_
    rw [sim_slip e.others mv hc]
    exact hheld
  · exact h.slip e.others mv

theorem wp_simMove {raw : List (Text × Text)} (hsub : todo ⊆ mvs)
    (h : Covered mvs s) : wp Any State.Inv (fun _ => Covered mvs) (simMove raw todo) s := by
  induction todo generalizing s with
  | nil => exact h
  | cons mv todo ih =>
    obtain ⟨hmv, hsub⟩ := cons_subset.1 hsub
    rw [simMove, wp_bind, find, wp_stepTo]
    refine ⟨h.inv, fun e _ => ?_⟩
    have h₁ := h.settle e.others
    refine wp_if (fun hgot => ?_) fun _ => ih hsub h₁
    refine wp_seq (h₁.wp_cmgd hmv ?_) fun _ _ h₂ => ih hsub h₂
    obtain ⟨-, hgot⟩ := hgot
    split at hgot
    · exact hgot
    · cases hgot

theorem wp_dropParts (hsub : todo ⊆ mvs) (h : Covered mvs s) :
    wp Any State.Inv (fun _ => State.Inv) (dropParts todo) s := by
  induction todo generalizing s with
  | nil => exact h.inv
  | cons mv todo ih =>
    obtain ⟨hmv, hsub⟩ := cons_subset.1 hsub
    exact ⟨h.inv, fun e _ => ih hsub ((h.settle e.others).dropPart hmv)⟩

end Covered

/-! ## Programs -/

section Programs

variable {md5 : Text → Text} {same : Text → Text → Bool} {s : State} {sim : Bool}

theorem wp_absorbLocked {raw : List (Text × Text)} (h : s.Inv) :
    wp Any State.Inv Settled (absorbLocked md5 same sim raw) s := by
  rw [absorbLocked, wp_bind]
  refine h.wp_find fun _ _ h₁ => ?_
  rw [wp_bind]
  refine h₁.wp_find fun _ _ h₂ => ?_
  rw [wp_bind]
  refine h₂.wp_find fun _ _ h₃ => ?_
  refine wp_seq (Carry.wp_absorbLines ⟨h₃, fun _ _ hmv => nomatch hmv⟩) fun v s₄ h₄ => ?_
  refine wp_if (fun _ => ?_) fun _ => h₄.settled
  rw [wp_bind, wp_stepTo]
  refine ⟨h₄.inv, fun e _ => ?_⟩
  split
  · exact (h₄.settle _).prune
  · exact (h₄.settle _).settled

theorem wp_absorb (h : s.Inv) : wp Any State.Inv (fun _ => State.Inv) (absorb md5 same sim) s := by
  have hlist : wp Any State.Inv (fun _ => State.Inv) (listSim sim) s := by
    rw [listSim]
    split
    · exact h.wp_find fun _ _ h' => h'
    · exact h
  refine wp_seq hlist fun r s₁ h₁ => ?_
  cases r with
  | none => exact h₁
  | some raw =>
    refine wp_seq (wp_absorbLocked h₁) fun v s₂ h₂ => ?_
    have hrest : ∀ s₃, Covered v.move s₃ → wp Any State.Inv (fun _ => State.Inv)
        (do simMove raw (v.move.filter fun mv => isSlot mv.index)
            dropParts (v.move.filter fun mv => ¬ isSlot mv.index ∧ mv.index.head? = some 'p')) s₃ :=
      fun s₃ h₃ => by
        rw [wp_bind]
        exact wp_mono (fun _ hi => hi) (fun _ _ h₄ => h₄.wp_dropParts _ (filter_subset_self _))
          (h₃.wp_simMove _ (filter_subset_self _))
    refine wp_if (fun _ => ?_) fun h0 => hrest s₂ (h₂.covered h0)
    exact ⟨h₂.inv, fun e _ => hrest _ (h₂.settle e.others).sync⟩

theorem wp_importPdu {pdu : Text} (h : s.Inv) :
    wp Any State.Inv (fun _ => State.Inv) (importPdu md5 same pdu) s := by
  refine wp_if (fun _ => ?_) fun _ => h
  rw [wp_bind, wp_stepTo]
  refine ⟨h, fun e _ => ?_⟩
  have hset := h.settle e.others
  refine wp_if (fun hok => ?_) fun hok => ?_
  · rw [if_pos (of_decide_eq_true hok)]
    exact wp_absorb fun hc => { hset hc with }
  · rw [if_neg fun hp => hok (decide_eq_true hp)]
    exact hset

theorem State.Inv.step (h : s.Inv) (a : Action) : (s.step md5 same a).Inv := by
  cases a with
  | sync es => exact exec_state_of_wp (fun _ _ => trivial) (wp_absorb h)
  | importPdu pdu es => exact exec_state_of_wp (fun _ _ => trivial) (wp_importPdu h)
  | cut msgs left tombstone part => exact h.cut msgs left tombstone part

theorem State.Inv.runs (h : s.Inv) (as : List Action) : (s.runs md5 same as).Inv :=
  foldlRecOn as (State.step md5 same) h fun _ ht a _ => ht.step a

theorem State.Start.inv (h : s.Start) : s.Inv := fun _ => by
  refine ⟨fun m hm => ?_, fun _ => h.tombstones, fun e he => ?_⟩
  · exact (and_eq_true .. ▸ h.durable m hm).1
  · rw [h.log] at he
    cases he

end Programs

/-- **Nothing leaves the SIM that the disk does not have.** Whatever the hash is and however awk
compares texts: from any SIM and any pool on the disk, over every sequence of runs of `sync` and
`import-pdu`, each killed anywhere, and of power cuts, with anything done to the SIM meanwhile, as
long as no run relies on a message whose name is not on the disk or on a file that never got its
name, or replaces the file of one, or drops some of the tombstones that it needs others of, and no
slot changes between its check and its deletion: every slot that is deleted holds what was listed
for it, and for every slot and every parked part that is removed the disk has a message or a
tombstone. -/
theorem moved_pooled (md5 : Text → Text) (same : Text → Text → Bool) (s : State) (hs : s.Start)
    (as : List Action) (h : Clean (s.runs md5 same as).log) :
    ∀ e ∈ (s.runs md5 same as).log, e.Safe :=
  (hs.inv.runs as h).safe

/-- A message on the SIM, and an empty pool. -/
def sampleSim (pdu : Text) : State where
  sim := Function.update (fun _ => none) ['1'] (some pdu)
  msgs := []
  left := []
  deleted := []
  old := none
  parts := []
  log := []

def samplePdu : Text := "00040291210000621021314151000141"

/-- The first of two parts. -/
def firstOfTwo : Text := "0044029121000062102131415100070500032A020141"

/-- All goes well, and nobody else does anything; a message with missing parts has waited. -/
def well : Reply := ⟨true, true, true, [(['1'], ['0'])], [], [], [], []⟩

theorem sampleSim_start (pdu : Text) : (sampleSim pdu).Start := ⟨fun _ hm => (nomatch hm), rfl, rfl⟩

/-- One run moves the message off the SIM. -/
theorem moved_pooled_sample :
    let s := (sampleSim samplePdu).runs id (fun a b => a = b) [.sync (replicate 12 well)]
    (sampleSim samplePdu).Start ∧ s.log = [.slot true true] ∧ ∀ e ∈ s.log, e.Safe :=
  ⟨sampleSim_start _, by decide +kernel,
    moved_pooled id _ (sampleSim samplePdu) (sampleSim_start _) _ (by decide +kernel)⟩

/-- A run is killed when the message is stored and its name is not on the disk yet. The next one
finds it, stores nothing, and so calls `durable` on nothing; it deletes the slot, and with the power
goes the message. And when a run is killed before the file of a message with missing parts gets its
name, the next one finds the part ids in it and deletes the slot: no power cut is needed, the pool
is empty. -/
theorem killed_before_durable :
    let s := (sampleSim samplePdu).runs id (fun a b => a = b)
      [.sync (replicate 7 well), .sync (replicate 12 well),
        .cut (fun _ => none) [] (fun _ => false) fun _ => false]
    let s' := (sampleSim firstOfTwo).runs id (fun a b => a = b)
      [.sync (replicate 8 well), .sync (replicate 14 well)]
    ((sampleSim samplePdu).Start ∧ s.log = [.slot true false, .relied false] ∧
      s.msgs.length = 0 ∧ s.sim ['1'] = none ∧ ¬ ∀ e ∈ s.log, e.Safe) ∧
    (sampleSim firstOfTwo).Start ∧ s'.log = [.slot true false, .relied false] ∧
      s'.msgs.length = 0 ∧ s'.sim ['1'] = none ∧ ¬ ∀ e ∈ s'.log, e.Safe := by
  refine ⟨⟨sampleSim_start _, ?_⟩, sampleSim_start _, ?_⟩
  · decide +kernel
  · decide +kernel

end Mu300.Sms
