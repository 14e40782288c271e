import Mu300.KernelStep.Model

/-!
# What settling comes to

`modules_settle` of `boot/init` may be cut off like everything else, and starts over. So what
counts of a disk is not what the module directories hold but what they will hold once settled.
-/

namespace Mu300.KernelStep

open Shell Crash Crash.Prog List

variable {systems : List System} {s s' : State} {r : Text}

/-! ## Banners -/

/-- `boot/init` knows the kernel of a banner by its release and the end of the banner. -/
theorem running_iff (k k' : Kernel) :
    (k.release = k'.release ∧ (' ' :: k.version).isSuffixOf k'.banner) ↔ k = k' := by
  refine ⟨fun ⟨hr, hs⟩ => Kernel.ext hr ?_, ?_⟩
  · obtain ⟨w, hv, hw⟩ := k.numbered
    obtain ⟨w', hv', hw'⟩ := k'.numbered
    obtain ⟨a, ha⟩ := isSuffixOf_iff_suffix.1 hs
    rw [Kernel.banner, hv, hv'] at ha
    have h : (a ++ [' ']) ++ '#' :: w = k'.front ++ '#' :: w' := by
      rw [← ha, append_assoc, singleton_append]
    rw [hv, hv', (eq_of_append_cons hw hw' h).2]
  · rintro rfl
    exact ⟨rfl, isSuffixOf_iff_suffix.2 ⟨_, (append_assoc _ [' '] k.version).symm⟩⟩

/-! ## Loops over the systems -/

/-- Only the systems' directories of one release differ, and none of them is gone. -/
structure Touched (systems : List System) (r : Text) (s s' : State) : Prop where
  rest : s' = { s with sets := s'.sets }
  frame : ∀ o q, ¬ (o ∈ systems ∧ q = r) → s'.sets o q = s.sets o q
  there : ∀ o, s.sets o r ≠ none → s'.sets o r ≠ none

namespace Touched

theorem refl (s : State) : Touched systems r s s := ⟨rfl, fun _ _ _ => rfl, fun _ h => h⟩

theorem put (h : Touched systems r s s') {os : System} (hos : os ∈ systems) (ms : List Module) :
    Touched systems r s (s'.put os r ms) := by
  refine ⟨?_, fun o q hoq => ?_, fun o ho => ?_⟩
  · rw [State.put, h.rest]
  · rw [State.put]
    have : ¬ (o = os ∧ q = r) := by
      rintro ⟨rfl, rfl⟩
      exact hoq ⟨hos, rfl⟩
    simp only [this, if_false]
    exact h.frame o q hoq
  · rw [State.put]
    by_cases hoo : o = os
    · simp [hoo]
    · simpa [hoo] using h.there o ho

end Touched

variable {A : Answer → Prop} {C I : State → Prop} {ms : System → List Module}
  {links : Answer → Bool} {onlyThere : Bool} {os : System}

theorem wp_each_refill {Q : Bool → State → Prop}
    (hC : ∀ s', Touched systems r s s' →
      (onlyThere → ∀ o, s.sets o r = none → s'.sets o r = none) → C s')
    (hfail : ∀ s' e, A e → links e = false → Touched systems r s s' → Q false s')
    (hok : ∀ s', Touched systems r s s' →
      (∀ os ∈ systems, s'.sets os r =
        if onlyThere ∧ s.sets os r = none then none else some (ms os)) → Q true s') :
    wp A C Q (each (refill links onlyThere r ms) systems) s := by
  -- the systems that are not to come any more are done, and no directory is made that is not to be
  let Absent : State → Prop := fun s' =>
    onlyThere → ∀ o, s.sets o r = none → s'.sets o r = none
  let I : List System → State → Prop := fun rest s' =>
    Touched systems r s s' ∧ Absent s' ∧ (∀ os ∈ rest, os ∈ systems) ∧
      ∀ os ∈ systems, os ∈ rest ∨ s'.sets os r =
        if onlyThere ∧ s.sets os r = none then none else some (ms os)
  have absent_put : ∀ s' os ms, Absent s' → ¬ (onlyThere ∧ s.sets os r = none) →
      Absent (s'.put os r ms) := by
    intro s' os ms ha hskip honly o ho
    have hoo : o ≠ os := fun h => hskip ⟨honly, h ▸ ho⟩
    simp only [State.put, hoo, false_and, if_false]
    exact ha honly o ho
  refine wp_each (I := I) (fun os rest s' hI => ?_) (fun s' hI => ?_)
    ⟨.refl s, fun _ _ h => h, fun _ h => h, fun _ h => .inl h⟩
  · obtain ⟨ht, ha, hsub, hdone⟩ := hI
    have hos : os ∈ systems := hsub os mem_cons_self
    have hsub' : ∀ o ∈ rest, o ∈ systems := fun o ho => hsub o (.tail _ ho)
    refine wp_step (hC s' ht ha) fun _ _ => ?_
    refine wp_if (fun hskip => ?_) fun hskip => ?_
    · -- no directory here, and none is made
      obtain ⟨honly, hnone⟩ := of_decide_eq_true hskip
      have hnone₀ : s.sets os r = none := by
        by_contra h
        exact ht.there os h hnone
      refine ⟨ht, ha, hsub', fun o ho => ?_⟩
      by_cases hoo : o = os
      · subst hoo
        right
        rw [if_pos ⟨honly, hnone₀⟩, hnone]
      · exact (hdone o ho).imp_left fun hmem => (mem_cons.1 hmem).resolve_left hoo
    · have hskip : ¬ (onlyThere ∧ s'.sets os r = none) := fun h => hskip (decide_eq_true h)
      have hskip₀ : ¬ (onlyThere ∧ s.sets os r = none) := fun h =>
        hskip ⟨h.1, ha h.1 os h.2⟩
      refine wp_step (hC s' ht ha) fun e _ => ?_
      have hj := ht.put hos e.junk
      have haj := absent_put s' os e.junk ha hskip₀
      rw [wp_op]
      refine ⟨hC _ hj haj, fun e' he' => ?_⟩
      cases hl : links e' with
      | false => exact hfail _ e' he' hl hj
      | true =>
        refine ⟨hj.put hos (ms os), absent_put _ os (ms os) haj hskip₀, hsub', fun o ho => ?_⟩
        by_cases hoo : o = os
        · subst hoo
          simp [State.put, hskip₀]
        · simp only [if_true, State.put, hoo, false_and, if_false]
          exact (hdone o ho).imp_left fun hmem => (mem_cons.1 hmem).resolve_left hoo
  · obtain ⟨ht, -, -, hdone⟩ := hI
    exact hok s' ht fun os hos => (hdone os hos).resolve_left (not_mem_nil)

theorem wp_refill_inv (hput : ∀ s ms, I s → I (s.put os r ms)) (hC : ∀ s, I s → C s) (hs : I s) :
    wp A C (fun _ => I) (refill links onlyThere r ms os) s := by
  refine wp_step (hC s hs) fun _ _ => ?_
  refine wp_if (fun _ => hs) fun _ => ?_
  refine wp_step (hC s hs) fun e _ => ?_
  have hj := hput s e.junk hs
  rw [wp_op]
  refine ⟨hC _ hj, fun e' _ => ?_⟩
  split
  · exact hput _ (ms os) hj
  · exact hj

theorem wp_removeStale_inv {more : Option Text}
    (hrm : ∀ s' rs, I s' → (∀ q, rs q → s.stale more os q) → I (s'.remove os rs))
    (hC : ∀ s, I s → C s) (hs : I s) : wp A C (fun _ => I) (removeStale more os) s := by
  refine wp_step (hC s hs) fun _ _ => ?_
  refine wp_step (hC s hs) fun e _ => ?_
  have h₁ := hrm s (fun q => s.stale more os q && e.gone q) hs fun q hq =>
    (Bool.and_eq_true_iff.1 hq).1
  exact wp_step (hC _ h₁) fun _ _ => hrm _ _ h₁ fun _ hq => hq

/-! ## Settled -/

/-- What a system's directory of a release holds once the next boot has settled. -/
def after (systems : List System) (s : State) (os : System) (r : Text) : List Module :=
  match s.pending with
  | none => s.modules os r
  | some (q, banner) =>
    if validRelease q ∧ os ∈ systems ∧ r = q then
      if s.slot.kernel.release = q ∧ (' ' :: s.slot.kernel.version).isSuffixOf banner then
        if (s.staged.map Prod.snd).getD [] = [] then s.modules os r
        else (s.staged.map Prod.snd).getD []
      else if s.sets os q = none then []
      else ((s.keptFor q).bind (·.sets os)).getD []
    else s.modules os r

theorem after_of_not_pending (h : s.pending = none) (os : System) (r : Text) :
    after systems s os r = s.modules os r := by
  rw [after, h]

theorem modules_of_eq (h : s'.sets os r = s.sets os r) : s'.modules os r = s.modules os r := by
  rw [State.modules, State.modules, h]

/-- The kernel that was on its way in is in the slot. -/
def Arrived (s : State) (r banner : Text) : Prop :=
  s.slot.kernel.release = r ∧ (' ' :: s.slot.kernel.version).isSuffixOf banner

def stagedModules (s : State) : List Module := (s.staged.map Prod.snd).getD []

/-- What was kept of a system's modules. -/
def keptModules (s : State) (r : Text) (os : System) : List Module :=
  ((s.keptFor r).bind (·.sets os)).getD []

section Pending

variable {banner : Text} (hp : s.pending = some (r, banner)) (hv : validRelease r)

include hp hv

theorem after_of_arrived (hnew : Arrived s r banner) (hms : stagedModules s ≠ []) (os : System)
    (q : Text) : after systems s os q =
      if os ∈ systems ∧ q = r then stagedModules s else s.modules os q := by
  rw [after, hp]
  have hms : ¬ (s.staged.map Prod.snd).getD [] = [] := hms
  have hnew : s.slot.kernel.release = r ∧ (' ' :: s.slot.kernel.version).isSuffixOf banner := hnew
  simp only [hv, true_and, if_pos hnew, if_neg hms]
  rfl

theorem after_of_not_arrived (hold : ¬ Arrived s r banner) (os : System) (q : Text) :
    after systems s os q =
      if os ∈ systems ∧ q = r then (if s.sets os r = none then [] else keptModules s r os)
      else s.modules os q := by
  rw [after, hp]
  have hold : ¬ (s.slot.kernel.release = r ∧ (' ' :: s.slot.kernel.version).isSuffixOf banner) :=
    hold
  simp only [hv, true_and, if_neg hold]
  rfl

theorem after_touched_of_arrived (hnew : Arrived s r banner) (hms : stagedModules s ≠ [])
    (ht : Touched systems r s s') (os : System) (q : Text) :
    after systems s' os q = after systems s os q := by
  have hp' : s'.pending = some (r, banner) := by rw [ht.rest]; exact hp
  have hnew' : Arrived s' r banner := by rw [ht.rest]; exact hnew
  have hst : stagedModules s' = stagedModules s := by rw [ht.rest]; rfl
  rw [after_of_arrived hp hv hnew hms, after_of_arrived hp' hv hnew' (hst ▸ hms), hst]
  split
  · rfl
  · next hoq => exact modules_of_eq (ht.frame os q hoq)

theorem after_touched_of_not_arrived (hold : ¬ Arrived s r banner) (ht : Touched systems r s s')
    (ha : ∀ o ∈ systems, s.sets o r = none → s'.sets o r ≠ none → keptModules s r o = [])
    (os : System) (q : Text) : after systems s' os q = after systems s os q := by
  have hp' : s'.pending = some (r, banner) := by rw [ht.rest]; exact hp
  have hold' : ¬ Arrived s' r banner := by rw [ht.rest]; exact hold
  have hk : keptModules s' r os = keptModules s r os := by rw [ht.rest]; rfl
  rw [after_of_not_arrived hp hv hold, after_of_not_arrived hp' hv hold', hk]
  split
  · next hoq =>
    by_cases hn : s.sets os r = none
    · split
      · rfl
      · next hn' => exact ha os hoq.1 hn hn'
    · rw [if_neg hn, if_neg (ht.there os hn)]
  · next hoq => exact modules_of_eq (ht.frame os q hoq)

end Pending

/-- Everything but the module directories and the mark is as it was, and no directory is gone. -/
structure Rest (s s' : State) : Prop where
  eq : s' = { s with sets := s'.sets, pending := s'.pending }
  there : ∀ o q, s.sets o q ≠ none → s'.sets o q ≠ none

theorem Rest.refl (s : State) : Rest s s := ⟨rfl, fun _ _ h => h⟩

theorem Rest.trans {s₁ s₂ s₃ : State} (h : Rest s₁ s₂) (h' : Rest s₂ s₃) : Rest s₁ s₃ :=
  ⟨by rw [h'.eq, h.eq], fun o q hs => h'.there o q (h.there o q hs)⟩

theorem Touched.toRest (h : Touched systems r s s') : Rest s s' := by
  refine ⟨?_, fun o q hs => ?_⟩
  · conv_lhs => rw [h.rest]
    rw [h.rest]
  · by_cases hq : q = r
    · subst hq
      exact h.there o hs
    · rw [h.frame o q fun hc => hq hc.2]
      exact hs

theorem Rest.done (h : Rest s s') : Rest s s'.done := by
  refine ⟨?_, h.there⟩
  rw [State.done]
  conv_lhs => rw [h.eq]

/-- **Settling comes to what `after` says**, from wherever it starts over. -/
theorem wp_settleInit (hrun : s.running = s.slot.kernel) : wp (fun _ => True)
      (fun s' => Rest s s' ∧ ∀ os q, after systems s' os q = after systems s os q)
      (fun _ s' => Rest s s' ∧ s'.pending = none ∧ ∀ os q, s'.modules os q = after systems s os q)
      (settleInit systems) s := by
  refine wp_step (⟨.refl s, fun _ _ => rfl⟩) fun _ _ => ?_
  rcases hp : s.pending with _ | ⟨r, banner⟩
  · exact ⟨.refl s, hp, fun os q => (after_of_not_pending hp os q).symm⟩
  refine wp_if (fun hv => ?_) fun hv => ?_
  · -- no release at all
    refine ⟨⟨Rest.refl s, fun _ _ => rfl⟩, fun _ _ => ⟨(Rest.refl s).done, rfl, fun os q => ?_⟩⟩
    have hv : validRelease r = false := by simpa using hv
    simp [after, hp, hv]
    rfl
  have hv : validRelease r := by simpa using hv
  rw [wp_ite, hrun]
  refine ⟨fun hnew => ?_, fun hold => ?_⟩
  · refine wp_if (fun hms => ?_) fun hms => ?_
    · -- the unpacked set is gone
      refine ⟨⟨Rest.refl s, fun _ _ => rfl⟩, fun _ _ => ⟨(Rest.refl s).done, rfl, fun os q => ?_⟩⟩
      rw [after, hp]
      simp only [hnew, hms, if_true, and_self, ite_self]
      rfl
    · -- the new kernel runs: the unpacked set
      rw [wp_bind, putIn]
      refine wp_each_refill (fun s' ht _ => ⟨ht.toRest, after_touched_of_arrived hp hv hnew hms ht⟩)
        (fun _ _ _ hl => nomatch hl) fun s' ht hsets => ?_
      rw [wp_act]
      refine ⟨⟨ht.toRest, after_touched_of_arrived hp hv hnew hms ht⟩, fun _ _ => ?_⟩
      refine ⟨ht.toRest.done, rfl, fun os q => ?_⟩
      rw [after_of_arrived hp hv hnew hms]
      split
      · next hoq =>
        obtain ⟨hos, rfl⟩ := hoq
        rw [State.modules, State.done, hsets os hos]
        rfl
      · next hoq => exact modules_of_eq (ht.frame os q hoq)
  · -- another kernel runs: the set that was kept
    rw [wp_bind, putBack]
    have hafter : ∀ s', Touched systems r s s' → (∀ o, s.sets o r = none → s'.sets o r = none) →
        ∀ os q, after systems s' os q = after systems s os q := fun s' ht ha =>
      after_touched_of_not_arrived hp hv hold ht fun o _ hn hn' => absurd (ha o hn) hn'
    refine wp_each_refill (fun s' ht ha => ⟨ht.toRest, hafter s' ht (ha rfl)⟩)
      (fun _ _ _ hl => nomatch hl) fun s' ht hsets => ?_
    have ha : ∀ o, s.sets o r = none → s'.sets o r = none := by
      intro o ho
      by_cases hos : o ∈ systems
      · rw [hsets o hos, if_pos ⟨rfl, ho⟩]
      · rw [ht.frame o r fun h => hos h.1, ho]
    rw [wp_act]
    refine ⟨⟨ht.toRest, hafter s' ht ha⟩, fun _ _ => ⟨ht.toRest.done, rfl, fun os q => ?_⟩⟩
    rw [after_of_not_arrived hp hv hold]
    split
    · next hoq =>
      obtain ⟨hos, rfl⟩ := hoq
      rw [State.modules, State.done, hsets os hos]
      simp only [true_and]
      split <;> rfl
    · next hoq => exact modules_of_eq (ht.frame os q hoq)

/-! ## The next boot -/

/-- The next boot of Linux: settling is cut off any number of times, each time the device starts
again, and then it gets to its end. -/
def Boots (systems : List System) (s s' : State) : Prop :=
  ∃ cuts last, exec (settleInit systems) last (restarts (settleInit systems) cuts (boot s)) =
    .done () s'

theorem Boots.spec (h : Boots systems s s') :
    Rest (boot s) s' ∧ s'.pending = none ∧ ∀ os q, s'.modules os q = after systems s os q := by
  obtain ⟨cuts, last, hdone⟩ := h
  have hstart : ∀ os q, after systems (boot s) os q = after systems s os q := fun _ _ => rfl
  -- what every settling that was cut off leaves
  let J : State → Prop := fun s' =>
    Rest (boot s) s' ∧ ∀ os q, after systems s' os q = after systems s os q
  have hJ : ∀ s₁, J s₁ → s₁.running = s₁.slot.kernel := by
    intro s₁ h₁
    rw [h₁.1.eq]
    rfl
  have hstep : ∀ s₁, J s₁ → wp (fun _ => True) J (fun _ => J) (settleInit systems) s₁ := by
    intro s₁ h₁
    refine wp_mono (fun s₂ h₂ => ⟨h₁.1.trans h₂.1, fun os q => (h₂.2 os q).trans (h₁.2 os q)⟩)
      (fun _ s₂ h₂ => ⟨h₁.1.trans h₂.1, fun os q => ?_⟩) (wp_settleInit (hJ s₁ h₁))
    rw [after_of_not_pending h₂.2.1, h₂.2.2, h₁.2]
  have h₁ : J (restarts (settleInit systems) cuts (boot s)) :=
    restarts_of_wp hstep (fun _ _ _ _ => trivial) ⟨.refl _, hstart⟩
  obtain ⟨hrest, hpend, hmods⟩ :=
    exec_done_of_wp (fun _ _ => trivial) (wp_settleInit (hJ _ h₁)) hdone
  exact ⟨h₁.1.trans hrest, hpend, fun os q => (hmods os q).trans (h₁.2 os q)⟩

end Mu300.KernelStep
