import Mu300.CpuVoltage.Marks

/-!
# One trial for every offset

Over every sequence of boots, commands, shutdowns and power cuts, an offset is handed to the
kernel only when it is the valid one last asked for, in its first boot or after ten good
minutes, and never behind an offset that ended without a shutdown.
-/

namespace Mu300.CpuVoltage

open Shell Crash Crash.Prog Device

/-- Every state the program can be cut off in tells the history, and every end satisfies `Q`. -/
abbrev Steps {α : Type} (Q : α → State → Prop) (p : Prog Reply State α) (s : State) : Prop :=
  wp (fun _ => True) (fun s => Core s.cut) Q p s

theorem put_put (s : State) (f : File) (t t' : Option Text) :
    (s.put f t).put f t' = s.put f t' := by
  simp [State.put]

variable {Q : Unit → State → Prop} {s s' : State} {v : Text} {d : Device} {f : File}
  (es : List Reply)

theorem wp_echoTo {t : Text} (hs : Held s) (ht : ∀ k, Held (s.put f (some ((line t).take k))))
    (h : Held (s.put f (some (line t))) → Q () (s.put f (some (line t)))) :
    Steps Q (echoTo f t) s := by
  simp only [echoTo, wp_bind, wp_op, wp_act]
  refine ⟨hs.cut, fun e _ => ⟨(ht e.torn).cut, fun _ _ => ?_⟩⟩
  rw [put_put]
  refine h ?_
  have := ht (line t).length
  rwa [List.take_length] at this

theorem wp_rm (hs : Held s) (h : Q () (s.put f none)) : Steps Q (rm f) s := by
  exact ⟨hs.cut, fun _ _ => h⟩

/-! ## The boot -/

theorem Core.held (h : Core s) (hs : standing s.log = false) : Held s :=
  ⟨h, fun hst => by simp [hs] at hst⟩

structure Rejected (s s' : State) : Prop where
  core : Core s'
  log : s'.log = .rejected :: s.log
  good : s'.files .good = none
  armed : s'.files .armed = none

theorem wp_cpuvReject {reason : Text} (hs : Held s)
    (hd : dropped s.log → (s.files .armed).isSome) (h : ∀ s', Rejected s s' → Q () s') :
    Steps Q (cpuvReject v reason) s := by
  simp only [cpuvReject, wp_bind]
  refine wp_echoTo hs (fun k => hs.of_put (hs.core.put_rejected _) (by decide)) fun h1 => ?_
  -- the request: what is left of it is `0,0,0` or not valid
  have hclear : ∀ k, Core ((s.put .rejected (some (line (v ++ ' ' :: reason)))).put .request
      (some ((line zero).take k))) := by
    refine fun k => h1.core.clear (by simpa using hd) fun hv => ?_
    simp only [req, State.put_files, if_true] at hv ⊢
    split_ifs at hv ⊢ with hnil
    · rfl
    · exact head_zero_take k hv
  rw [wp_bind]
  refine wp_echoTo h1 (fun k => h1.of_put (hclear k) (by decide)) fun h2 => ?_
  generalize hs2 : (s.put .rejected _).put .request (some (line zero)) = s2 at h2 ⊢
  have hlog : s2.log = s.log := by rw [← hs2]; rfl
  have hreq : s2.files .request = some (line zero) := by rw [← hs2]; simp
  have hzero : req s2 = zero := req_of_line cpuvValid_zero hreq
  -- with `0,0,0` for a request no mark has to be there
  have hno : req s2 = lastRequest s2.log → lastRequest s2.log ≠ zero → False := by
    intro hq hz
    exact hz (hq ▸ hzero)
  have h3 := h2.core.put_trial (t := none) fun hq hz => (hno hq hz).elim
  rw [wp_bind]
  refine wp_rm h2 ?_
  have hs3 : Held (s2.put .trial none) := h2.of_put h3 (by decide)
  have h4 : Core ((s2.put .trial none).put .good none) :=
    h3.put_good (by simpa using fun hq hz => (hno hq hz).elim) fun _ => rfl
  rw [wp_bind]
  refine wp_rm hs3 ?_
  refine ⟨(hs3.of_put h4 (by decide)).cut, fun _ _ => h _ ⟨?_, by simp [hlog], by simp, by simp⟩⟩
  have h5 := h4.disarm (by simpa using fun hq hz => (hno hq hz).elim)
    (by simpa using fun _ => hreq)
  exact h5.rejected (by simp) (by simpa using hreq)

/-- Nothing to run: the stock voltages. -/
structure Stock (s : State) : Prop where
  core : Core s
  standing : standing s.log = false
  bootUp : bootUp s.log = false
  good : s.files .good = none
  armed : s.files .armed = none

structure Chosen (v : Text) (s : State) : Prop where
  core : Core s
  standing : standing s.log = false
  bootUp : bootUp s.log = false
  ne : v ≠ zero
  last : lastRequest s.log = v
  sound : Sound v s.log
  trial : upWith v s.log ∨ head (s.files .trial) = v
  good : head (s.files .good) = v → upWith v s.log

theorem Rejected.stock (h : Rejected s s') (hu : bootUp s.log = false) : Stock s' :=
  ⟨h.core, by rw [h.log]; rfl, by rw [h.log]; exact hu, h.good, h.armed⟩

theorem wp_chooseValue {Q : Text → State → Prop} (hc : Core s)
    (hst : standing s.log = false) (hu : bootUp s.log = false)
    (hzero : ∀ s', Stock s' → Q zero s') (hv : ∀ v s', Chosen v s' → Q v s') :
    Steps Q (chooseValue (req s)) s := by
  have hs : Held s := hc.held hst
  have hreject : ∀ v reason, (dropped s.log → (s.files .armed).isSome) →
      Steps (fun _ => Q zero) (cpuvReject v reason) s :=
    fun v reason hd => wp_cpuvReject hs hd fun s' hr => hzero s' (hr.stock hu)
  simp only [chooseValue, wp_bind, wp_test, wp_look, wp_ite, wp_pure, decide_eq_true_eq]
  refine ⟨hs.cut, fun _ _ => ⟨fun harmed => ⟨hs.cut, fun _ _ => ?_⟩, fun harmed => ?_⟩⟩
  · -- the last boot with an offset ended without a shutdown
    exact hreject _ _ fun _ => harmed
  have hnone : s.files .armed = none := by simpa using harmed
  -- with no mark, a dropped offset has its request cleared
  have hfresh : req s ≠ zero → ¬ dropped s.log := by
    intro hz hd
    rcases hc.drop hd with hun | hr
    · simp [hnone] at hun
    · exact hz (req_of_line cpuvValid_zero hr.2)
  refine ⟨fun hz => ?_, fun hz => ?_⟩
  · have hno : req s = lastRequest s.log → lastRequest s.log ≠ zero → False :=
        fun hq hne => hne (hq ▸ hz)
    have h1 := hc.put_trial (t := none) fun hq hne => (hno hq hne).elim
    have h2 := h1.put_good (t := none) (by simpa using fun hq hne => (hno hq hne).elim) fun _ => rfl
    refine wp_rm hs ?_
    rw [wp_bind]
    refine wp_rm (hs.of_put h1 (by decide)) ?_
    exact hzero _ ⟨h2, hst, hu, by simp, by simp [hnone]⟩
  have hd := hfresh hz
  have hrej := fun v reason => hreject v reason fun hdr => absurd hdr hd
  refine ⟨fun _ => hrej _ _, fun hvalid => ⟨hs.cut, fun e _ => ⟨fun _ => hrej _ _, fun _ => ?_⟩⟩⟩
  have hvalid : cpuvValid (req s) := by simpa using hvalid
  have hlast : req s = lastRequest s.log := hc.request hvalid hz
  have hnz : lastRequest s.log ≠ zero := hlast ▸ hz
  refine ⟨hs.cut, fun _ _ => ⟨fun hgood => ?_, fun hgood => ⟨hs.cut, fun _ _ =>
    ⟨fun _ => hrej _ _, fun htrial => ?_⟩⟩⟩⟩
  · -- the good mark, and no boot is in the middle of writing it
    have hup : upWith (lastRequest s.log) s.log := by
      simpa [hnone] using hc.good hlast hnz (hlast ▸ hgood)
    rw [hlast]
    exact hv _ s ⟨hc, hst, hu, hnz, rfl, ⟨fun _ => ⟨hlast ▸ hvalid, rfl, .inr hup⟩,
      fun h => absurd h hd⟩, .inl hup, fun _ => hup⟩
  · -- no trial mark: this is the value's first boot
    have hfirst : ¬ handedSince (lastRequest s.log) s.log ∨ upWith (lastRequest s.log) s.log := by
      by_cases hh : handedSince (lastRequest s.log) s.log
      · refine .inr ((hc.trial hlast hnz hh).resolve_right ?_)
        exact hlast ▸ htrial
      · exact .inl hh
    have hput : ∀ t, Core (s.put .trial t) :=
      fun t => hc.put_trial fun _ _ hh => .inl (hfirst.resolve_left (not_not.2 hh))
    refine wp_echoTo hs (fun k => hs.of_put (hput _) (by decide)) fun _ => ?_
    rw [hlast]
    refine hv _ _ ⟨hput _, hst, hu, hnz, rfl, ⟨fun _ => ⟨hlast ▸ hvalid, rfl, hfirst⟩,
      fun h => absurd h hd⟩, .inr ?_, fun hg => ?_⟩
    · simp [head_line (newline_of_valid hc.last)]
    · exact absurd (by simpa using hg) (hlast ▸ hgood)

theorem wp_armBoot {Q : Text → State → Prop} (h : Chosen v s)
    (hQ : ∀ s', Chosen v s' → s'.files .armed = some (line v) → Q v s') :
    Steps Q (armBoot v) s := by
  have hd : ¬ dropped s.log := fun hdr => h.ne (h.sound.stock hdr)
  have hvalid : cpuvValid v := (h.sound.offset h.ne).1
  -- no part of one line has `up` below it
  have harm : ∀ k, Core (s.put .armed (some ((line v).take k))) := by
    refine fun k => h.core.arm hd fun h2 => ?_
    rw [second_take (newline_of_valid hvalid)] at h2
    exact absurd h2 (by decide)
  simp only [armBoot, wp_bind]
  refine wp_echoTo (h.core.held h.standing) (fun k => (harm k).held h.standing) fun hs => ?_
  simp only [wp_bind, wp_test, wp_ite, wp_pure, decide_eq_true_eq]
  refine ⟨hs.cut, fun _ _ => ⟨fun _ => ?_, fun hne => ?_⟩⟩
  · exact hQ _ ⟨hs.core, h.standing, h.bootUp, h.ne, h.last, h.sound, by simpa using h.trial,
      by simpa using h.good⟩ (by simp)
  · simp [head_line (newline_of_valid hvalid)] at hne

theorem Stock.idle (h : Stock s) : Idle (s.note (.handed zero)) where
  core := h.core.handed ⟨fun h => absurd rfl h, fun _ => rfl⟩ (fun hz => absurd rfl hz)
    fun _ => h.armed
  armed hs := by simp [h.standing] at hs
  handed := ⟨zero, by simp⟩
  up hu := by simp [h.bootUp] at hu
  bare _ := h.armed
  good hg := by
    rw [State.note_files, h.good, head_none] at hg
    exact absurd hg.symm (ne_nil_of_valid h.core.last)
  unmarked _ := h.good

theorem Chosen.idle (h : Chosen v s)
    (ha : s.files .armed = some (line v)) : Idle (s.note (.handed v)) where
  core := h.core.handed h.sound (fun _ => h.trial) fun hz => absurd hz h.ne
  armed _ := ⟨v, h.ne, (h.sound.offset h.ne).1, .inl ha, by simp, fun hne => absurd h.last.symm hne,
    fun hdr => h.ne (h.sound.stock hdr)⟩
  handed := ⟨v, by simp⟩
  up hu := by simp [h.bootUp] at hu
  bare hs := by simp [h.ne] at hs
  good hg := by
    simp only [State.note_files, State.note_log, lastRequest, upWith] at hg ⊢
    rw [h.last] at hg ⊢
    exact h.good hg
  unmarked hs := by simp [h.ne] at hs

theorem Rejected.idle (h : Rejected (s.note (.handed v)) s')
    (hu : bootUp s.log = false) : Idle s' where
  core := h.core
  armed hs := by simp [h.log] at hs
  handed := ⟨v, by simp [h.log]⟩
  up hup := by simp [h.log, hu] at hup
  bare _ := h.armed
  good hg := by
    rw [h.good, head_none] at hg
    exact absurd hg.symm (ne_nil_of_valid h.core.last)
  unmarked _ := h.good

theorem wp_hand_zero (h : Stock s) (hQ : ∀ s', Idle s' → Q () s') : Steps Q (hand zero) s := by
  exact ⟨h.core.cut h.standing, fun _ _ => hQ _ h.idle⟩

theorem wp_handOffset (h : Chosen v s)
    (ha : s.files .armed = some (line v)) (hQ : ∀ s', Idle s' → Q () s') :
    Steps Q (handOffset v) s := by
  have hidle := h.idle ha
  have hd : dropped (s.note (.handed v)).log → ((s.note (.handed v)).files .armed).isSome :=
    fun hdr => absurd (h.sound.stock hdr) h.ne
  simp only [handOffset, hand, wp_bind, wp_act, wp_look]
  refine ⟨h.core.cut h.standing, fun _ _ => ⟨hidle.cut, fun e _ => ?_⟩⟩
  cases e.kernel with
  | applied => exact hQ _ hidle
  | refused =>
    rw [wp_bind]
    refine wp_cpuvReject hidle.toHeld hd fun s' hr => ?_
    exact wp_hand_zero (hr.stock h.bootUp) hQ
  | failed => exact wp_cpuvReject hidle.toHeld hd fun s' hr => hQ _ (hr.idle h.bootUp)

theorem Core.keep (h : Core s) (hk : keeps s) : Core (s.put .armed none) := by
  obtain ⟨hsome, hkeep, h2, he, hgood, hv⟩ := hk
  refine h.disarm (fun hq _ _ => (h.armed h2).2 (he.trans hq)) fun hdr => ?_
  rcases h.drop hdr with hun | hr
  · exact absurd ⟨hsome, hkeep, h2, he, hgood, hv⟩ hun.2.2
  · exact hr.2

/-- **A boot** hands over one sound value, or none when it is cut off. -/
theorem wp_cpuVoltageBoot (h : Core s) (hQ : ∀ s', Idle s' → Q () s') :
    Steps Q cpuVoltageBoot (s.note .booted) := by
  have hc : Core (s.note .booted) := h.booted
  -- from the choice on, with the mark kept or not
  have hrest : ∀ s', Core s' → s'.log = .booted :: s.log → req s' = req s → Steps Q (do
        let v ← chooseValue (req s)
        if v = zero then hand zero
        else
          let v ← armBoot v
          if v = zero then hand zero else handOffset v) s' := by
    intro s' hc' hlog hreq
    rw [Steps, wp_bind, ← hreq]
    refine wp_chooseValue hc' (by rw [hlog]; rfl) (by rw [hlog]; rfl) (fun s1 h1 => ?_)
      fun v s1 h1 => ?_
    · simpa using wp_hand_zero h1 hQ
    · rw [if_neg h1.ne, wp_bind]
      refine wp_armBoot h1 fun s2 h2 ha => ?_
      rw [if_neg h2.ne]
      exact wp_handOffset h2 ha hQ
  simp only [cpuVoltageBoot, wp_bind, wp_look, wp_test, wp_ite, decide_eq_true_eq]
  refine ⟨hc.cut rfl, fun _ _ => ⟨hc.cut rfl, fun _ _ => ⟨fun hk => ?_, fun _ => ?_⟩⟩⟩
  · exact wp_rm (hc.held rfl) (hrest _ (hc.keep hk) rfl (by simp [req]))
  · exact (wp_bind _ _ _).1 (hrest _ hc rfl rfl)

/-! ## The commands -/

section Commands

variable {s : State} {Q : Unit → State → Prop} {t : Option Text} {w : Text}

theorem Running.armed_none_of_dropped (h : Running s) (hd : dropped s.log) :
    s.files .armed = none := by
  by_cases hs : standing s.log
  · obtain ⟨w, hw⟩ := h.armed hs
    exact absurd hd hw.fresh
  · exact h.bare hs

theorem Running.of_put (h : Running s) (hc : Core (s.put f t)) (hf : f ≠ .armed) :
    Running (s.put f t) :=
  ⟨h.toHeld.of_put hc hf, h.handed, h.up, fun hs => by simpa [hf.symm] using h.bare hs⟩

theorem Idle.of_put (h : Idle s) (hc : Core (s.put f t))
    (hf : f ≠ .armed) (hg : f ≠ .good) : Idle (s.put f t) :=
  ⟨h.toRunning.of_put hc hf, by simpa [hg.symm] using h.good, by simpa [hg.symm] using h.unmarked⟩

theorem Idle.requested (h : Idle s) (hv : cpuvValid v) :
    Running ((s.put .request (some (line v))).note (.requested v)) := by
  have hc : Core ((s.put .request (some (line v))).note (.requested v)) := by
    refine h.core.requested hv (fun hg => ?_) fun h2 => ?_
    · by_cases hs : standing s.log
      · obtain ⟨w, hw⟩ := h.armed hs
        exact hw.isSome
      · rw [h.unmarked hs, head_none] at hg
        exact absurd hg.symm (ne_nil_of_valid hv)
    · by_cases hs : standing s.log
      · obtain ⟨w, hw⟩ := h.armed hs
        rw [hw.head_eq]
        refine ⟨hw.ne, ?_⟩
        rintro rfl
        exact ⟨hw.handed, hw.bootUp_of_second h2⟩
      · rw [h.bare hs, second_none] at h2
        exact absurd h2 (by decide)
  refine ⟨⟨hc, fun hs => ?_⟩, h.handed, ?_, fun hs => by simpa using h.bare hs⟩
  · obtain ⟨w, hw⟩ := h.armed hs
    exact ⟨w, hw.ne, hw.valid, by simpa using hw.file, hw.handed, by simp, by simp⟩
  · intro hu w hw
    simp only [State.note_log, State.put_log, bootUp, bootHanded] at hu hw
    simp [hu, hw]

theorem Armed.cpuvHead_eq (h : Armed w s) : cpuvHead (s.files .armed) = w := by
  rw [cpuvHead, h.head_eq, List.filter_eq_self]
  intro ch hch
  have hr : '\r' ∉ w := not_mem_of_valid h.valid (by decide) (by decide) (by decide)
  rw [decide_eq_true_eq]
  rintro rfl
  exact hr hch

theorem Idle.mark_good (h : Idle s) (hw : Armed w s) (hu : bootUp s.log) :
    Idle (s.put .good (some (line w))) := by
  have hc : Core (s.put .good (some (line w))) :=
    h.core.put_good (fun _ _ _ => .inr hw.isSome) fun hd => absurd hd hw.fresh
  refine ⟨h.toRunning.of_put hc nofun, fun hg => ?_, fun hs => ?_⟩
  · have hwr : w = lastRequest s.log := by simpa [head_line (newline_of_valid hw.valid)] using hg
    exact hwr ▸ h.up hu w hw.handed
  · have hsome := hw.isSome
    simp [h.bare hs] at hsome

theorem Idle.rm_trial (h : Idle s) (hw : Armed w s) (hu : bootUp s.log) :
    Idle (s.put .trial none) := by
  refine h.of_put (h.core.put_trial fun _ _ hh => .inl ?_) nofun nofun
  by_cases hwr : w = lastRequest s.log
  · exact hwr ▸ h.up hu w hw.handed
  · exact absurd hh (hw.only hwr)

theorem Idle.mark_up (h : Idle s) (hw : Armed w s) (hu : bootUp s.log)
    (hs : standing s.log) : Idle (s.put .armed (some (line w ++ line up))) := by
  have hn := newline_of_valid hw.valid
  have hc : Core (s.put .armed (some (line w ++ line up))) := by
    refine h.core.arm hw.fresh fun _ => ?_
    rw [head_lines hn]
    exact ⟨hw.ne, fun hwr => hwr ▸ h.up hu w hw.handed⟩
  refine ⟨⟨⟨hc, fun _ => ?_⟩, h.handed, h.up, fun hns => absurd hs hns⟩, by simpa using h.good,
    fun hns => absurd hs hns⟩
  exact ⟨w, hw.ne, hw.valid, .inr ⟨by simp, hu⟩, hw.handed, hw.only, hw.fresh⟩

section

variable (h : Idle s) (hQ : ∀ s', Idle s' → Q () s')
include h hQ

theorem wp_voltageWrite (hv : cpuvValid v) : Steps Q (voltageWrite v) s := by
  have h1 := h.requested hv
  simp only [voltageWrite, wp_bind, wp_act]
  refine ⟨h.cut, fun _ _ => ?_⟩
  generalize hs1 : (s.put .request _).note _ = s1 at h1 ⊢
  have hlast : lastRequest s1.log = v := by rw [← hs1]; rfl
  have hnew : handedSince (lastRequest s1.log) s1.log = false := by rw [← hs1]; rfl
  -- the marks of the value before go, and nothing has been handed over since
  have h2 : Running (s1.put .trial none) :=
    h1.of_put (h1.core.put_trial fun _ _ hh => by simp [hnew] at hh) (by decide)
  refine wp_rm h1.toHeld ?_
  have hnone : head (none : Option Text) ≠ lastRequest s1.log := by
    rw [hlast]
    exact (ne_nil_of_valid hv).symm
  have h3 : Idle ((s1.put .trial none).put .good none) := by
    refine ⟨h2.of_put (h2.core.put_good (fun _ _ hg => absurd hg hnone) fun _ => rfl) (by decide),
      fun hg => absurd (by simpa using hg) hnone, fun _ => by simp⟩
  rw [wp_bind]
  refine wp_rm h2.toHeld ?_
  exact wp_rm h3.toHeld (hQ _ (h3.of_put (h3.core.put_rejected _) (by decide) (by decide)))

theorem wp_voltageSet (value : Text) (checks : Bool) : Steps Q (voltageSet value checks) s := by
  simp only [voltageSet, wp_ite, wp_pure]
  refine ⟨fun _ => hQ _ h, fun hv => ⟨fun _ => ?_, fun _ => ⟨fun _ => ?_, fun _ => hQ _ h⟩⟩⟩
  · exact wp_voltageWrite h hQ cpuvValid_zero
  · exact wp_voltageWrite h hQ (by simpa using hv)

theorem wp_voltageKeepGood (on : Bool) : Steps Q (voltageKeepGood on) s := by
  have hput : ∀ t, Idle (s.put .keepGood t) := fun t =>
    h.of_put (h.core.put_keepGood h.armed_none_of_dropped t) nofun nofun
  simp only [voltageKeepGood, wp_ite]
  refine ⟨fun _ => ?_, fun _ => ?_⟩
  · exact wp_echoTo h.toHeld (fun k => (hput _).toHeld) fun _ => hQ _ (hput _)
  · exact wp_rm h.toHeld (hQ _ (hput _))

theorem wp_voltageMarkGood : Steps Q voltageMarkGood s := by
  simp only [voltageMarkGood, wp_bind, wp_look, wp_ite, wp_pure]
  refine ⟨h.cut, fun _ _ => ⟨fun _ => hQ _ h, fun ha => ⟨h.cut, fun e _ =>
    ⟨fun _ => hQ _ h, fun _ => ⟨h.cut, fun _ _ => ⟨fun _ => hQ _ h, fun hu => ?_⟩⟩⟩⟩⟩⟩
  have hu : bootUp s.log := by simpa using hu
  have hs : standing s.log := by
    by_contra hs
    exact ha (by rw [h.bare hs]; rfl)
  obtain ⟨w, hw⟩ := h.armed hs
  rw [hw.cpuvHead_eq]
  -- `up` below the mark, after the good mark was written or found
  have hrest : ∀ s', Idle s' → Armed w s' → bootUp s'.log → standing s'.log → Steps Q (do
        if ← test fun s => second (s.files .armed) = up then return ()
        else act fun s => s.put .armed (some (line w ++ line up))) s' := by
    intro s' h' hw' hu' hs'
    simp only [Steps, wp_bind, wp_test, wp_ite, wp_pure, wp_act]
    exact ⟨h'.cut, fun _ _ => ⟨fun _ => hQ _ h', fun _ => ⟨h'.cut, fun _ _ =>
      hQ _ (h'.mark_up hw' hu' hs')⟩⟩⟩
  simp only [wp_bind, wp_test, wp_ite]
  refine ⟨h.cut, fun _ _ => ⟨fun _ => ?_, fun _ => ?_⟩⟩
  swap
  · simpa using hrest s h hw hu hs
  have h1 := h.mark_good hw hu
  have hw1 := hw.put (f := .good) (by decide) (some (line w))
  refine wp_echoTo h.toHeld (fun k => h.toHeld.of_put ?_ (by decide)) fun _ => ?_
  · exact h.core.put_good (fun _ _ _ => .inr hw.isSome) fun hd => absurd hd hw.fresh
  rw [wp_bind]
  refine wp_rm h1.toHeld (hrest _ (h1.rm_trial hw1 hu) (hw1.put (f := .trial) (by decide) _) hu hs)

/-- **A command** leaves a running device in order, wherever it is cut off. -/
theorem wp_command (cmd : Command) : Steps Q cmd.prog s := by
  cases cmd with
  | set value checks => exact wp_voltageSet h hQ value checks
  | off => exact wp_voltageWrite h hQ cpuvValid_zero
  | markGood => exact wp_voltageMarkGood h hQ
  | keepGood on => exact wp_voltageKeepGood h hQ on

end

/-- **A shutdown** takes the boot's mark with it. -/
theorem wp_voltageShutdown (h : Idle s) (hQ : ∀ s', Core s' → Q () s') :
    Steps Q voltageShutdown s := by
  simp only [voltageShutdown, wp_bind, wp_test, wp_ite, wp_pure]
  refine ⟨h.cut, fun _ _ => ⟨fun _ => ?_, fun _ => hQ _ h.core⟩⟩
  refine wp_rm h.toHeld (hQ _ (h.core.disarm (fun _ _ => h.good) fun hd => ?_))
  have hnone := h.armed_none_of_dropped hd
  rcases h.core.drop hd with hun | hr
  · simp [hnone] at hun
  · exact hr.2

end Commands

/-! ## The device -/

/-- What holds of a device, on or off. -/
def Good : Device → Prop
  | ⟨true, s⟩ => Idle s
  | ⟨false, s⟩ => Core s

theorem good_after {p : Prog Reply State Unit}
    (h : Steps (fun _ s' => Idle s') p s) : Good (.after (exec p es s)) := by
  cases hr : exec p es s with
  | cut s' => exact (exec_cut_of_wp (fun _ _ => trivial) h hr :)
  | done a s' => exact (exec_done_of_wp (fun _ _ => trivial) h hr :)

theorem good_afterShutdown (h : Idle s) : Good (.afterShutdown (exec voltageShutdown es s)) := by
  have hwp := wp_voltageShutdown (Q := fun _ s' => Core s') h fun _ h' => h'
  cases hr : exec voltageShutdown es s with
  | cut s' => exact (exec_cut_of_wp (fun _ _ => trivial) hwp hr :)
  | done a s' => exact (exec_done_of_wp (fun _ _ => trivial) hwp hr).shutdown

theorem Idle.tenMinutes (h : Idle s) : Idle (s.note .tenMinutes) where
  core := h.core.tenMinutes
  armed hs := by
    obtain ⟨w, hw⟩ := h.armed hs
    exact ⟨w, hw.ne, hw.valid, hw.file.imp_right fun hf => ⟨hf.1, rfl⟩, hw.handed,
      hw.only, hw.fresh⟩
  handed := h.handed
  up _ w hw := by
    have hw : bootHanded w s.log := hw
    simp [hw]
  bare := h.bare
  good hg := by
    have := h.good hg
    simp [this]
  unmarked := h.unmarked

theorem good_step (h : Good d) (a : Action) : Good (d.step a) := by
  obtain ⟨on, s⟩ := d
  cases on with
  | false =>
    cases a with
    | boot es => exact good_after es (wp_cpuVoltageBoot h fun _ h' => h')
    | command | tenMinutes | cut | shutdown => exact h
  | true =>
    cases a with
    | boot => exact h
    | command cmd es => exact good_after es (wp_command h (fun _ h' => h') cmd)
    | tenMinutes => exact .tenMinutes h
    | cut => exact Held.cut h.toHeld
    | shutdown es => exact good_afterShutdown es h

theorem good_run (actions : List Action) : Good (run actions) :=
  have hnew : Good new :=
    ⟨fun _ _ h => by simp at h, cpuvValid_zero, fun _ hz => absurd rfl hz, nofun,
    fun _ hz => absurd rfl hz, nofun, nofun⟩
  List.foldlRecOn actions step hnew fun _ h a _ => good_step h a

theorem Good.core (h : Good d) : Core d.state := by
  obtain ⟨on, s⟩ := d
  cases on with
  | false => exact h
  | true =>
    exact h.core

/-- **The trial protocol.** Whatever is done to a device: every value a boot was handed was
sound, every boot that came up was handed one, and behind a dropped offset the request is
`0,0,0` from the next handed value on, until another one is made. -/
theorem voltage_trial_protocol (actions : List Action) :
    Honest (run actions).state.log ∧
    ((run actions).on → ∃ v, bootHanded v (run actions).state.log) ∧
        (dropped (run actions).state.log → (run actions).on ∨ ¬ unsettled (run actions).state.log →
            (run actions).state.files .request = some (line zero)) := by
  have h := good_run actions
  generalize run actions = d at h ⊢
  refine ⟨h.core.honest, fun hon => ?_, fun hd hsettled => ?_⟩
  · obtain ⟨on, s⟩ := d
    obtain rfl : on := hon
    exact h.handed
  · rcases h.core.drop hd with ⟨hun, hsome, -⟩ | hr
    · obtain ⟨on, s⟩ := d
      obtain rfl : on := hsettled.resolve_right (not_not.2 hun)
      have hnone := h.armed_none_of_dropped hd
      simp [hnone] at hsome
    · exact hr.2

def sampleOffset : Text := "-3125,0,0"

/-- Enough answers of a kernel that does `k` with an offset. -/
def answers (k : Kernel) : List Reply := List.replicate 30 ⟨20, k, true, sampleOffset⟩

/-- The offset is asked for a second time in its trial boot, which has its ten minutes then;
two more boots follow, both shut down early. -/
def askedAgain : List Action :=
  let es := answers .applied
  let ask := Action.command (.set sampleOffset true) es
  [.boot es, ask, .shutdown es, .boot es, ask, .tenMinutes, .command .markGood es, .shutdown es,
    .boot es, .shutdown es, .boot es]

/-- The kernel refuses the offset; the next one is asked for in the same boot, and the power
goes. -/
def askedAfterRefusal : List Action :=
  let ask := fun es => Action.command (.set sampleOffset true) es
  [.boot (answers .applied), ask (answers .applied), .shutdown (answers .applied),
    .boot (answers .refused), ask (answers .applied), .cut, .boot (answers .applied)]

set_option maxRecDepth 100000 in
/-- An offset is handed over though no boot that started since it was asked for had ten
minutes; and right behind a boot that was handed one and was cut off. -/
theorem offset_without_own_ten_minutes :
    (∃ l, (run askedAgain).state.log = .handed sampleOffset :: l ∧ sampleOffset ≠ zero ∧
      handedSince sampleOffset l ∧ ¬ upSince sampleOffset l) ∧
    ∃ l, (run askedAfterRefusal).state.log =
      .handed sampleOffset :: .booted :: .cut false :: l ∧ bootHanded sampleOffset l := by
  refine ⟨⟨(run askedAgain).state.log.drop 1, ?_⟩, ⟨(run askedAfterRefusal).state.log.drop 3, ?_⟩⟩
  · decide +kernel
  · decide +kernel

end Mu300.CpuVoltage
