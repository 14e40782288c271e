import Mu300.CpuVoltage.Model

/-!
# What the marks say about the history

The lemmas are one for each thing that can change: a file, or the history.
-/

namespace Mu300.CpuVoltage

open Shell List

/-! ## Texts -/

variable {t u : Text} (s : State)

theorem not_mem_of_valid (h : cpuvValid t) {ch : Char} (hd : ch.isDigit = false)
    (hc : ch ≠ ',') (hm : ch ≠ '-') : ch ∉ t := by
  intro hmem
  simp only [cpuvValid, Bool.and_eq_true, all_eq_true] at h
  have := h.1.1.2 ch hmem
  simp [hd, hc, hm] at this

theorem newline_of_valid (h : cpuvValid t) : '\n' ∉ t :=
  not_mem_of_valid h (by decide) (by decide) (by decide)

theorem ne_nil_of_valid (h : cpuvValid t) : t ≠ [] := by
  rintro rfl
  simp [cpuvValid] at h

theorem cpuvValid_zero : cpuvValid zero := by decide

@[simp] theorem head_none : head none = [] := rfl

@[simp] theorem second_none : second none = [] := rfl

section

variable (h : '\n' ∉ t)

include h

theorem takeWhile_line : (t ++ '\n' :: u).takeWhile (· ≠ '\n') = t := by
  have hall : ∀ ch ∈ t, ch ≠ '\n' := fun ch hch he => h (he ▸ hch)
  rw [takeWhile_append_of_pos (by simpa using hall)]
  simp

theorem head_line : head (some (line t)) = t := takeWhile_line h

theorem head_lines : head (some (line t ++ u)) = t := by
  simpa [head, line] using takeWhile_line (u := u) h

theorem second_take (k : ℕ) : second (some ((line t).take k)) = [] := by
  have hall : ∀ ch ∈ t, ch ≠ '\n' := fun ch hch he => h (he ▸ hch)
  rw [second, Option.getD_some, line, take_append,
    dropWhile_append_of_pos (by simpa using fun ch hch => hall ch (mem_of_mem_take hch))]
  rcases hk : k - t.length with _ | n
  · simp
  · simp

theorem second_line : second (some (line t)) = [] := by
  have := second_take h (line t).length
  rwa [take_length] at this

end

theorem head_zero_take (k : ℕ) (h : cpuvValid (head (some ((line zero).take k)))) :
    head (some ((line zero).take k)) = zero := by
  have hparts : ∀ k < 7, cpuvValid (head (some ((line zero).take k))) →
      head (some ((line zero).take k)) = zero := by decide
  by_cases hk : k < 7
  · exact hparts k hk h
  · rw [take_of_length_le (by simp [line, zero]; omega),
      head_line (newline_of_valid cpuvValid_zero)]

@[simp] theorem req_put {f : File} (h : f ≠ .request) (t : Option Text) :
    req (s.put f t) = req s := by
  simp [req, h.symm]

theorem req_of_line {s : State} {v : Text} (hv : cpuvValid v)
    (h : s.files .request = some (line v)) : req s = v := by
  simp [req, h, head_line (newline_of_valid hv), ne_nil_of_valid hv]

/-! ## The property -/

/-- The value `v`, handed over after the history `l`: an offset is valid, was asked for last,
and has its first boot or stood its ten minutes; behind a dropped offset it is `0,0,0`. -/
structure Sound (v : Text) (l : Log) : Prop where
  offset : v ≠ zero → cpuvValid v ∧ lastRequest l = v ∧ (¬ handedSince v l ∨ upWith v l)
  stock : dropped l → v = zero

/-- Every value that was handed over was sound. -/
def Honest (log : Log) : Prop := ∀ v l, .handed v :: l <:+ log → Sound v l

theorem Honest.cons {e : Event} {log : Log} (h : Honest log)
    (he : ∀ v, e = .handed v → Sound v log) : Honest (e :: log) := by
  intro v l hs
  rcases suffix_cons_iff.1 hs with heq | hs
  · cases heq
    exact he v rfl
  · exact h v l hs

/-! ## At any time -/

/-- What the files say about the history, in any state a cut can leave. -/
structure Core (s : State) : Prop where
  honest : Honest s.log
  last : cpuvValid (lastRequest s.log)
  request : cpuvValid (req s) → req s ≠ zero → req s = lastRequest s.log
  /-- the trial mark stands for the boot the request has had -/
  trial : req s = lastRequest s.log → lastRequest s.log ≠ zero →
    handedSince (lastRequest s.log) s.log → upWith (lastRequest s.log) s.log ∨
      head (s.files .trial) = lastRequest s.log
  /-- the good mark stands for ten minutes, or the boot that wrote it is not over -/
  good : req s = lastRequest s.log → lastRequest s.log ≠ zero → head (s.files .good) =
    lastRequest s.log →
      upWith (lastRequest s.log) s.log ∨ (s.files .armed).isSome
  armed : second (s.files .armed) = up → head (s.files .armed) ≠ zero ∧
    (head (s.files .armed) = lastRequest s.log → upWith (lastRequest s.log) s.log)
  /-- a dropped offset is in the armed mark, or its request is gone -/
  drop : dropped s.log → unsettled s.log ∧ (s.files .armed).isSome ∧ ¬ keeps s ∨
    s.files .armed = none ∧ s.files .request = some (line zero)

namespace Core

variable {s : State}

section

variable (h : Core s) {v : Text}

include h

theorem note {e : Event} (hr : lastRequest (e :: s.log) = lastRequest s.log)
    (hw : ∀ v, e ≠ .handed v)
    (hh : ∀ w, handedSince w (e :: s.log) = handedSince w s.log)
    (hu : ∀ w, upWith w s.log → upWith w (e :: s.log))
    (hd : dropped (e :: s.log) → dropped s.log) (hn : unsettled s.log → unsettled (e :: s.log)) :
    Core (s.note e) where
  honest := h.honest.cons fun v hv => absurd hv (hw v)
  last := by rw [State.note_log, hr]; exact h.last
  request := by rw [State.note_log, hr]; exact h.request
  trial := by
    rw [State.note_log, hr, hh]
    intro hq hz hs
    exact (h.trial hq hz hs).imp_left (hu _)
  good := by
    rw [State.note_log, hr]
    intro hq hz hg
    exact (h.good hq hz hg).imp_left (hu _)
  armed := by
    rw [State.note_log, hr]
    intro ha
    exact ⟨(h.armed ha).1, fun he => hu _ ((h.armed ha).2 he)⟩
  drop := by
    intro hdr
    exact (h.drop (hd hdr)).imp_left (.imp_left hn)

theorem booted : Core (s.note .booted) :=
  h.note rfl nofun (fun _ => rfl) (fun _ => id) id id

theorem shutdown : Core (s.note .shutdown) :=
  h.note rfl nofun (fun _ => rfl) (fun _ => id) id id

theorem tenMinutes : Core (s.note .tenMinutes) :=
  h.note rfl nofun (fun _ => rfl) (fun _ hu => by simp [hu]) id id

theorem cut (hs : standing s.log = false) : Core s.cut :=
  h.note rfl nofun (fun _ => rfl) (fun _ => id) (by simp [hs]) fun hn => by simp [hn]

theorem put_rejected (t : Option Text) : Core (s.put .rejected t) := by
  refine ⟨h.honest, h.last, ?_, ?_, ?_, ?_, ?_⟩
  · simpa using h.request
  · simpa using h.trial
  · simpa using h.good
  · simpa using h.armed
  · simpa [keeps] using h.drop

theorem put_keepGood (hd : dropped s.log → s.files .armed = none) (t : Option Text) :
    Core (s.put .keepGood t) := by
  refine ⟨h.honest, h.last, ?_, ?_, ?_, ?_, ?_⟩
  · simpa using h.request
  · simpa using h.trial
  · simpa using h.good
  · simpa using h.armed
  · intro hdr
    have ha := hd hdr
    rcases h.drop hdr with ⟨-, hsome, -⟩ | hr
    · simp [ha] at hsome
    · exact .inr (by simpa using hr)

theorem put_trial {t : Option Text} (ht : req s = lastRequest s.log → lastRequest s.log ≠ zero →
      handedSince (lastRequest s.log) s.log → upWith (lastRequest s.log) s.log ∨
        head t = lastRequest s.log) : Core (s.put .trial t) := by
  refine ⟨h.honest, h.last, ?_, ?_, ?_, ?_, ?_⟩
  · simpa using h.request
  · simpa using ht
  · simpa using h.good
  · simpa using h.armed
  · simpa [keeps] using h.drop

theorem put_good {t : Option Text}
    (hg : req s = lastRequest s.log → lastRequest s.log ≠ zero → head t = lastRequest s.log →
      upWith (lastRequest s.log) s.log ∨ (s.files .armed).isSome)
    (hd : dropped s.log → t = none) : Core (s.put .good t) := by
  refine ⟨h.honest, h.last, ?_, ?_, ?_, ?_, ?_⟩
  · simpa using h.request
  · simpa using h.trial
  · simpa using hg
  · simpa using h.armed
  · intro hdr
    obtain rfl := hd hdr
    refine (h.drop hdr).imp (fun hu => ⟨hu.1, by simpa using hu.2.1, ?_⟩) (by simp)
    -- an empty good mark is no valid request
    rintro ⟨-, -, -, -, he, hv⟩
    exact ne_nil_of_valid hv (by simpa using he.symm)

theorem disarm (hg : req s = lastRequest s.log → lastRequest s.log ≠ zero →
      head (s.files .good) = lastRequest s.log → upWith (lastRequest s.log) s.log)
    (hd : dropped s.log → s.files .request = some (line zero)) : Core (s.put .armed none) := by
  refine ⟨h.honest, h.last, ?_, ?_, ?_, ?_, ?_⟩
  · simpa using h.request
  · simpa using h.trial
  · simpa using hg
  · simp [up]
  · intro hdr
    exact .inr ⟨by simp, by simpa using hd hdr⟩

theorem arm (hd : ¬ dropped s.log) (ht : second (some t) = up → head (some t) ≠ zero ∧
      (head (some t) = lastRequest s.log → upWith (lastRequest s.log) s.log)) :
      Core (s.put .armed (some t)) := by
  refine ⟨h.honest, h.last, ?_, ?_, ?_, ?_, fun hdr => absurd hdr hd⟩
  · simpa using h.request
  · simpa using h.trial
  · simp
  · simpa using ht

theorem clear {t : Option Text} (ha : dropped s.log → (s.files .armed).isSome)
    (ht : cpuvValid (req (s.put .request t)) → req (s.put .request t) = zero) :
    Core (s.put .request t) := by
  -- what is left of it is not the value last asked for, unless that is `0,0,0`
  have hne : req (s.put .request t) = lastRequest s.log → lastRequest s.log ≠ zero → False := by
    intro hq hz
    exact hz (hq ▸ ht (hq ▸ h.last))
  refine ⟨h.honest, h.last, ?_, ?_, ?_, ?_, ?_⟩
  · intro hv hz
    exact absurd (ht hv) hz
  · intro hq hz
    exact (hne hq hz).elim
  · intro hq hz
    exact (hne hq hz).elim
  · simpa using h.armed
  · intro hdr
    refine .inl ?_
    rcases h.drop hdr with hu | hr
    · refine ⟨hu.1, by simpa using hu.2.1, ?_⟩
      rintro ⟨-, -, h2, he, -, hv⟩
      exact (h.armed h2).1 (he.trans (ht hv))
    · have := ha hdr
      simp [hr.1] at this

theorem rejected (ha : s.files .armed = none) (hr : s.files .request = some (line zero)) :
    Core (s.note .rejected) := by
  refine ⟨h.honest.cons nofun, h.last, h.request, h.trial, h.good, h.armed, ?_⟩
  intro _
  exact .inr ⟨ha, hr⟩

theorem handed (hv : Sound v s.log) (ht : v ≠ zero → upWith v s.log ∨ head (s.files .trial) = v)
    (ha : v = zero → s.files .armed = none) : Core (s.note (.handed v)) := by
  refine ⟨h.honest.cons fun w hw => ?_, h.last, h.request, ?_, h.good, h.armed, ?_⟩
  · cases hw
    exact hv
  · intro hq hz hs
    by_cases hvr : v = lastRequest s.log
    · subst hvr
      exact ht hz
    · refine h.trial hq hz ?_
      simpa [hvr] using hs
  · intro hdr
    have hnone := ha (hv.stock hdr)
    rcases h.drop hdr with hu | hr
    · simp [hnone] at hu
    · exact .inr hr

theorem requested (hv : cpuvValid v) (hg : head (s.files .good) = v → (s.files .armed).isSome)
    (ha : second (s.files .armed) = up → head (s.files .armed) ≠ zero ∧
      (head (s.files .armed) = v → bootHanded v s.log ∧ bootUp s.log)) :
    Core ((s.put .request (some (line v))).note (.requested v)) := by
  have hq : req (s.put .request (some (line v))) = v := req_of_line hv (by simp)
  refine ⟨h.honest.cons nofun, hv, ?_, ?_, ?_, ?_, ?_⟩
  · intro _ _
    exact hq
  · intro _ _ hs
    simp at hs
  · intro _ _ he
    exact .inr (by simpa using hg (by simpa using he))
  · simpa using ha
  · intro hdr
    simp at hdr

end

end Core

/-! ## While the device runs -/

/-- The mark of the running boot: the value it was handed, and `up` when it was. -/
structure Armed (w : Text) (s : State) : Prop where
  ne : w ≠ zero
  valid : cpuvValid w
  file : s.files .armed = some (line w) ∨ s.files .armed = some (line w ++ line up) ∧ bootUp s.log
  handed : bootHanded w s.log
  only : w ≠ lastRequest s.log → ¬ handedSince (lastRequest s.log) s.log
  fresh : ¬ dropped s.log

namespace Armed

variable {w : Text} {s : State}

theorem isSome (h : Armed w s) : (s.files .armed).isSome := by
  rcases h.file with he | ⟨he, -⟩
  · simp [he]
  · simp [he]

theorem head_eq (h : Armed w s) : head (s.files .armed) = w := by
  rcases h.file with he | ⟨he, -⟩
  · rw [he, head_line (newline_of_valid h.valid)]
  · rw [he, head_lines (newline_of_valid h.valid)]

theorem bootUp_of_second (h : Armed w s) (h2 : second (s.files .armed) = up) : bootUp s.log := by
  rcases h.file with he | ⟨-, hu⟩
  · rw [he, second_line (newline_of_valid h.valid)] at h2
    exact absurd h2 (by decide)
  · exact hu

theorem put (h : Armed w s) {f : File} (hf : f ≠ .armed) (t : Option Text) : Armed w (s.put f t) :=
  ⟨h.ne, h.valid, by simpa [hf.symm] using h.file, h.handed, h.only, h.fresh⟩

end Armed

/-- What holds at every step of a program. -/
structure Held (s : State) : Prop where
  core : Core s
  armed : standing s.log → ∃ w, Armed w s

namespace Held

variable {s : State}

/-- **A power cut** at any step leaves files that tell the history. -/
theorem cut (h : Held s) : Core s.cut := by
  by_cases hs : standing s.log
  · obtain ⟨w, hw⟩ := h.armed hs
    -- the offset is dropped unless keep-good keeps it, and the boot will see the same
    refine ⟨h.core.honest.cons nofun, h.core.last, h.core.request, h.core.trial, h.core.good,
      h.core.armed, fun hdr => ?_⟩
    have hk : kept s = false := by simpa [State.cut, hs, hw.fresh] using hdr
    refine .inl ⟨by simp [State.cut, hs, hk], hw.isSome, ?_⟩
    rintro ⟨-, hkeep, h2, he, hgood, hv⟩
    have hwq : w = req s := hw.head_eq.symm.trans he
    have hlast : req s = lastRequest s.log := h.core.request hv (hwq ▸ hw.ne)
    have : kept s := by
      simp only [kept, Bool.and_eq_true, decide_eq_true_eq]
      refine ⟨⟨⟨hkeep, hw.bootUp_of_second h2⟩, ?_⟩, hlast ▸ hgood⟩
      rw [← hlast, ← hwq]
      exact hw.handed
    simp [hk] at this
  · exact h.core.cut (by simpa using hs)

theorem of_put (h : Held s) {f : File} {t : Option Text} (hc : Core (s.put f t)) (hf : f ≠ .armed) :
    Held (s.put f t) :=
  ⟨hc, fun hs => (h.armed hs).imp fun _ hw => hw.put hf t⟩

end Held

/-- What holds once a value was handed over. -/
structure Running (s : State) : Prop extends Held s where
  handed : ∃ v, bootHanded v s.log
  up : bootUp s.log → ∀ w, bootHanded w s.log → upWith w s.log
  bare : ¬ standing s.log → s.files .armed = none

/-- What holds between commands: the good mark stands for ten minutes. -/
structure Idle (s : State) : Prop extends Running s where
  good : head (s.files .good) = lastRequest s.log → upWith (lastRequest s.log) s.log
  unmarked : ¬ standing s.log → s.files .good = none

end Mu300.CpuVoltage
