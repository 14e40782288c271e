import Mathlib.Data.Int.Notation
import Mathlib.Order.Basic

/-!
# The charge guard

`guard` of `mu300-power`: it looks at the battery and switches charging off and on again through
the charger's `charge_type`.
-/

namespace Mu300.Power

open Bool

/-- `charge_type`: `N/A` is off, `Fast` is on. -/
inductive Charge : Type where
  | na
  | fast
  deriving DecidableEq

inductive Why : Type where
  | temp
  | manual
  | limit
  deriving DecidableEq

/-- What a run reads of the battery; a reading that is no number is none. -/
structure Reading where
  /-- tenths of a degree -/
  temp : Option ℤ
  capacity : Option ℕ
  /-- the status is `Full` -/
  full : Bool

/-- `CHARGE_TO`, `RESUME_AT`, `CHARGE_PAUSE` and `FULL_ONCE`. -/
structure Settings where
  chargeTo : ℕ
  resumeAt : ℕ
  chargePause : Bool
  fullOnce : Bool

/-- What a run did about charging. -/
inductive Act : Type where
  /-- it put charging off, or kept it off -/
  | stop (why : Why)
  /-- it ended a stop -/
  | resume
  | nothing
  deriving DecidableEq

/-- One run in the history: what it wrote into the switch, and what it did. -/
structure Run where
  wrote : Option Charge
  act : Act
  deriving DecidableEq

/-- What the guard works on, and the runs so far, the last one first. -/
structure State where
  switch : Charge
  /-- `$ST/charge-off` -/
  chargeOff : Option Why
  /-- `$ST/charge-limit`: the limit that switched it off -/
  chargeLimit : Option ℕ
  conf : Settings
  log : List Run

/-! ## Reasons -/

/-- `_glact`: the limit is in force. -/
def Settings.limitActive (c : Settings) : Bool :=
  (c.chargeTo ≠ 100 || c.resumeAt ≠ 0) && !c.fullOnce

/-- `_glow`: the capacity under which charging goes on again. -/
def Settings.low (c : Settings) : ℤ :=
  if c.resumeAt = 0 ∨ c.chargeTo ≤ c.resumeAt then c.chargeTo - 5 else c.resumeAt

/-- Off above 45.0 or below 0; once off for it, on under 40.0 and over 3.0. -/
def tempReason (off : Option Why) (temp : Option ℤ) : Bool :=
  temp.any fun t => 450 < t || t < 0 || (off = some .temp && (400 ≤ t || t ≤ 30))

/-- The charge limit: at `N`, and then until `low`, unless the limit changed. -/
def limitReason (c : Settings) (off : Option Why) (gfrom : Option ℕ) (capacity : Option ℕ) : Bool :=
  c.chargeTo = 0 || capacity.any fun cap => c.chargeTo ≤ cap ||
    (off = some .limit && (gfrom = none || gfrom = some c.chargeTo) && c.low ≤ cap)

/-- A pause by hand, else the limit. -/
def ownersReason (s : State) (r : Reading) : Option Why :=
  if s.conf.chargePause then some .manual
  else if s.conf.limitActive && limitReason s.conf s.chargeOff s.chargeLimit r.capacity then
    some .limit
  else none

/-- `_gwant` and `_gwhy`: the temperature has the last word, and the others are not held under
5 %. -/
def reason (s : State) (r : Reading) : Option Why :=
  if tempReason s.chargeOff r.temp then some .temp
  else if r.capacity.any (· < 5) then none
  else ownersReason s r

/-! ## The program -/

def State.note (s : State) (wrote : Option Charge) (act : Act) : State :=
  { s with log := ⟨wrote, act⟩ :: s.log }

/-- `set_charging off WHY`. -/
def setChargingOff (why : Why) (s : State) : State :=
  { s.note (if s.switch = .na then none else some .na) (.stop why) with
    switch := .na
    chargeOff := some why }

/-- `set_charging on`: nothing unless the guard switched it off. -/
def setChargingOn (s : State) : State :=
  match s.chargeOff with
  | none => s.note none .nothing
  | some _ =>
    { s.note (if s.switch = .na then some .fast else none) .resume with
      switch := .fast
      chargeOff := none }

/-- `FULL_ONCE` ends with a full battery. -/
def fullOnceDone (r : Reading) (s : State) : State :=
  if s.conf.fullOnce && r.capacity = some 100 && r.full then
    { s with conf := { s.conf with fullOnce := false } }
  else s

/-- Off for a reason whose reading is gone: the run ends here. -/
def readingLost (s : State) (r : Reading) : Bool :=
  match s.chargeOff with
  | some .temp => r.temp = none
  | some .limit => r.capacity = none && s.conf.limitActive
  | _ => false

/-- What a run does once `FULL_ONCE` is settled. -/
def guardSettled (r : Reading) (s : State) : State :=
  if readingLost s r then s.note none .nothing
  else match reason s r with
    | some why =>
      { setChargingOff why s with
        chargeLimit := if why = .limit then some s.conf.chargeTo else none }
    | none => { setChargingOn s with chargeLimit := none }

/-- `guard`, with a battery and a charge switch. -/
def guard (r : Reading) (s : State) : State := guardSettled r (fullOnceDone r s)

/-- What can happen next. -/
inductive Event : Type where
  /-- the owner changes the settings -/
  | settings (c : Settings)
  | run (r : Reading)

def State.step (s : State) : Event → State
  | .settings c => { s with conf := c }
  | .run r => guard r s

def State.runs (s : State) (es : List Event) : State := es.foldl State.step s

/-- After a boot: no marker, and whatever the driver has in the switch. -/
def start (switch : Charge) (c : Settings) : State := ⟨switch, none, none, c, []⟩

/-! ## The history -/

/-- The stop that is in force: the last one begun and not ended. -/
def inForce : List Run → Option Why
  | [] => none
  | run :: before =>
    match run.act with
    | .stop why => some why
    | .resume => none
    | .nothing => inForce before

/-- `Fast` was written only by runs that found a stop of an earlier run in force. -/
def FastEndsStop : List Run → Prop
  | [] => True
  | run :: before => (run.wrote = some .fast → inForce before ≠ none) ∧ FastEndsStop before

/-- The marker is what the history says, and charging is off while there is one. -/
structure State.Tied (s : State) : Prop where
  marker : inForce s.log = s.chargeOff
  off : s.chargeOff ≠ none → s.switch = .na
  fast : FastEndsStop s.log

section

variable {s : State} {r : Reading} {why : Why} (wrote : Option Charge)

@[simp] theorem inForce_nothing (log : List Run) :
    inForce (⟨wrote, .nothing⟩ :: log) = inForce log := rfl

@[simp] theorem inForce_stop (log : List Run) :
    inForce (⟨wrote, .stop why⟩ :: log) = some why := rfl

@[simp] theorem inForce_resume (log : List Run) :
    inForce (⟨wrote, .resume⟩ :: log) = none := rfl

namespace State.Tied

section

variable (h : s.Tied)

include h

theorem note_nothing : (s.note none .nothing).Tied :=
  ⟨h.marker, h.off, nofun, h.fast⟩

theorem setChargingOff (why : Why) : (setChargingOff why s).Tied := by
  refine ⟨rfl, fun _ => rfl, ?_, h.fast⟩
  intro hw
  by_cases hs : s.switch = .na
  · simp [hs] at hw
  · simp [hs] at hw

theorem setChargingOn : (setChargingOn s).Tied := by
  rcases ho : s.chargeOff with _ | why
  · rw [Power.setChargingOn, ho]
    exact h.note_nothing
  · rw [Power.setChargingOn, ho]
    refine ⟨rfl, fun hne => absurd rfl hne, fun _ => ?_, h.fast⟩
    rw [h.marker, ho]
    exact nofun

theorem with_limit (n : Option ℕ) : State.Tied { s with chargeLimit := n } :=
  ⟨h.marker, h.off, h.fast⟩

theorem with_conf (c : Settings) : State.Tied { s with conf := c } :=
  ⟨h.marker, h.off, h.fast⟩

theorem fullOnceDone (r : Reading) : (fullOnceDone r s).Tied := by
  rw [Power.fullOnceDone]
  split
  · exact h.with_conf _
  · exact h

theorem guardSettled (r : Reading) : (guardSettled r s).Tied := by
  rw [Power.guardSettled]
  split
  · exact h.note_nothing
  · split
    · exact (h.setChargingOff _).with_limit _
    · exact h.setChargingOn.with_limit _

theorem guard (r : Reading) : (guard r s).Tied := (h.fullOnceDone r).guardSettled r

theorem step (e : Event) : (s.step e).Tied := by
  cases e with
  | settings c => exact h.with_conf c
  | run r => exact h.guard r

theorem runs (es : List Event) : (s.runs es).Tied :=
  List.foldlRecOn es State.step h fun _ ht e _ => ht.step e

theorem switch_of_inForce (hw : inForce s.log = some why) : s.switch = .na := by
  refine h.off ?_
  rw [← h.marker, hw]
  exact nofun

end

end State.Tied

end

/-! ## What one run does -/

section

variable {s : State} {r : Reading} {off : Option Why} {t : ℤ}

@[simp] theorem fullOnceDone_chargeOff (r : Reading) (s : State) :
    (fullOnceDone r s).chargeOff = s.chargeOff := by
  rw [fullOnceDone]
  split <;> rfl

@[simp] theorem fullOnceDone_log (r : Reading) (s : State) : (fullOnceDone r s).log = s.log := by
  rw [fullOnceDone]
  split <;> rfl

/-- A reason to hold charging off for the temperature, as the owner would say it: the reading is out
of range, or it is off for the temperature and the reading is not well in range, or there is
none. -/
def HasTempReason (off : Option Why) (temp : Option ℤ) : Prop :=
  (∃ t, temp = some t ∧ (450 < t ∨ t < 0)) ∨
    (off = some .temp ∧ ¬ ∃ t, temp = some t ∧ 30 < t ∧ t < 400)

theorem guardSettled_lost (h : readingLost s r) : guardSettled r s = s.note none .nothing := by
  rw [guardSettled, if_pos h]

theorem guardSettled_of_reason {why : Why} (hl : readingLost s r = false)
    (hr : reason s r = some why) : inForce (guardSettled r s).log = some why := by
  simp [guardSettled, hl, hr, setChargingOff, State.note]

theorem guardSettled_of_none (h : s.Tied) (hl : readingLost s r = false) (hr : reason s r = none) :
    inForce (guardSettled r s).log = none := by
  have ht := h.guardSettled r
  rw [ht.marker]
  rcases ho : s.chargeOff with _ | why
  · simp [guardSettled, hl, hr, setChargingOn, ho, State.note]
  · simp [guardSettled, hl, hr, setChargingOn, ho]

theorem tempReason_of_has (h : HasTempReason off (some t)) : tempReason off (some t) := by
  simp only [tempReason, Option.any_some, or_eq_true, and_eq_true, decide_eq_true_eq]
  rcases h with ⟨u, hu, hout⟩ | ⟨hoff, hnot⟩
  · cases hu
    exact .inl hout
  · rcases Int.lt_or_le 30 t with hlow | hlow
    · rcases Int.lt_or_le t 400 with hhigh | hhigh
      · exact absurd ⟨t, rfl, hlow, hhigh⟩ hnot
      · exact .inr ⟨hoff, .inl hhigh⟩
    · exact .inr ⟨hoff, .inr hlow⟩

theorem has_of_tempReason {temp : Option ℤ} (h : tempReason off temp) : HasTempReason off temp := by
  rcases temp with _ | t
  · simp [tempReason] at h
  · simp only [tempReason, Option.any_some, or_eq_true, and_eq_true, decide_eq_true_eq] at h
    rcases h with hout | ⟨hoff, hedge⟩
    · exact .inl ⟨t, rfl, hout⟩
    · refine .inr ⟨hoff, ?_⟩
      rintro ⟨u, hu, hlow, hhigh⟩
      cases hu
      omega

/-- Off for the temperature, and nothing read that is well in range: still off for it. -/
theorem guardSettled_stays_temp (h : s.Tied) (hoff : inForce s.log = some .temp)
    (hr : ¬ ∃ t, r.temp = some t ∧ 30 < t ∧ t < 400) :
    inForce (guardSettled r s).log = some .temp := by
  have hmark : s.chargeOff = some .temp := h.marker.symm.trans hoff
  rcases ht : r.temp with _ | t
  · rw [guardSettled_lost]
    · exact hoff
    · simp [readingLost, hmark, ht]
  · have hhas : HasTempReason s.chargeOff (some t) := .inr ⟨hmark, ht ▸ hr⟩
    refine guardSettled_of_reason ?_ ?_
    · simp [readingLost, hmark, ht]
    · rw [reason, ht, if_pos (tempReason_of_has hhas)]

theorem guardSettled_stays_limit (h : s.Tied) (hoff : inForce s.log = some .limit)
    (hlim : s.conf.limitActive) (hr : r.capacity = none) :
    inForce (guardSettled r s).log = some .limit := by
  have hmark : s.chargeOff = some .limit := h.marker.symm.trans hoff
  rw [guardSettled_lost]
  · exact hoff
  · simp [readingLost, hmark, hr, hlim]

/-- A temperature out of range: charging is off after the run, for it or for what held it before. -/
theorem guardSettled_out_of_range (h : s.Tied) (ht : r.temp = some t)
    (hout : 450 < t ∨ t < 0) : (guardSettled r s).switch = .na := by
  by_cases hl : readingLost s r
  · rw [guardSettled_lost hl]
    refine h.off fun hnone => ?_
    simp [readingLost, hnone] at hl
  · have htemp : tempReason s.chargeOff r.temp := by
      rw [ht]
      exact tempReason_of_has (.inl ⟨t, rfl, hout⟩)
    have hr : reason s r = some .temp := by rw [reason, if_pos htemp]
    exact (h.guardSettled r).switch_of_inForce
      (guardSettled_of_reason (eq_false_iff.2 hl) hr)

/-- A nearly empty battery, and no reason to hold for the temperature: no stop is left. -/
theorem guardSettled_low (h : s.Tied) {cap : ℕ} (hc : r.capacity = some cap) (hlow : cap < 5)
    (hno : ¬ HasTempReason s.chargeOff r.temp) : inForce (guardSettled r s).log = none := by
  refine guardSettled_of_none h ?_ ?_
  · rcases ho : s.chargeOff with _ | why
    · simp [readingLost, ho]
    · cases why with
      | temp =>
        have hsome : r.temp ≠ none := by
          intro hnone
          refine hno (.inr ⟨ho, ?_⟩)
          rintro ⟨t, ht, _⟩
          rw [hnone] at ht
          cases ht
        simp [readingLost, ho, hsome]
      | manual => simp [readingLost, ho]
      | limit => simp [readingLost, ho, hc]
  · have htemp : tempReason s.chargeOff r.temp = false :=
        eq_false_iff.2 fun ht => hno (has_of_tempReason ht)
    simp [reason, htemp, hc, hlow]

end

/-- Charging that is off for the temperature stays off until a run reads one well in range. -/
theorem runs_stays_temp {s : State} (h : s.Tied) (hoff : inForce s.log = some .temp)
    (es : List Event) (hes : ∀ r, Event.run r ∈ es → ¬ ∃ t, r.temp = some t ∧ 30 < t ∧ t < 400) :
    inForce (s.runs es).log = some .temp := by
  induction es generalizing s with
  | nil => exact hoff
  | cons e es ih =>
    refine ih (h.step e) ?_ fun r hr => hes r (List.mem_cons_of_mem _ hr)
    cases e with
    | settings c => exact hoff
    | run r =>
      refine guardSettled_stays_temp (h.fullOnceDone r) ?_ (hes r List.mem_cons_self)
      rw [fullOnceDone_log]
      exact hoff

/-- **The charge guard is safe**, in every run of readings and settings. A reading out of range
leaves charging off; off for the temperature it stays off until a reading well in range; under 5 %
and with no reason in the temperature no stop of the guard is in force; a reading that is lost while
charging is off for it keeps it off; and `Fast` is written only to end a stop of an earlier run. -/
theorem charge_guard_safe (switch : Charge) (c : Settings) (es : List Event) :
    let s := (start switch c).runs es
    (∀ r t, r.temp = some t → 450 < t ∨ t < 0 → (guard r s).switch = .na) ∧
    (inForce s.log = some .temp → ∀ more : List Event,
      (∀ r, .run r ∈ more → ¬ ∃ t, r.temp = some t ∧ 30 < t ∧ t < 400) →
        (s.runs more).switch = .na) ∧
    (∀ r cap, r.capacity = some cap → cap < 5 → ¬ HasTempReason (inForce s.log) r.temp →
      inForce (guard r s).log = none) ∧
    (∀ r, r.temp = none → inForce s.log = some .temp → (guard r s).switch = .na) ∧
    (∀ r, r.capacity = none → inForce s.log = some .limit → s.conf.limitActive →
      (guard r s).switch = .na) ∧
    FastEndsStop s.log := by
  intro s
  have h : s.Tied := State.Tied.runs (s := start switch c) ⟨rfl, fun h => absurd rfl h, trivial⟩ es
  refine ⟨?_, ?_, ?_, ?_, ?_, h.fast⟩
  · intro r t ht hout
    exact guardSettled_out_of_range (h.fullOnceDone r) ht hout
  · intro hoff more hmore
    exact (h.runs more).switch_of_inForce (runs_stays_temp h hoff more hmore)
  · intro r cap hc hlow hno
    refine guardSettled_low (h.fullOnceDone r) hc hlow ?_
    rw [fullOnceDone_chargeOff, ← h.marker]
    exact hno
  · intro r ht hoff
    refine (h.guard r).switch_of_inForce (guardSettled_stays_temp (h.fullOnceDone r) ?_ ?_)
    · rw [fullOnceDone_log]
      exact hoff
    · rintro ⟨t, hsome, _⟩
      rw [ht] at hsome
      cases hsome
  · intro r hc hoff hlim
    -- without a capacity `FULL_ONCE` is not settled
    have hsame : fullOnceDone r s = s := by simp [fullOnceDone, hc]
    have hstop : inForce (guard r s).log = some .limit := by
      rw [guard, hsame]
      exact guardSettled_stays_limit h hoff hlim hc
    exact (h.guard r).switch_of_inForce hstop

/-- Too warm, then cooler but not cool, a reading lost, and cool: off until the last run. -/
example :
    ([none, some 390].map fun t => ((start .fast ⟨80, 0, false, false⟩).runs
      [.run ⟨some 460, some 50, false⟩, .run ⟨some 430, some 50, false⟩,
        .run ⟨t, some 50, false⟩]).switch) = [.na, .fast] := by decide

end Mu300.Power
