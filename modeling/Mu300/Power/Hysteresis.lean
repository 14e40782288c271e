import Mu300.Power.ChargeGuard

/-!
# The charge limit beside the temperature

The limit stops charging at `N` and lets it go on under the resume point. One marker says why
charging is off, and a stop for the temperature writes its own reason over the limit's.

* `Waiting` — off for the limit or for the temperature, with the limit reached before.
-/

namespace Mu300.Power

/-- The values of a run, all of them readable. -/
structure Values where
  temp : ℤ
  capacity : ℕ
  full : Bool

def Values.reading (v : Values) : Reading := ⟨some v.temp, some v.capacity, v.full⟩

/-- A stop for the temperature begins or goes on. -/
def hot (was : Bool) (v : Values) : Bool :=
  450 < v.temp || v.temp < 0 || (was && (400 ≤ v.temp || v.temp ≤ 30))

/-- Charging is off after every one of these runs. -/
def State.StaysOff (s : State) : List Values → Prop
  | [] => True
  | v :: vs => (guard v.reading s).switch = .na ∧ (guard v.reading s).StaysOff vs

/-- Every run is stopped by the temperature, or it has 5 % and does not end such a stop below the
limit. -/
def Undisturbed (limit : ℕ) (was : Bool) : List Values → Prop
  | [] => True
  | v :: vs => (hot was v ∨ 5 ≤ v.capacity ∧ (was → limit ≤ v.capacity)) ∧
    Undisturbed limit (hot was v) vs

/-- A limit and nothing else: no pause, no full battery once. -/
structure Settings.LimitOnly (c : Settings) : Prop where
  pause : c.chargePause = false
  full : c.fullOnce = false
  active : c.limitActive

variable {c : Settings} {s : State} {v : Values}

/-- The runs so far, with the marker of a stop for the temperature; without a marker charging is
on. -/
structure State.Steady (c : Settings) (was : Bool) (s : State) : Prop where
  conf : s.conf = c
  temp : was = decide (s.chargeOff = some .temp)
  on : s.chargeOff = none → s.switch = .fast

/-- The limit was reached, and charging is off since. -/
structure State.Waiting (c : Settings) (was : Bool) (s : State) : Prop extends s.Steady c was where
  off : s.chargeOff ≠ none
  marked : was = false → s.chargeOff = some .limit ∧ s.chargeLimit = some c.chargeTo

section Run

variable (hc : c.LimitOnly) {was : Bool} (h : s.Steady c was)

include hc h

theorem guard_hot (hv : hot was v) :
    (guard v.reading s).Waiting c true ∧ (guard v.reading s).switch = .na := by
  have hreason : tempReason s.chargeOff (some v.temp) := by simpa [tempReason, hot, h.temp] using hv
  have hguard : guard v.reading s = { setChargingOff .temp s with chargeLimit := none } := by
    cases ho : s.chargeOff with
    | none =>
      simp [guard, guardSettled, fullOnceDone, readingLost, reason, Values.reading, h.conf, hc.full,
        ho ▸ hreason, ho]
    | some why =>
      cases why <;>
        simp [guard, guardSettled, fullOnceDone, readingLost, reason, Values.reading, h.conf,
          hc.full, ho ▸ hreason, ho]
  rw [hguard]
  exact ⟨⟨⟨h.conf, rfl, by rintro ⟨⟩⟩, by rintro ⟨⟩, by rintro ⟨⟩⟩, rfl⟩

theorem guard_cool (hv : ¬ hot was v) : guard v.reading s =
    if 5 ≤ v.capacity ∧ limitReason c s.chargeOff s.chargeLimit (some v.capacity) then
      { setChargingOff .limit s with chargeLimit := some c.chargeTo }
    else { setChargingOn s with chargeLimit := none } := by
  have hreason : tempReason s.chargeOff (some v.temp) = false := by
    simpa [tempReason, hot, h.temp] using hv
  have hlost : readingLost s v.reading = false := by
    cases ho : s.chargeOff with
    | none => simp [readingLost, ho]
    | some why => cases why <;> simp [readingLost, ho, Values.reading]
  have hsame : fullOnceDone v.reading s = s := by simp [fullOnceDone, h.conf, hc.full]
  have hwhy : reason s v.reading =
      if 5 ≤ v.capacity ∧ limitReason c s.chargeOff s.chargeLimit (some v.capacity) then some .limit
        else none := by
    simp only [reason, ownersReason, Values.reading, hreason, h.conf, hc.pause, hc.active,
      Option.any_some, decide_eq_true_eq, Bool.true_and, Bool.false_eq_true, if_false]
    by_cases h5 : v.capacity < 5
    · rw [if_pos h5, if_neg fun hn => absurd hn.1 (Nat.not_le.2 h5)]
    · rw [if_neg h5]
      simp [Nat.not_lt.1 h5]
  rw [guard, hsame, guardSettled, hlost, hwhy, h.conf]
  by_cases hheld : 5 ≤ v.capacity ∧ limitReason c s.chargeOff s.chargeLimit (some v.capacity)
  · simp [hheld]
  · simp [if_neg hheld]

theorem Steady.guard : (guard v.reading s).Steady c (hot was v) := by
  by_cases hv : hot was v
  · rw [hv]
    exact (guard_hot hc h hv).1.toSteady
  · rw [guard_cool hc h hv, Bool.eq_false_iff.2 hv]
    split
    · exact ⟨h.conf, rfl, by rintro ⟨⟩⟩
    · rcases ho : s.chargeOff with _ | why
      · simp only [setChargingOn, ho]
        exact ⟨h.conf, by simp [State.note, ho], fun _ => h.on ho⟩
      · simp only [setChargingOn, ho]
        exact ⟨h.conf, rfl, fun _ => rfl⟩

theorem guard_waiting
    (hlim : ¬ hot was v → (limitReason c s.chargeOff s.chargeLimit (some v.capacity) ↔
    (was → c.chargeTo ≤ v.capacity))) :
    ((guard v.reading s).switch = .na ↔ hot was v ∨ 5 ≤ v.capacity ∧
      (was → c.chargeTo ≤ v.capacity)) ∧
      ((guard v.reading s).switch = .na → (guard v.reading s).Waiting c (hot was v)) := by
  by_cases hv : hot was v
  · obtain ⟨hwait, hoff⟩ := guard_hot hc h hv
    exact ⟨iff_of_true hoff (.inl hv), fun _ => hv ▸ hwait⟩
  · have hnext := Steady.guard (v := v) hc h
    rw [guard_cool hc h hv] at hnext ⊢
    split at hnext
    · next hheld =>
      rw [if_pos hheld]
      rw [hlim hv] at hheld
      exact ⟨iff_of_true rfl (.inr hheld), fun _ => ⟨hnext, by rintro ⟨⟩, fun _ => ⟨rfl, rfl⟩⟩⟩
    · next hfree =>
      have hon : (setChargingOn s).switch = .fast := by
        rcases ho : s.chargeOff with _ | why
        · simpa [setChargingOn, ho, State.note] using h.on ho
        · simp [setChargingOn, ho]
      rw [if_neg hfree]
      rw [hlim hv] at hfree
      have hne : ({ setChargingOn s with chargeLimit := none } : State).switch ≠ .na := by
        simp [hon]
      exact ⟨iff_of_false hne (not_or.2 ⟨hv, hfree⟩), fun hna => absurd hna hne⟩

end Run

theorem Waiting.staysOff_iff (hc : c.LimitOnly) {was : Bool} (h : s.Waiting c was)
    (vs : List Values)
    (hvs : ∀ w ∈ vs, c.low ≤ w.capacity) : s.StaysOff vs ↔ Undisturbed c.chargeTo was vs := by
  induction vs generalizing s was with
  | nil => exact .rfl
  | cons v vs ih =>
    have hlow := hvs v List.mem_cons_self
    obtain ⟨hoff, hwait⟩ := guard_waiting (v := v) hc h.toSteady fun _ => by
      cases was with
      | false => simp [limitReason, h.marked rfl, hlow]
      | true =>
        have ht : s.chargeOff = some .temp := of_decide_eq_true h.temp.symm
        simp +contextual [limitReason, ht]
    rw [State.StaysOff, Undisturbed, hoff]
    refine and_congr_right fun hheld => ?_
    exact ih (hwait (hoff.2 hheld)) fun w hw => hvs w (List.mem_cons_of_mem _ hw)

theorem steady_runs (hc : c.LimitOnly) (vs : List Values) :
    ((start .fast c).runs (vs.map fun v => .run v.reading)).Steady c (vs.foldl hot false) := by
  have hrun : ∀ {s : State} {was : Bool}, s.Steady c was →
      (s.runs (vs.map fun v => .run v.reading)).Steady c (vs.foldl hot was) := by
    induction vs with
    | nil => exact id
    | cons v vs ih => exact fun h => ih (Steady.guard hc h)
  exact hrun ⟨rfl, rfl, fun _ => rfl⟩

/-- **The limit is kept until a stop for the temperature ends.** From the boot on with one limit, no
pause and no full battery asked for: once a run read the limit, the runs whose capacity is not below
the resume point leave charging off exactly when none of them ends a stop for the temperature below
the limit, and none without such a stop is under 5 %. -/
theorem limit_kept_iff (c : Settings) (hc : c.LimitOnly) (past : List Values) (v : Values)
    (hv : c.chargeTo ≤ v.capacity) (vs : List Values) (hvs : ∀ w ∈ vs, c.low ≤ w.capacity) :
    ((start .fast c).runs (past.map fun v => .run v.reading)).StaysOff (v :: vs) ↔
      Undisturbed c.chargeTo (past.foldl hot false) (v :: vs) := by
  have hsteady := steady_runs hc past
  obtain ⟨hoff, hwait⟩ := guard_waiting (v := v) hc hsteady fun _ => by simp [limitReason, hv]
  rw [State.StaysOff, Undisturbed, hoff]
  exact and_congr_right fun hheld => Waiting.staysOff_iff hc (hwait (hoff.2 hheld)) vs hvs

/-- The limit, then a stop for the temperature that ends at the limit: still off. -/
theorem limit_kept_through : (⟨80, 0, false, false⟩ : Settings).LimitOnly ∧
    (start .fast ⟨80, 0, false, false⟩).StaysOff
    [⟨250, 80, false⟩, ⟨460, 79, false⟩, ⟨390, 80, false⟩, ⟨250, 75, false⟩] :=
  ⟨⟨rfl, rfl, rfl⟩, (limit_kept_iff ⟨80, 0, false, false⟩ ⟨rfl, rfl, rfl⟩ [] ⟨250, 80, false⟩
    (by decide) _ (by decide)).2 ⟨by decide, by decide, by decide, by decide, trivial⟩⟩

/-- The limit of 80 was reached, and charging goes on at 78 when the battery has cooled down. -/
theorem limit_forgotten :
    ([[], [⟨460, 78, false⟩], [⟨460, 78, false⟩, ⟨390, 78, false⟩]].map fun vs : List Values =>
      ((start .fast ⟨80, 0, false, false⟩).runs
        ((⟨250, 80, false⟩ :: vs).map fun v => .run v.reading)).switch) = [.na, .na, .fast] ∧
    (⟨80, 0, false, false⟩ : Settings).low ≤ 78 := by
  decide

end Mu300.Power
