import Mu300.Thermal.Guard

/-!
# Whose caps the guard raises

`raise_caps` and `lift_caps` take every policy that is below its ceiling for one that the guard has
capped. So it is as long as whoever else limits a policy has said so in `cpu-ceiling` when the limit
is there (`Event.AtCeiling`), and no longer with the limit of `mu300-power`'s `eco`, which has no
line, or between the two writes of `mu300-cpu`, which writes the limit before its line.
-/

namespace Mu300.Thermal

open List Option

/-- Another program leaves the limit at the ceiling of the policy, or above it. -/
def Event.AtCeiling (b : Board) : Event → Prop
  | .other p new line => ∀ c, line.or (b.cpuinfoMax p) = some c → c ≤ new
  | _ => True

/-- No policy is below its ceiling but those the guard holds, and it raised no other so far. -/
structure State.Fine (b : Board) (s : State) : Prop where
  below : ∀ p c, ceilingOf b s p = some c → s.maxFreq p < c → holds p s.log
  raised : RaisesOwn s.log

section

variable {b : Board} {s : State}

theorem write_maxFreq_self (b : Board) (s : State) (g : Bool) (p new : ℕ) :
    (s.write b g p new).maxFreq p = new := Function.update_self ..

theorem write_maxFreq_of_ne (b : Board) (s : State) (g : Bool) {p q : ℕ} (h : q ≠ p) (new : ℕ) :
    (s.write b g p new).maxFreq q = s.maxFreq q := Function.update_of_ne h ..

theorem holds_write_of_ne (b : Board) (s : State) (g : Bool) {p q : ℕ} (h : q ≠ p) (new : ℕ) :
    holds q (s.write b g p new).log = holds q s.log := if_neg (Ne.symm h)

namespace State.Fine

theorem write (h : s.Fine b) {p new : ℕ}
    (hnew : s.maxFreq p < new → ∃ c, ceilingOf b s p = some c ∧ new ≤ c) :
    (s.write b true p new).Fine b := by
  have hown : s.maxFreq p < new → holds p s.log := by
    intro hlt
    obtain ⟨c, hc, hle⟩ := hnew hlt
    exact h.below p c hc (Nat.lt_of_lt_of_le hlt hle)
  refine ⟨?_, fun _ hlt => hown hlt, h.raised⟩
  intro q c hc hlt
  by_cases hq : q = p
  · subst hq
    rw [write_maxFreq_self] at hlt
    have hceil : ceilingOf b s q = some c := hc
    have hheld : new < s.maxFreq q ∨ holds q s.log := by
      rcases Nat.lt_or_ge new (s.maxFreq q) with hless | hge
      · exact .inl hless
      · exact .inr (h.below q c hceil (Nat.lt_of_le_of_lt hge hlt))
    simpa [State.write, holds, hceil, hlt] using hheld
  · rw [write_maxFreq_of_ne b s true hq] at hlt
    rw [holds_write_of_ne b s true hq]
    exact h.below q c hc hlt

theorem lower (h : s.Fine b) (p : ℕ) : (lower b s p).Fine b := by
  rw [Thermal.lower]
  split
  · rename_i next hnext
    have hmem := mem_of_getLast? hnext
    have hlt : next < s.maxFreq p := of_decide_eq_true (mem_filter.1 hmem).2
    exact h.write fun hgt => absurd hgt (Nat.lt_asymm hlt)
  · exact h

theorem toCeiling (h : s.Fine b) (p : ℕ) : (toCeiling b s p).Fine b := by
  rw [Thermal.toCeiling]
  split
  · rename_i c hc
    exact h.write fun _ => ⟨c, hc, Nat.le_refl c⟩
  · exact h

theorem higher (h : s.Fine b) {p : ℕ} (hc : ceilingOf b s p ≠ none) : (higher b s p).Fine b := by
  rw [Thermal.higher]
  split
  · rename_i next hnext
    obtain ⟨c, hc⟩ := ne_none_iff_exists'.1 hc
    have hf := find?_some hnext
    rw [hc, all_some, Bool.and_eq_true] at hf
    exact h.write fun _ => ⟨c, hc, of_decide_eq_true hf.2⟩
  · exact h

theorem raiseOne {s : State × Bool} (h : s.1.Fine b) (p : ℕ) : (raiseOne b s p).1.Fine b := by
  rw [Thermal.raiseOne]
  dsimp only
  split
  · rename_i hmax
    refine h.higher fun hnone => ?_
    rw [ceilingOf, or_eq_none_iff] at hnone
    rw [hnone.2] at hmax
    cases hmax
  · exact h

section

variable (h : s.Fine b) (c : Settings)

include h

theorem with_capped (m : Option Marker) : State.Fine b { s with capped := m } :=
  ⟨h.below, h.raised⟩

theorem foldl {f : State → ℕ → State}
    (hf : ∀ (s : State) (p : ℕ), s.Fine b → (f s p).Fine b) (ps : List ℕ) : (ps.foldl f s).Fine b :=
  foldlRecOn ps f h fun s hs p _ => hf s p hs

theorem liftCaps : (liftCaps b s).Fine b := by
  rw [Thermal.liftCaps]
  split
  · exact (h.foldl (fun _ p hs => hs.toCeiling p) b.policies).with_capped none
  · exact h

theorem raiseCaps : (raiseCaps b s).Fine b := by
  have hfold : (b.policies.foldl (Thermal.raiseOne b) (s, false)).1.Fine b :=
    foldlRecOn (motive := fun s => s.1.Fine b) b.policies (Thermal.raiseOne b) h
      fun _ hs p _ => raiseOne hs p
  rw [Thermal.raiseCaps]
  dsimp only
  split
  · exact hfold
  · exact hfold.with_capped none

theorem regulate (t : ℤ) (throttle blind : Bool) : (regulate c b t throttle blind s).Fine b := by
  rw [Thermal.regulate]
  split
  · exact ⟨h.below, h.raised⟩
  split
  · exact (h.foldl (fun _ p hs => hs.lower p) _).with_capped _
  split
  · exact h.raiseCaps
  split
  · exact (h.foldl (fun _ p hs => hs.lower p) _).with_capped _
  split
  · exact h.raiseCaps
  · exact h

theorem ledAlarm (t : ℤ) (battery : Option ℤ) (blind : Bool) :
    (ledAlarm c t battery blind s).Fine b := by
  rw [Thermal.ledAlarm]
  split
  · exact ⟨h.below, h.raised⟩
  split
  · exact ⟨h.below, h.raised⟩
  · exact h

theorem handOver (native : Shell.Text) : (handOver b native s).Fine b := by
  rw [Thermal.handOver]
  split
  · exact h.liftCaps
  · exact h

theorem round (r : Reading) : (round c b r s).Fine b := by
  have hover := h.handOver (b := b) (nativeCpuCooling c r (hottest r).1)
  refine .ledAlarm (.regulate ?_ ..) ..
  exact ⟨hover.below, hover.raised⟩

/-- Another program that leaves the limit at the ceiling: nothing there is to be raised. -/
theorem other {p new : ℕ} {line : Option ℕ}
    (hc : (Event.other p new line).AtCeiling b) : (s.step b (.other p new line)).Fine b := by
  refine ⟨?_, nofun, h.raised⟩
  intro q c hq hlt
  by_cases hp : q = p
  · subst hp
    have hceil : line.or (b.cpuinfoMax q) = some c := by
      simpa [State.step, ceilingOf, State.write] using hq
    have hmax : (s.step b (.other q new line)).maxFreq q = new := write_maxFreq_self ..
    rw [hmax] at hlt
    exact absurd hlt (Nat.not_lt.2 (hc c hceil))
  · have hceil : ceilingOf b s q = some c := by
      simpa [State.step, ceilingOf, State.write, Function.update_of_ne hp] using hq
    have hmax : (s.step b (.other p new line)).maxFreq q = s.maxFreq q :=
      write_maxFreq_of_ne _ _ _ hp _
    rw [hmax] at hlt
    exact (holds_write_of_ne _ _ _ hp _).trans (h.below q c hceil hlt)

theorem step {e : Event} (he : e.AtCeiling b) : (s.step b e).Fine b := by
  cases e with
  | round c r => exact h.round c r
  | restart => exact ⟨h.below, h.raised⟩
  | other p new line => exact h.other he

theorem runs {es : List Event} (hes : ∀ e ∈ es, e.AtCeiling b) : (s.runs b es).Fine b :=
  foldlRecOn es (State.step b) h fun _ hs e he => hs.step (hes e he)

end

end State.Fine

/-- Nothing was written yet, and every policy is at its ceiling. -/
def State.Fresh (b : Board) (s : State) : Prop :=
  s.log = [] ∧ ∀ p c, ceilingOf b s p = some c → c ≤ s.maxFreq p

/-- **The guard raises only its own caps**, in every run in which the limits that others set are at
the ceiling of their policy. -/
theorem guard_raises_own_caps {b : Board} {s : State} {es : List Event} (hs : s.Fresh b)
    (hes : ∀ e ∈ es, e.AtCeiling b) : RaisesOwn (s.runs b es).log := by
  refine (State.Fine.runs ⟨?_, ?_⟩ hes).raised
  · intro p c hc hlt
    exact absurd hlt (Nat.not_lt.2 (hs.2 p c hc))
  · rw [hs.1]
    trivial

end

/-! ## A board -/

namespace Sample

/-- Two clusters, the second with three frequencies. -/
def board : Board where
  policies := [0, 4]
  cpuinfoMax := fun p => some (if p = 4 then 2301000 else 1820000)
  available := fun p => if p = 4 then [1500000, 1703000, 2301000] else [614400, 1820000]

def boot : State where
  maxFreq := fun p => if p = 4 then 2301000 else 1820000
  ceilingLine := fun _ => none
  capped := none
  alarm := false
  nativeWas := []
  poweredOff := false
  log := []

/-- A zone without trips, at a temperature. -/
def soc (t : ℤ) : Reading := ⟨[⟨['s', 'o', 'c'], true, [], some t, []⟩], [], none⟩

theorem boot_fresh : boot.Fresh board := by
  refine ⟨rfl, fun p c hc => ?_⟩
  obtain rfl : (if p = 4 then 2301000 else 1820000) = c := some.inj hc
  exact Nat.le_refl _

end Sample

open Sample in
/-- Hot, a profile sets its ceiling, and cool again: the guard raises its own cap. -/
theorem guard_raises_own_caps_sample :
    let es := [.round .default (soc 90000), .other 0 614400 (some 614400),
      .round .default (soc 70000)]
    (boot.runs board es).maxFreq 4 = 2301000 ∧ RaisesOwn (boot.runs board es).log := by
  refine ⟨by decide, guard_raises_own_caps boot_fresh fun e he => ?_⟩
  simp only [mem_cons, not_mem_nil, or_false] at he
  rcases he with rfl | rfl | rfl
  · trivial
  · intro c hc
    obtain rfl : 614400 = c := some.inj hc
    exact Nat.le_refl _
  · trivial

open Sample in
/-- `eco` limits the big cluster to 1.5 GHz, and the next cool round takes the limit up: the guard
never held a cap. -/
theorem eco_cap_raised :
    let es := [.other 4 1500000 none, .round .default (soc 45000)]
    (boot.runs board es).maxFreq 4 = 1703000 ∧ ¬ RaisesOwn (boot.runs board es).log := by decide

end Mu300.Thermal
