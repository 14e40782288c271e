import Mathlib.Data.List.Sort
import Mu300.Lib.Shell

/-!
# The thermal guard

`thermal-guard`: every few seconds it reads the thermal zones, and where the kernel does not
throttle the CPUs it lowers and raises `scaling_max_freq` itself.

* `Reading` — the zones, the cooling devices and the battery, as one round finds them.

`scaling_max_freq` can always be read. The log lines and the LED are left out.
-/

namespace Mu300.Thermal

open Shell

/-- `MU300_THERMAL_HOT` and the others, in thousandths and the battery's in tenths of a degree. -/
structure Settings where
  hot : ℤ
  cool : ℤ
  crit : ℤ
  backstop : ℤ
  backstopAll : ℤ
  battHot : ℤ
  battCool : ℤ

def Settings.default : Settings := ⟨85000, 75000, 105000, 92000, 95000, 500, 450⟩

/-- The policies: `policyN` is `N`. -/
structure Board where
  policies : List ℕ
  /-- `cpuinfo_max_freq`, when it can be read -/
  cpuinfoMax : ℕ → Option ℕ
  /-- `scaling_available_frequencies` -/
  available : ℕ → List ℕ

/-! ## What a round reads -/

structure Trip where
  passive : Bool
  /-- when it is a number -/
  temp : Option ℕ

structure Zone where
  type : Text
  enabled : Bool
  trips : List Trip
  /-- when it is a number -/
  temp : Option ℤ
  /-- the cooling devices bound to it, by their place in the list of them -/
  cdevs : List ℕ

structure Reading where
  zones : List Zone
  /-- for each cooling device, whether its type is that of a cpufreq policy -/
  cooling : List Bool
  /-- the temperature of the battery; none on a board without one -/
  battery : Option ℤ

/-- `hottest`: the hottest zone, from 0 on, and whether any zone gave a number. -/
def hottest (r : Reading) : ℤ × Bool :=
  let temps := r.zones.filterMap Zone.temp
  (temps.foldl max 0, !temps.isEmpty)

/-- A passive trip at or below HOT. -/
def Zone.trippedBy (z : Zone) (hot : ℤ) : Bool :=
  z.trips.any fun trip => trip.passive && trip.temp.any fun t => t ≤ hot

/-- The places of the cooling devices of cpufreq. -/
def Reading.cpufreqDevices (r : Reading) : List ℕ :=
  (List.range r.cooling.length).filter fun i => r.cooling.getD i false

/-- `native_cpu_cooling`: the type of the zone by which the kernel throttles the CPUs; empty when
there is none. -/
def nativeCpuCooling (c : Settings) (r : Reading) (hottest : ℤ) : Text :=
  if r.cpufreqDevices.isEmpty then []
  else
    ((r.zones.find? fun z => z.enabled && z.trippedBy c.hot &&
      -- a zone that reads nothing, or far below the die, does not throttle
      z.temp.any (fun t => 0 ≤ t && hottest - 15000 ≤ t) &&
      r.cpufreqDevices.all fun d => z.cdevs.contains d).map Zone.type).getD []

/-! ## State -/

/-- What `thermal-capped` says. -/
inductive Marker : Type where
  | capped
  | backstop
  deriving DecidableEq

/-- A write to `scaling_max_freq`. -/
structure Write where
  byGuard : Bool
  policy : ℕ
  old : ℕ
  new : ℕ
  /-- the ceiling of the policy at that time -/
  ceil : Option ℕ
  deriving DecidableEq

/-- What the guard works on, and the writes so far, the last one first. -/
structure State where
  /-- `scaling_max_freq` -/
  maxFreq : ℕ → ℕ
  /-- the last line of a policy in `cpu-ceiling`, when it is a number -/
  ceilingLine : ℕ → Option ℕ
  /-- `thermal-capped` -/
  capped : Option Marker
  /-- `thermal-alarm` -/
  alarm : Bool
  nativeWas : Text
  poweredOff : Bool
  log : List Write

variable (b : Board) (s : State)

/-- `ceiling_of`: what a profile set, else the hardware's maximum. -/
def ceilingOf (p : ℕ) : Option ℕ := (s.ceilingLine p).or (b.cpuinfoMax p)

/-- `echo FREQ > scaling_max_freq`. -/
def State.write (byGuard : Bool) (p new : ℕ) : State :=
  { s with
    maxFreq := Function.update s.maxFreq p new
    log := ⟨byGuard, p, s.maxFreq p, new, ceilingOf b s p⟩ :: s.log }

/-! ## Steps -/

/-- `step POLICY -1`: the next lower frequency. -/
def lower (p : ℕ) : State :=
  let fs := (b.available p).insertionSort (· ≤ ·)
  match (fs.filter (· < s.maxFreq p)).getLast? with
  | some next => s.write b true p next
  | none => s

/-- `step POLICY 1`: the next higher frequency up to the ceiling. -/
def higher (p : ℕ) : State :=
  let fs := (b.available p).insertionSort (· ≤ ·)
  match fs.find? fun f => s.maxFreq p < f && (ceilingOf b s p).all (f ≤ ·) with
  | some next => s.write b true p next
  | none => s

/-- One policy of `lift_caps`. -/
def toCeiling (p : ℕ) : State :=
  match ceilingOf b s p with
  | some c => s.write b true p c
  | none => s

/-- `lift_caps`: every policy back to its ceiling, when the guard holds a cap from before the kernel
throttled. -/
def liftCaps : State :=
  match s.capped with
  | some .capped => { b.policies.foldl (toCeiling b) s with capped := none }
  | _ => s

/-- One policy of `raise_caps`: a step up, and whether it is still below its ceiling. -/
def raiseOne (s : State × Bool) (p : ℕ) : State × Bool :=
  let s' := if (b.cpuinfoMax p).any (s.1.maxFreq p < ·) then higher b s.1 p else s.1
  (s', s.2 || (ceilingOf b s' p).any (s'.maxFreq p < ·))

/-- `raise_caps`: every policy one step up; the marker goes when none is below its ceiling. -/
def raiseCaps : State :=
  let (s, below) := b.policies.foldl (raiseOne b) (s, false)
  if below then s else { s with capped := none }

/-- What a round does about the limits, at the temperature `t`. -/
def regulate (c : Settings) (b : Board) (t : ℤ) (throttle blind : Bool) (s : State) : State :=
  if c.crit ≤ t then { s with poweredOff := true }
  else if c.hot ≤ t ∧ throttle then
    { b.policies.foldl (lower b) s with capped := some .capped }
  else if t ≤ c.cool ∧ throttle ∧ ¬ blind then raiseCaps b s
  else if c.backstop ≤ t ∧ ¬ throttle then
    -- the A55 cluster only from BACKSTOP_ALL on
    { (b.policies.filter fun p => ¬ (p = 0 ∧ t < c.backstopAll)).foldl (lower b) s with
      capped := some .backstop }
  else if t ≤ c.hot ∧ ¬ throttle ∧ s.capped.isSome ∧ ¬ blind then raiseCaps b s
  else s

def ledAlarm (c : Settings) (t : ℤ) (battery : Option ℤ) (blind : Bool) (s : State) : State :=
  if ¬ s.alarm ∧ (c.hot ≤ t ∨ c.battHot ≤ battery.getD 0) then { s with alarm := true }
  else if s.alarm ∧ ¬ blind ∧ t ≤ c.cool ∧ battery.getD 0 ≤ c.battCool then
    { s with alarm := false }
  else s

/-- The kernel has taken over, or it has not. -/
def handOver (native : Text) (s : State) : State :=
  if native ≠ [] ∧ native ≠ s.nativeWas then liftCaps b s else s

def round (c : Settings) (b : Board) (r : Reading) (s : State) : State :=
  let (t, found) := hottest r
  let native := nativeCpuCooling c r t
  let s := { handOver b native s with nativeWas := native }
  ledAlarm c t r.battery (!found) (regulate c b t native.isEmpty (!found) s)

/-! ## Runs -/

/-- What can happen next. -/
inductive Event : Type where
  | round (c : Settings) (r : Reading)
  /-- the guard is started again -/
  | restart
  /-- another program sets the limit of a policy and its line in `cpu-ceiling`, both in one step -/
  | other (policy new : ℕ) (line : Option ℕ)

def State.step : Event → State
  | .round c r => round c b r s
  | .restart => { s with nativeWas := [] }
  | .other p new line =>
    ({ s with ceilingLine := Function.update s.ceilingLine p line } : State).write b false p new

def State.runs (es : List Event) : State := es.foldl (State.step b) s

/-- The guard holds a cap on a policy that it set itself: it lowered the limit to below the ceiling,
and since then nobody else changed it and it did not come back to its ceiling. -/
def holds (p : ℕ) : List Write → Bool
  | [] => false
  | w :: before =>
    if w.policy = p then w.byGuard && w.ceil.all (w.new < ·) && (w.new < w.old || holds p before)
    else holds p before

/-- Every write by which the guard raised a limit came while it held a cap of its own on it. -/
def RaisesOwn : List Write → Prop
  | [] => True
  | w :: before => (w.byGuard → w.old < w.new → holds w.policy before) ∧ RaisesOwn before

instance decRaisesOwn : (log : List Write) → Decidable (RaisesOwn log)
  | [] => .isTrue trivial
  | _ :: before => @instDecidableAnd _ _ inferInstance (decRaisesOwn before)

end Mu300.Thermal
