import Mathlib.Algebra.Ring.Int.Defs
import Mu300.Traffic.Calendar

/-!
# The traffic ledger

The awk program of `mu300-traffic`, which reads a ledger, adds a reading of the counters and
prints the new ledger, with the reading as `ledger_run` takes it.

* `Addition` — what is ever added to a day or to the pending bytes; `sampleAdditions` and
  `dateAdditions` say which ones a reading makes.

Amounts are exact. A word of the file is a text without blanks, so that a line that is
printed has the fields it is read back with; the lines `alert` and `adj` go through unchanged.
-/

namespace Mu300.Traffic

open Shell

/-! ## Readings and settings -/

/-- A text that is one field of a line. -/
structure Word where
  text : Text
  ne_nil : text ≠ []
  plain : ∀ ch ∈ text, ch ≠ ' ' ∧ ch ≠ '\t' ∧ ch ≠ '\n'
  deriving DecidableEq

/-- The kernel's clock, which ends in the year 2262, and an offset `+hhmm` from UTC. -/
structure Clock where
  now : ℤ
  off : ℤ
  now_nonneg : 0 ≤ now
  now_le : now ≤ 9223372036
  off_bounds : -362340 ≤ off ∧ off ≤ 362340

/-- The counters of the counted interface. -/
structure Counters where
  idx : ℕ
  rx : ℕ
  tx : ℕ

structure Reading where
  clock : Clock
  up : ℕ
  /-- `clock_ok` -/
  trusted : Bool
  boot : Option Word
  dev : Word
  counters : Option Counters
  dataup : Bool

/-- `COUNT`: what a limit counts. -/
inductive Count : Type where
  | total
  | rx
  | tx
  deriving DecidableEq

/-- The settings a run of the program is given. -/
structure Settings where
  reset : ℤ
  cap : ℤ
  warn : ℤ
  cut : Bool
  daily : ℤ
  dailyCut : Bool
  mode : Count

/-- What the program is run for; a view prints no ledger. -/
inductive Op : Type where
  | sample
  | used (bytes : ℤ)
  | clear
  deriving DecidableEq

/-! ## The ledger -/

/-- `base BOOT IFINDEX DEV RX TX UP`. -/
structure Base where
  boot : Word
  idx : ℕ
  dev : Word
  rx : ℤ
  tx : ℤ
  up : ℤ

/-- `p BOOT UP RX TX`. -/
structure Pend where
  boot : Word
  up : ℤ
  rx : ℤ
  tx : ℤ

/-- `d YYYY-MM-DD RX TX`. -/
structure Day where
  key : Text
  rx : ℤ
  tx : ℤ

/-- `adj CYCLESTART BYTES COUNT`. -/
structure Adj where
  cycle : Text
  bytes : ℤ
  mode : Count

/-- `cut CYCLESTART BOOT OVERRIDE` and `dcut DAY BOOT OVERRIDE`. -/
structure Mark where
  key : Text
  boot : Option Word
  override : Bool

inductive Level : Type where
  | none
  | ok
  | warn
  | over
  deriving DecidableEq

/-- `alert CYCLESTART LEVEL` and `dalert DAY LEVEL`. -/
structure Alert where
  key : Text
  level : Level

structure Ledger where
  since : Option ℤ
  base : Option Base
  pend : List Pend
  /-- the days, oldest first -/
  days : List Day
  adj : Option Adj
  cut : Option Mark
  alert : Option Alert
  dcut : Option Mark
  dalert : Option Alert

def Ledger.empty : Ledger := ⟨none, none, [], [], none, none, none, none, none⟩

/-! ## Additions -/

/-- The day's entry with more bytes, if there is one. -/
def bumpDay (k : Text) (rx tx : ℤ) : List Day → Option (List Day)
  | [] => none
  | e :: es =>
    if e.key = k then some ({ e with rx := e.rx + rx, tx := e.tx + tx } :: es)
    else (bumpDay k rx tx es).map (e :: ·)

/-- A new entry: behind the last day that is not later. -/
def insertDay (e : Day) (es : List Day) : List Day :=
  (es.reverse.dropWhile (before e.key ·.key)).reverse ++
    e :: (es.reverse.takeWhile (before e.key ·.key)).reverse

def addday (es : List Day) (k : Text) (rx tx : ℤ) : List Day :=
  (bumpDay k rx tx es).getD (insertDay ⟨k, rx, tx⟩ es)

/-- `addpend`: per 15 minutes of uptime, and 2000 entries at most. -/
def addpend (ps : List Pend) (boot : Word) (up rx tx : ℤ) : List Pend :=
  let k := up.tdiv 900 * 900
  match ps.getLast? with
  | some p =>
    if 2000 ≤ ps.length ∨ p.boot = boot ∧ p.up = k then
      ps.dropLast ++ [{ p with rx := p.rx + rx, tx := p.tx + tx }]
    else ps ++ [⟨boot, k, rx, tx⟩]
  | none => ps ++ [⟨boot, k, rx, tx⟩]

inductive Addition : Type where
  | day (k : Text) (rx tx : ℤ)
  | pend (boot : Word) (up rx tx : ℤ)

variable (l : Ledger)

def Ledger.add : Addition → Ledger
  | .day k rx tx => { l with days := addday l.days k rx tx }
  | .pend boot up rx tx => { l with pend := addpend l.pend boot up rx tx }

theorem nextmid_gt (off t : ℤ) : t < nextmid off t := by
  have := Int.tmod_lt_of_pos (t + off) (show (0 : ℤ) < 86400 by decide)
  simp only [nextmid]
  omega

/-- The loop of `addspan`: the share of each day up to its midnight, and the rest. -/
def spanShares (off a t1 rx tx : ℤ) : List Addition :=
  if a < t1 ∧ nextmid off a < t1 then
    let b := nextmid off a
    let prx := (rx * (b - a)).tdiv (t1 - a)
    let ptx := (tx * (b - a)).tdiv (t1 - a)
    .day (civil off a) prx ptx :: spanShares off b t1 (rx - prx) (tx - ptx)
  else [.day (civil off a) rx tx]
termination_by (t1 - a).toNat
decreasing_by
  have := nextmid_gt off a
  omega

/-- `addspan`: bytes counted over a time, at most 800 days of it. -/
def addspan (off t0 t1 rx tx : ℤ) : List Addition :=
  spanShares off (if t1 - t0 > 800 * 86400 then t1 - 800 * 86400 else t0) t1 rx tx

variable (r : Reading)

/-- `setbase`. -/
def Reading.base (boot : Word) (cs : Counters) : Base :=
  ⟨boot, cs.idx, r.dev, cs.rx, cs.tx, r.up⟩

/-- `drx`, `dtx` and `span` in `sample`. -/
structure Delta where
  rx : ℤ
  tx : ℤ
  span : ℤ

/-- The bytes since the base, and the time they took: new counters are new bytes. -/
def delta (b : Base) (boot : Word) (cs : Counters) (up : ℤ) : Delta :=
  let d : Delta := if b.boot = boot ∧ b.idx = cs.idx then
      { rx := if b.rx ≤ cs.rx then cs.rx - b.rx else cs.rx
        tx := if b.tx ≤ cs.tx then cs.tx - b.tx else cs.tx
        span := up - b.up }
    else { rx := cs.rx, tx := cs.tx, span := if b.boot = boot then up - b.up else up }
  { d with span := if d.span < 0 then 0 else d.span }

/-- What a reading shows since the last one: without a base of this interface it is only the
base of the next. -/
def newBytes : Delta :=
  match r.boot, r.counters, l.base with
  | some boot, some cs, some b => if b.dev = r.dev then delta b boot cs r.up else ⟨0, 0, 0⟩
  | _, _, _ => ⟨0, 0, 0⟩

/-- What `sample` adds. -/
def sampleAdditions : List Addition :=
  let d := newBytes l r
  match r.boot with
  | some boot =>
    if d.rx + d.tx = 0 then []
    else if r.trusted then addspan r.clock.off (r.clock.now - d.span) r.clock.now d.rx d.tx
    else [.pend boot r.up d.rx d.tx]
  | none => []

def sample : Ledger :=
  let l := (sampleAdditions l r).foldl Ledger.add l
  match r.boot, r.counters with
  | some boot, some cs => { l with base := some (r.base boot cs) }
  | _, _ => l

/-- What `datepend` adds for one entry: by its uptime in this boot, else to today. -/
def dateAdditions (p : Pend) : List Addition :=
  if r.boot = some p.boot ∧ p.up ≤ r.up then
    let t0 := r.clock.now - (r.up - p.up)
    addspan r.clock.off t0 (if t0 + 900 > r.clock.now then r.clock.now else t0 + 900) p.rx p.tx
  else [.day (civil r.clock.off r.clock.now) p.rx p.tx]

def datepend : Ledger :=
  { (l.pend.flatMap (dateAdditions r)).foldl Ledger.add l with pend := [] }

/-! ## What is used -/

/-- `sums`: the bytes of the days from `start` on and before `stop`. -/
def sums (es : List Day) (start stop : Text) : ℤ × ℤ :=
  let es := es.filter fun e => !before e.key start && before e.key stop
  ((es.map Day.rx).sum, (es.map Day.tx).sum)

/-- `drx[DAY]` and `dtx[DAY]`: nothing when there is no such day. -/
def ofDay (es : List Day) (k : Text) : ℤ × ℤ :=
  match es.find? (·.key = k) with
  | some e => (e.rx, e.tx)
  | none => (0, 0)

def cnt (mode : Count) (rx tx : ℤ) : ℤ :=
  match mode with
  | .rx => rx
  | .tx => tx
  | .total => rx + tx

def lvl (warn u lim : ℤ) : Level :=
  if 0 < lim then
    if lim ≤ u then .over else if lim * warn ≤ u * 100 then .warn else .ok
  else .none

def rank : Level → ℕ
  | .over => 2
  | .warn => 1
  | _ => 0

/-- What a cycle and a day have used, as the limits count it. -/
structure Usage where
  today : Text
  /-- `cs` -/
  cycle : Text
  used : ℤ
  level : Level
  dused : ℤ
  dlevel : Level

variable (st : Settings)

/-- The bytes of a cycle that are not corrected yet: its days, and all that is pending. -/
def cycleCount (l : Ledger) (cycle : Text) : ℤ :=
  let (srx, stx) := sums l.days cycle (cnext st.reset cycle)
  cnt st.mode (srx + (l.pend.map Pend.rx).sum) (stx + (l.pend.map Pend.tx).sum)

/-- The correction of a cycle, in the count mode it was made in. -/
def correction (l : Ledger) (cycle : Text) : ℤ :=
  match l.adj with
  | some a => if a.cycle = cycle ∧ a.mode = st.mode then a.bytes else 0
  | none => 0

/-- The numbers both limits go by. -/
def usage (l : Ledger) (r : Reading) : Usage :=
  let today := civil r.clock.off r.clock.now
  let cycle := cstart st.reset today
  let used := cycleCount st l cycle + correction st l cycle
  let used := if used < 0 then 0 else used
  let level := lvl st.warn used st.cap
  let level := if level = .none then .ok else level
  let (drx, dtx) := ofDay l.days today
  let dused := cnt st.mode (drx + (l.pend.map Pend.rx).sum) (dtx + (l.pend.map Pend.tx).sum)
  ⟨today, cycle, used, level, dused, lvl st.warn dused st.daily⟩

/-- A warning is logged when a level is above the last one of that cycle or day. -/
def alertStep (a : Option Alert) (key : Text) (level : Level) : Alert × Option Level :=
  let last := match a with
    | some a => if a.key = key then a.level else .ok
    | none => .ok
  if rank last < rank level then (⟨key, level⟩, some level)
  else if rank level < rank last then (⟨key, level⟩, none)
  else (⟨key, last⟩, none)

/-! ## Limits -/

inductive Limit : Type where
  | cap
  | daily
  deriving DecidableEq

/-- `rest` and `docut`: what the limits want of the one switch. -/
structure Switch where
  rest : Bool
  docut : Option Limit

/-- `if (dataup && !docut) docut = i`. -/
def Switch.off (w : Switch) (i : Limit) (dataup : Bool) : Switch :=
  if dataup ∧ w.docut = none then { w with docut := some i } else w

/-- The first half of `cutstep`: a mark that stands, or comes to its end. -/
def holdMark (i : Limit) (key : Text) (want : Bool) (r : Reading) (m : Mark) (w : Switch) :
    Option Mark × Switch :=
  if m.key ≠ key ∨ ¬ want then
    (none, if ¬ m.override ∧ ¬ r.dataup then { w with rest := true } else w)
  else if ¬ m.override then
    if m.boot = r.boot then (some { m with override := r.dataup }, w)
    else (some { m with boot := r.boot }, w.off i r.dataup)
  else (some m, w)

/-- Its second half: a limit that wants data off and has no mark gets one. -/
def newMark (i : Limit) (key : Text) (want : Bool) (r : Reading) (m : Option Mark) (w : Switch) :
    Option Mark × Switch :=
  match m with
  | some m => (some m, w)
  | none => if want then (some ⟨key, r.boot, false⟩, w.off i r.dataup) else (none, w)

/-- `cutstep`: limit `i` wants mobile data off for `key`, or not. -/
def cutstep (i : Limit) (key : Text) (want : Bool) (r : Reading) (m : Option Mark) (w : Switch) :
    Option Mark × Switch :=
  match m with
  | some m =>
    let (m, w) := holdMark i key want r m w
    newMark i key want r m w
  | none => newMark i key want r none w

/-- A limit holds mobile data off: its mark is there and no one has turned data on again. -/
def holds (m : Option Mark) : Bool :=
  match m with
  | some m => !m.override
  | none => false

/-! ## The program -/

/-- The lines of a ledger, read back: a day must be a date, a mark must have its boot. -/
def Ledger.reread : Ledger :=
  { l with
    days := (l.days.filter (dateShape ·.key)).foldl (fun es e => addday es e.key e.rx e.tx) []
    cut := l.cut.filter (·.boot.isSome)
    dcut := l.dcut.filter (·.boot.isSome) }

/-- The reading goes in, and what is pending to its days once the clock is right. -/
def Ledger.count : Ledger :=
  let l := sample l.reread r
  let l := if r.trusted then datepend l r else l
  if r.trusted ∧ l.since = none then { l with since := some r.clock.now } else l

/-- `clear`: every count is forgotten, the base stays. -/
def Ledger.cleared : Ledger :=
  { Ledger.empty with base := l.base, since := if r.trusted then some r.clock.now else none }

structure Summary where
  level : Level
  alert : Option Level
  cut : Option Limit
  restore : Bool
  counted : ℤ
  used : ℤ
  cycleStart : Text
  today : ℤ × ℤ
  pending : ℤ
  dailyLevel : Level
  dailyAlert : Option Level
  dailyUsed : ℤ

def capWants (u : Usage) : Bool := 0 < st.cap && st.cut && u.level = .over

def dailyWants (u : Usage) : Bool := 0 < st.daily && st.dailyCut && u.dlevel = .over

/-- The part of the `END` block that only a sample runs. -/
def sampleEnd (r : Reading) (counted : ℤ) (l : Ledger) : Ledger × Summary :=
  let u := usage st l r
  let (alert, alertNow) := alertStep l.alert u.cycle u.level
  let (dalert, dalertNow) := if 0 < st.daily then
      let (a, n) := alertStep l.dalert u.today u.dlevel
      (some a, n)
    else (none, none)
  let (cut, w) := cutstep .cap u.cycle (capWants st u) r l.cut ⟨false, none⟩
  let (dcut, w) := cutstep .daily u.today (dailyWants st u) r l.dcut w
  let restore := w.rest && w.docut.isNone && !holds cut && !holds dcut
  let old := civil r.clock.off (r.clock.now - 800 * 86400)
  ({ l with
      days := l.days.filter (fun e => !before e.key old), alert := some alert, dalert :=
        dalert, cut := cut,
      dcut := dcut },
    { level := if 0 < st.cap then u.level else .none
      alert := alertNow, cut := w.docut, restore := restore, counted := counted
      used := u.used, cycleStart := u.cycle, today := ofDay l.days u.today
      pending := (l.pend.map Pend.rx).sum + (l.pend.map Pend.tx).sum
      dailyLevel := u.dlevel, dailyAlert := dalertNow, dailyUsed := u.dused })

/-- The awk program for a sample: the ledger it prints, and the summary. -/
def sampleRun (r : Reading) (l : Ledger) : Ledger × Summary :=
  let d := newBytes l.reread r
  sampleEnd st r (d.rx + d.tx) (l.count r)

/-- The awk program, for a new ledger: what is printed, and a sample's summary. -/
def ledgerRun (op : Op) (r : Reading) (l : Ledger) : Ledger × Option Summary :=
  match op with
  | .sample =>
    let (l, summary) := sampleRun st r l
    (l, some summary)
  | .used bytes =>
    let l := l.count r
    let cycle := cstart st.reset (civil r.clock.off r.clock.now)
    ({ l with adj := some ⟨cycle, bytes - cycleCount st l cycle, st.mode⟩ }, none)
  | .clear => ((l.count r).cleared r, none)

def sampleDev : Word := ⟨['d'], by decide, by simp⟩

def sampleBoot : Word := ⟨['a'], by decide, by simp⟩

/-- A clock that is still in January 1970. -/
def sampleClock : Clock := ⟨1000000, 10800, by decide, by decide, by decide⟩

end Mu300.Traffic
