import Mu300.Lib.Crash
import Mu300.Lock.Bands

/-!
# Saved locks

What `lock` of `unisoc-modem` saves of the settings it applies, and how a reset takes it back.

* `State` — the files in `STATE_DIR`, the page cache and the readings of it that are under way, and
  the cell locks the modem has; beside them the history of the device.
* `State.settle` — what the readings for the page do meanwhile, at any time.

An apply, a reset and a replay run one at a time (`apply_lock`). No operation on a file fails, and a
file of one setting is written at once. What the modem answers is open: it may refuse a write, or
take it without saying so, or not take it.
-/

namespace Mu300.Lock

open Shell Crash Crash.Prog

/-! ## Settings -/

inductive Kind : Type where
  | mode
  | endc
  | lte
  | nr
  deriving DecidableEq

def Rat.kind : Rat → Kind
  | .lte => .lte
  | .nr => .nr

/-- A setting as it is saved: the value of a file, or a line of `cell`. -/
inductive Setting : Type where
  | one (k : Kind) (v : Text)
  | cell (c : Text)
  deriving DecidableEq

/-- What the history has. -/
inductive Event : Type where
  /-- the user asked for it -/
  | asked (x : Setting)
  | saved (x : Setting)
  /-- an apply or a replay sent it to the modem -/
  | sent (x : Setting)
  /-- the end of a reset deleted it -/
  | deleted (x : Setting)
  /-- a reset wrote its tombstone -/
  | committed
  /-- the list of cells was taken from the page cache, which was written from what the modem had
  since the last reset, or before it -/
  | seeded (fresh : Bool)
  deriving DecidableEq

/-- `digits VALUE MAX`. -/
def digits (v : Text) (max : ℕ) : Bool := v ≠ [] && v.all Char.isDigit && v.length ≤ max

/-- `${c%%:*}`. -/
def ratOf (c : Text) : Text := c.takeWhile (· ≠ ':')

/-- `${c#*:}`. -/
def pairOf (c : Text) : Text := (c.dropWhile (· ≠ ':')).drop 1

/-- `valid_cell RAT:ARFCN,PCI`. -/
def validCell (c : Text) : Bool :=
  (ratOf c = "nr" || ratOf c = "lte") &&
    match (pairOf c).splitOn ',' with
    | [arfcn, pci] => digits arfcn 7 && digits pci 4
    | _ => false

/-- The lines that are taken from the cache: `^(nr|lte):[0-9]+,[0-9]+$`. -/
def cellLine (c : Text) : Bool :=
  (ratOf c = "nr" || ratOf c = "lte") &&
    match (pairOf c).splitOn ',' with
    | [arfcn, pci] => digits arfcn arfcn.length && digits pci pci.length
    | _ => false

/-! ## State -/

/-- The cells of a reading of the modem, and how many resets were committed when it was read. -/
structure Cells where
  cells : List Text
  since : ℕ

/-- The saved settings, the page cache, the modem and the history. -/
structure State where
  files : Kind → Option Text
  cell : Option (List Text)
  resetPending : Bool
  /-- `auto_apply` is `off` -/
  replayOff : Bool
  /-- `REPLAY_MARKER` -/
  replayDone : Bool
  /-- the cells in `LOCKCACHE` -/
  cache : Option Cells
  /-- the readings for the page that are not written yet -/
  readings : List Cells
  /-- the cell locks of the modem -/
  modem : List Text
  /-- the resets that wrote their tombstone -/
  commits : ℕ
  /-- the last event first -/
  log : List Event

/-- What a reading for the page does. -/
inductive Background : Type where
  /-- it asks the modem, which may leave cells out -/
  | read (shows : Text → Bool)
  /-- it writes what it read -/
  | write (i : ℕ)

namespace State

variable (s : State)

def note (e : Event) : State := { s with log := e :: s.log }

def notes (es : List Event) : State := { s with log := es ++ s.log }

def backstep : Background → State
  | .read shows => { s with readings := s.readings ++ [⟨s.modem.filter shows, s.commits⟩] }
  | .write i =>
    match s.readings[i]? with
    | some r => { s with cache := some r }
    | none => s

/-- What the readings do before a step. -/
def settle (bs : List Background) : State := bs.foldl backstep s

def saves : Bool :=
  [Kind.mode, .endc, .lte, .nr].any (fun k => (s.files k).isSome) || s.cell.isSome

/-- `save_state`. -/
def save (k : Kind) (v : Text) : State :=
  ({ s with files := Function.update s.files k (some v) } : State).note (.saved (.one k v))

/-- `rm -f STATE_DIR/KIND`. -/
def drop (k : Kind) : State :=
  ({ s with files := Function.update s.files k none } : State).notes
    ((s.files k).toList.map fun v => .deleted (.one k v))

/-- `rm -f STATE_DIR/cell`. -/
def dropCell : State :=
  ({ s with cell := none } : State).notes ((s.cell.getD []).map fun c => .deleted (.cell c))

def commit : State :=
  ({ s with resetPending := true, commits := s.commits + 1 } : State).note .committed

/-- `cell_state_seed` takes the cells of the cache. -/
def seed : State :=
  match s.cache with
  | none => s
  | some c =>
    (({ s with cell := some (c.cells.filter cellLine) } : State).note
      (.seeded (c.since = s.commits))).notes
        ((c.cells.filter cellLine).map fun x => .saved (.cell x))

/-- A line more in `cell`. -/
def addCell (c : Text) : State :=
  if c ∈ s.cell.getD [] then s
  else ({ s with cell := some (s.cell.getD [] ++ [c]) } : State).note (.saved (.cell c))

/-- The modem is sent a setting, and takes it or not. -/
def send (x : Setting) (taken : Bool) : State :=
  let s := s.note (.sent x)
  match x with
  | .cell c => if taken then { s with modem := s.modem ++ [c] } else s
  | .one _ _ => s

/-- The modem is told to forget the cells of one kind. -/
def clear (rat : Text) (taken : Bool) : State :=
  if taken then { s with modem := s.modem.filter fun c => ratOf c ≠ rat } else s

/-- `reset_cache_automatic`: no cell in the cache. -/
def repaint : State := { s with cache := s.cache.map fun _ => ⟨[], s.commits⟩ }

end State

structure Reply where
  /-- the modem answers `ERROR` -/
  refused : Bool
  /-- the modem does what it is told -/
  taken : Bool
  /-- a query is answered, a read-back is as it should be but for the cells, the SIM is the one that
  locks are for -/
  ok : Bool
  /-- the bands the modem supports -/
  supported : Text
  /-- the serving cell -/
  serving : Option Text
  /-- what readings for the page do before the step -/
  background : List Background

/-! ## Steps -/

/-- One step of a program, behind what the readings do. -/
def stepTo {α : Type} (u : Reply → State → State) (r : Reply → State → α) : Prog Reply State α :=
  op (fun e s => u e (s.settle e.background)) fun e s => r e (s.settle e.background)

/-- A step that only changes the state. -/
def change (u : State → State) : Prog Reply State Unit := stepTo (fun _ s => u s) fun _ _ => ()

def find {α : Type} (r : Reply → State → α) : Prog Reply State α := stepTo (fun _ s => s) r

/-- `apply_write`: false when the modem refuses. -/
def write (x : Setting) : Prog Reply State Bool :=
  stepTo (fun e s => s.send x e.taken) fun e _ => !e.refused

/-- `AT+SPFORCEFRQ=12,4` and `16,4`. -/
def clear (rat : Text) : Prog Reply State Bool :=
  stepTo (fun e s => s.clear rat e.taken) fun e _ => !e.refused

def ask (x : Setting) : Prog Reply State Unit := change fun s => s.note (.asked x)

/-! ## Programs -/

/-- `finish_reset_state`: the settings of a committed reset go, and then its tombstone. -/
def finishResetState : Prog Reply State Bool := do
  if ← find fun _ s => s.resetPending then
    change fun s => s.drop .mode
    change fun s => s.drop .endc
    change fun s => s.drop .lte
    change fun s => s.drop .nr
    change State.dropCell
    if ← find fun _ s => s.saves then
      return false
    else
      change fun s => { s with resetPending := false }
      return true
  else return true

def cellStateSeed : Prog Reply State Unit := do
  if ← find fun _ s => s.cell.isNone then
    change fun s => { s with cell := some [] }
    change State.seed

def cellStateAdd (c : Text) : Prog Reply State Unit := do
  cellStateSeed
  change fun s => s.addCell c

/-- `cell_state_remove`: all cells, or those of one kind. -/
def cellStateRemove (keep : Text → Bool) : Prog Reply State Unit := do
  cellStateSeed
  change fun s => { s with cell := s.cell.map fun cs => cs.filter keep }

/-- What can be asked of the cell lock. -/
inductive CellRequest : Type where
  | off
  | offNr
  | offLte
  /-- whatever cell serves -/
  | auto
  | lock (c : Text)

inductive Request : Type where
  | mode (v : Text)
  | endc (on : Bool)
  | bands (r : Rat) (v : Text)
  | cell (q : CellRequest)

/-- `valid_value`. -/
def Request.valid : Request → Bool
  | .mode v => v ∈ ["auto", "auto152", "4g", "sa", "nsa"].map String.toList
  | .endc _ => true
  | .bands _ v => validValue v
  | .cell (.lock c) => validCell c
  | .cell _ => true

/-- One setting with a file of its own. For `endc` the source also changes the page's cache; that is
left out. -/
def applyOne (k : Kind) (v : Text) : Prog Reply State Unit := do
  ask (.one k v)
  if ← write (.one k v) then change fun s => s.save k v

def applyMode (v : Text) : Prog Reply State Unit := do
  ask (.one .mode v)
  if ← write (.one .mode v) then
    if ← write (.one .mode v) then change fun s => s.save .mode v

/-- A list of bands: what is supported of it. -/
def applyBands (r : Rat) (v : Text) : Prog Reply State Unit := do
  let sup ← find fun e _ => e.supported
  if v ≠ [] ∧ filterBands v sup = [] then return ()
  else applyOne r.kind (filterBands v sup)

def lockCell (c : Text) : Prog Reply State Unit := do
  ask (.cell c)
  if ← write (.cell c) then cellStateAdd c

def applyCell : CellRequest → Prog Reply State Unit
  | .off => do
    if ← clear "lte" then
      if ← clear "nr" then cellStateRemove fun _ => false
  | .offNr => do
    if ← clear "nr" then cellStateRemove fun c => ratOf c ≠ "nr"
  | .offLte => do
    if ← clear "lte" then cellStateRemove fun c => ratOf c ≠ "lte"
  | .auto => do
    let serving ← find fun e _ => e.serving
    match serving with
    | some c => if validCell c then lockCell c else return ()
    | none => return ()
  | .lock c => lockCell c

def Request.prog : Request → Prog Reply State Unit
  | .mode v => applyMode v
  | .endc on => applyOne .endc (if on then "on" else "off")
  | .bands r v => applyBands r v
  | .cell q => applyCell q

/-- `do_apply`: an interrupted reset is finished first. -/
def doApply (q : Request) : Prog Reply State Unit := do
  if ¬ q.valid then return ()
  else if ¬ (← find fun e _ => e.ok) then return ()
  else if ← finishResetState then q.prog
  else return ()

/-- A write of the reset that is none of the cell locks. -/
def writeAutomatic : Prog Reply State Bool := find fun e _ => !e.refused

/-- `verify_retry`: the read-back, some times; no cell is locked when it agrees. -/
def verifyRetry : ℕ → Prog Reply State Bool
  | 0 => return false
  | n + 1 => do
    if ← find fun e s => e.ok && s.modem = [] then return true
    else verifyRetry n

/-- `do_reset`; true when it came to its end. -/
def doReset : Prog Reply State Bool := do
  if ¬ (← finishResetState) then return false
  -- the mode query
  else if ¬ (← find fun e _ => e.ok) then return false
  -- the mode, EN-DC and the bands
  else if ¬ (← each (fun _ : ℕ => writeAutomatic) (List.range 5)) then return false
  else if ¬ (← clear "lte") then return false
  else if ¬ (← clear "nr") then return false
  else if ¬ (← verifyRetry 3) then return false
  -- and again behind the restart of the stack
  else if ¬ (← verifyRetry 10) then return false
  else
    change State.commit
    if ¬ (← finishResetState) then return false
    else
      change State.repaint
      return true

def replayOne (k : Kind) : Prog Reply State Bool := do
  let v ← find fun _ s => s.files k
  match v with
  | none => return true
  | some v => do
    let _ ← write (.one k v)
    return true

/-- One line of `cell`. -/
def replayCell (c : Text) : Prog Reply State Bool := do
  if validCell c then
    let _ ← write (.cell c)
    return true
  else return true

/-- The saved cells, and no others. -/
def replayCells : Prog Reply State Unit := do
  let cells ← find fun _ s => s.cell
  match cells with
  | none => return ()
  | some cs => do
    let _ ← clear "lte"
    let _ ← clear "nr"
    let _ ← each replayCell cs
    return ()

def doReplay (early : Bool) : Prog Reply State Unit := do
  if ¬ (← find fun e _ => e.ok) then return ()
  else if ← find fun _ s => s.replayDone then return ()
  else if ← find fun _ s => s.replayOff then change fun s => { s with replayDone := true }
  else if ¬ (← finishResetState) then return ()
  else if ¬ (← find fun _ s => s.saves) then change fun s => { s with replayDone := true }
  else
    let _ ← each replayOne [.endc, .mode, .lte, .nr]
    replayCells
    -- `verify_replay`, on the way up only
    if early ∧ ¬ (← find fun e _ => e.ok) then return ()
    else change fun s => { s with replayDone := true }

/-! ## Runs -/

/-- What happens to the device; a program with too few answers is killed behind the last of them. -/
inductive Action : Type where
  | apply (q : Request) (es : List Reply)
  /-- `apply auto_apply` -/
  | autoApply (on : Bool)
  | reset (es : List Reply)
  | replay (early : Bool) (es : List Reply)
  /-- readings for the page, between two programs -/
  | background (bs : List Background)
  /-- `/run` is empty, and the modem may have forgotten cells -/
  | reboot (keeps : Text → Bool)

def State.step (s : State) : Action → State
  | .apply q es => (exec (doApply q) es s).state
  | .autoApply on => { s with replayOff := !on }
  | .reset es => (exec doReset es s).state
  | .replay early es => (exec (doReplay early) es s).state
  | .background bs => s.settle bs
  | .reboot keeps =>
    { s with replayDone := false, cache := none, readings := [], modem := s.modem.filter keeps }

def State.runs (s : State) (as : List Action) : State := as.foldl State.step s

/-- Nothing was ever saved; the modem may have locks, and the page cache may show them. -/
def start (shown : Option (List Text)) (modem : List Text) : State where
  files := fun _ => none
  cell := none
  resetPending := false
  replayOff := false
  replayDone := false
  cache := shown.map fun cells => ⟨cells, 0⟩
  readings := []
  modem := modem
  commits := 0
  log := []

/-! ## The history -/

/-- What happened since the last committed reset. -/
def sinceReset (log : List Event) : List Event := log.takeWhile (· ≠ .committed)

def beforeReset (log : List Event) : List Event := log.dropWhile (· ≠ .committed)

/-- A setting that was saved before the last committed reset, and was not asked for since. -/
def Stale (x : Setting) (log : List Event) : Prop :=
  .saved x ∈ beforeReset log ∧ .asked x ∉ sinceReset log

instance (x : Setting) (log : List Event) : Decidable (Stale x log) := instDecidableAnd

/-- What an event must not do: send what is stale, or delete what was saved since the reset. -/
def Event.Allowed (log : List Event) : Event → Prop
  | .sent x => ¬ Stale x log
  | .deleted x => .saved x ∉ sinceReset log
  | _ => True

instance (log : List Event) : (e : Event) → Decidable (e.Allowed log)
  | .sent _ | .deleted _ => instDecidableNot
  | .asked _ | .saved _ => .isTrue trivial
  | .committed => .isTrue trivial
  | .seeded _ => .isTrue trivial

def Final : List Event → Prop
  | [] => True
  | e :: before => e.Allowed before ∧ Final before

instance decFinal : (log : List Event) → Decidable (Final log)
  | [] => .isTrue trivial
  | _ :: before => @instDecidableAnd _ _ inferInstance (decFinal before)

end Mu300.Lock
