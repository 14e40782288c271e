import Mu300.Lib.Crash
import Mu300.Sms.Sync

/-!
# Moving messages off the SIM

`sync` and `import-pdu` of `mu300-sms`, step by step: what is listed goes into the pool, and what
the pool has dealt with goes from the SIM and from the parked parts.

* `State` — the SIM, the messages and the tombstones of the pool with what of them is on the disk,
  and the parked parts; beside them the history of what was relied on and of what was removed.
* `State.left` — the files that a message is written to before it gets its name. What is killed or
  fails between the two leaves such a file behind, and `parts_pooled` reads the part ids of it too.

What `durable` was called on survives a power cut, and nothing else has to. Before every step the
network and other clients may change any slot of the SIM. Which messages wait, and for how long, is
left open.
-/

namespace Mu300.Sms

open Shell Crash Crash.Prog

/-! ## What is listed -/

/-- The letters of a PDU, as they are compared. -/
def upper (t : Text) : Text := t.map Char.toUpper

/-- `^[0-9]+$`: a slot of the SIM, and no parked part. -/
def isSlot (index : Text) : Bool := index ≠ [] && index.all Char.isDigit

/-- `[0-9A-Fa-f]+`. -/
def isHex (t : Text) : Bool :=
  t ≠ [] && t.all fun ch => ch.isDigit || ('a' ≤ ch && ch ≤ 'f') || ('A' ≤ ch && ch ≤ 'F')

/-- The PDU that was listed for a slot or a parked part. -/
def listedPdu (rows : List (Text × Text)) (index : Text) : Text :=
  ((rows.find? fun p => slotOf p.1 = index).map fun p => upper p.2).getD []

def fingerprint (md5 : Text → Text) (m : Message) : Text :=
  md5 (m.sender ++ '|' :: (m.ts ++ '|' :: m.text))

/-- A line of `decode_list` as `absorb` reads it. -/
structure Line where
  idxs : List Text
  fp : Text
  whole : Bool
  /-- `part_ids` -/
  ids : List Text

/-- The lines, those of whole messages first. -/
def decodeList (md5 : Text → Text) (same : Text → Text → Bool) (partials : List Text)
    (rows : List (Text × Text)) : List Line :=
  let es := (entries (keyed same partials (rows.filterMap fun p => decodePdu p.1 p.2))).map Prod.snd
  let line := fun e : Entry => Line.mk e.slots (fingerprint md5 ⟨e.snd, e.ts, e.text⟩) e.whole
    (e.slots.map fun i => md5 (listedPdu rows i))
  (es.filter fun e => e.whole).map line ++ (es.filter fun e => ¬ e.whole).map line

def Line.simSlots (l : Line) : List Text := l.idxs.filter isSlot

/-- The part ids that are kept with a message. -/
def Line.keptIds (l : Line) : List Text := if l.whole ∧ l.idxs.length ≤ 1 then [] else l.ids

/-- A line of `_move`, with what is to be removed there. -/
structure Move where
  index : Text
  fp : Text
  id : Text
  deriving DecidableEq

/-- The lines of `_move` for a message. -/
def Line.moves (l : Line) : List Move := (l.idxs.zip l.ids).map fun p => ⟨p.1, l.fp, p.2⟩

/-! ## State -/

structure Stored where
  fp : Text
  partIds : List Text
  simIndex : List Text
  /-- the file is on the disk -/
  data : Bool
  /-- its name is on the disk -/
  name : Bool

/-- What runs came upon, and what they removed. -/
inductive Event : Type where
  /-- a message was taken for known: a message of the pool that accounts for it has its name on the
  disk, or this run brings it there -/
  | relied (named : Bool)
  /-- `set_hdr` replaced the file of a message -/
  | rewrote
  /-- tombstones were dropped, and others stay -/
  | pruned (others : Bool)
  /-- a slot changed behind the check of it -/
  | slipped
  /-- a slot was deleted: it held what was listed, and the disk has what it was -/
  | slot (same safe : Bool)
  /-- a parked part was removed: the disk has what it was -/
  | part (safe : Bool)
  deriving DecidableEq

/-- The SIM, the pool and the history. -/
structure State where
  sim : Text → Option Text
  msgs : List Stored
  /-- the files `ID.part` among the messages, with the part ids in them -/
  left : List (Text × List Text)
  /-- the tombstones -/
  deleted : List Text
  /-- the tombstones of before, while the list is not on the disk -/
  old : Option (List Text)
  /-- the parked parts: name and PDU -/
  parts : List (Text × Text)
  /-- the last event first -/
  log : List Event

def Stored.durable (m : Stored) : Bool := m.data && m.name

/-- A message accounts for what is to be removed. -/
def Stored.accounts (m : Stored) (mv : Move) : Bool := m.fp = mv.fp || mv.id ∈ m.partIds

namespace State

variable (s : State)

def note (e : Event) : State := { s with log := e :: s.log }

/-- What the network and other clients do to the SIM. -/
def settle (others : List (Text × Option Text)) : State :=
  { s with sim := others.foldl (fun sim p => Function.update sim p.1 p.2) s.sim }

/-- The disk has a message or a tombstone for what is to be removed. -/
def covers (mv : Move) : Bool :=
  s.msgs.any (fun m => m.durable && m.accounts mv) ||
    (s.old.isNone && (mv.fp ∈ s.deleted || mv.id ∈ s.deleted))

/-- A message is known by its fingerprint. -/
def rely (new : ℕ) (l : Line) : State :=
  s.note (.relied (s.msgs.any fun m => m.fp = l.fp && (m.name || 0 < new)))

def relyParts (new : ℕ) (l : Line) : State :=
  s.note (.relied (l.ids.all fun i =>
    i ∈ s.deleted || s.msgs.any fun m => i ∈ m.partIds && (m.name || 0 < new)))

/-- The pool has other slots for the message. -/
def shifted (l : Line) : Bool :=
  (s.msgs.find? fun m => m.fp = l.fp).any fun m => m.simIndex ≠ l.simSlots

/-- `set_hdr FILE sim_index`: a new file takes the name of the old one. Its `.part` has no ids that
the message does not have. -/
def rewrite (l : Line) : State :=
  ({ s with msgs := s.msgs.modify (s.msgs.findIdx fun m => m.fp = l.fp) fun m =>
      { m with simIndex := l.simSlots, data := false, name := false } } : State).note .rewrote

/-- `> ID.part`: a file that is left there is replaced. -/
def write (id : Text) (ids : List Text) : State :=
  { s with left := s.left.filter (fun p => p.1 ≠ id) ++ [(id, ids)] }

/-- `mv ID.part ID`: the file is on the disk before it gets its name. -/
def store (id : Text) (l : Line) : State :=
  { s with
    msgs := s.msgs ++ [⟨l.fp, l.keptIds, l.simSlots, true, false⟩]
    left := s.left.filter fun p => p.1 ≠ id }

/-- The tombstones of what was not listed are dropped. -/
def prune (seen : List Text) : State :=
  let kept := s.deleted.filter (· ∈ seen)
  if kept = s.deleted then s
  else
    ({ s with deleted := kept, old := some (s.old.getD [] ++ s.deleted) } : State).note
      (.pruned (kept ≠ []))

/-- `durable MSGDIR`: the names of all messages. -/
def sync : State := { s with msgs := s.msgs.map fun m => { m with name := true } }

/-- What others do, behind the check of a slot. -/
def slip (others : List (Text × Option Text)) (mv : Move) : State :=
  if (s.settle others).sim mv.index = s.sim mv.index then s.settle others
  else (s.settle others).note .slipped

/-- `AT+CMGD`. -/
def deleteSlot (want : Text) (mv : Move) : State :=
  ({ s with sim := Function.update s.sim mv.index none } : State).note
    (.slot ((s.sim mv.index).map upper = some want) (s.covers mv))

/-- `rm -f PARTS/NAME`. -/
def dropPart (mv : Move) : State :=
  ({ s with parts := s.parts.filter fun p => p.1 ≠ mv.index } : State).note (.part (s.covers mv))

end State

structure Reply where
  /-- the modem, or the disk, does what it is told -/
  ok : Bool
  /-- a message with missing parts has waited, or its other parts are in the pool -/
  due : Bool
  /-- every store of the modem answered -/
  sure : Bool
  /-- the slots that are listed, with their states -/
  listed : List (Text × Text)
  /-- what `POOL/partial` has -/
  partials : List Text
  /-- the name of a new file: a message gets the next id, which no message has, a parked part the
  second and the process id -/
  name : Text
  /-- the part ids in a file that could not be written to its end -/
  torn : List Text
  /-- what becomes of slots before the step -/
  others : List (Text × Option Text)

/-! ## Steps -/

/-- One step of a program, behind what others do. -/
def stepTo {α : Type} (u : Reply → State → State) (r : Reply → State → α) : Prog Reply State α :=
  op (fun e s => u e (s.settle e.others)) fun e s => r e (s.settle e.others)

/-- A step that only changes the state. -/
def change (u : State → State) : Prog Reply State Unit := stepTo (fun _ s => u s) fun _ _ => ()

def find {α : Type} (r : Reply → State → α) : Prog Reply State α := stepTo (fun _ s => s) r

/-- `sim_raw`: `SLOT:STAT` and the PDU. -/
def State.simRaw (s : State) (listed : List (Text × Text)) : List (Text × Text) :=
  (listed.filter fun p => isSlot p.1).filterMap fun p =>
    ((s.sim p.1).filter fun pdu => isHex pdu && 4 ≤ pdu.length).map fun pdu =>
      (p.1 ++ ':' :: p.2, pdu)

def State.partsRaw (s : State) : List (Text × Text) :=
  (s.parts.filter fun p => isHex p.2).map fun p => (p.1 ++ [':', '0'], p.2)

/-! ## Programs -/

/-- The variables and the lists of a run. -/
structure Local where
  fps : List Text
  move : List Move
  seen : List Text
  new : ℕ
  pooled : Option (List Text)

namespace Local

/-- A message goes from the SIM and from the parts. -/
def out (v : Local) (l : Line) : Local := { v with move := v.move ++ l.moves }

/-- The tombstones of what was listed stay. -/
def see (v : Local) (ts : List Text) : Local := { v with seen := v.seen ++ ts }

def took (v : Local) (l : Line) : Local :=
  { v.out l with fps := v.fps ++ [l.fp], new := v.new + 1 }

end Local

def knownOrDead (l : Line) (v : Local) : Prog Reply State (Option Local) := do
  if ← find fun _ s => decide (l.fp ∈ s.deleted) then return some (v.out l)
  else if l.fp ∉ v.fps then return none
  else
    if ← find fun _ s => s.shifted l then change fun s => s.rewrite l
    change fun s => s.rely v.new l
    return some (v.out l)

/-- `store_msg` up to the rename: the id, or nothing when the file is not written to its end. -/
def writeMsg (l : Line) : Prog Reply State (Option Text) :=
  stepTo (fun e s => s.write e.name (if e.ok then l.keptIds else e.torn))
    fun e _ => if e.ok then some e.name else none

/-- A file that gets no name stays where it is. -/
def take (l : Line) (v : Local) : Prog Reply State Local := do
  match ← writeMsg l with
  | none => return v
  | some id =>
    if ← stepTo (fun e s => if e.ok then s.store id l else s) fun e _ => e.ok then return v.took l
    else return v

/-- The list of `parts_pooled`, made once: of every file that begins with a digit, so of those that
were left behind as well. -/
def poolParts (v : Local) : Prog Reply State (List Text) :=
  match v.pooled with
  | some ids => return ids
  | none => find fun _ s =>
    s.msgs.flatMap Stored.partIds ++ s.left.flatMap Prod.snd ++ s.deleted

def absorbPart (l : Line) (v : Local) : Prog Reply State Local := do
  let v := v.see l.ids
  let ids ← poolParts v
  let v := { v with pooled := some ids }
  if l.ids ≠ [] ∧ ∀ i ∈ l.ids, i ∈ ids then
    change fun s => s.relyParts v.new l
    return v.out l
  else if ← find fun e _ => e.due then take l v
  else return v

def absorbLine (l : Line) (v : Local) : Prog Reply State Local := do
  let v := v.see [l.fp]
  match ← knownOrDead l v with
  | some v => return v
  | none => if l.whole then take l v else absorbPart l v

def absorbLines : List Line → Local → Prog Reply State Local
  | [], v => return v
  | l :: ls, v => do
    let v ← absorbLine l v
    absorbLines ls v

/-- `AT+CMGD`, behind what others do. -/
def cmgd (want : Text) (mv : Move) : Prog Reply State Unit :=
  op (fun e s => if e.ok then (s.slip e.others mv).deleteSlot want mv else s.slip e.others mv)
    fun _ _ => ()

/-- `sim_move`: each slot only when it still holds what was listed. -/
def simMove (raw : List (Text × Text)) : List Move → Prog Reply State Unit
  | [] => return ()
  | mv :: mvs => do
    let want := listedPdu raw mv.index
    let got ← find fun e s => if e.ok then (s.sim mv.index).map upper else none
    if want ≠ [] ∧ got = some want then cmgd want mv
    simMove raw mvs

def dropParts : List Move → Prog Reply State Unit
  | [] => return ()
  | mv :: mvs => do
    change fun s => s.dropPart mv
    dropParts mvs

/-- What is listed: nothing of the SIM for `parts`, and no listing at all when the modem fails. -/
def listSim (sim : Bool) : Prog Reply State (Option (List (Text × Text))) :=
  if sim then find fun e s => if e.ok then some (s.simRaw e.listed) else none else return some []

section Absorb

variable (md5 : Text → Text) (same : Text → Text → Bool)

/-- `absorb` under the pool lock. -/
def absorbLocked (sim : Bool) (raw : List (Text × Text)) : Prog Reply State Local := do
  let rows ← find fun _ s => raw ++ s.partsRaw
  let partials ← find fun e _ => e.partials
  let fps ← find fun _ s => s.msgs.map Stored.fp
  let v ← absorbLines (decodeList md5 same partials rows) ⟨fps, [], [], 0, none⟩
  if sim then stepTo (fun e s => if e.sure then s.prune v.seen else s) fun _ _ => ()
  return v

/-- `absorb sim` and `absorb parts`. -/
def absorb (sim : Bool) : Prog Reply State Unit := do
  match ← listSim sim with
  | none => return ()
  | some raw =>
    let v ← absorbLocked md5 same sim raw
    if 0 < v.new then change State.sync
    simMove raw (v.move.filter fun mv => isSlot mv.index)
    dropParts (v.move.filter fun mv => ¬ isSlot mv.index ∧ mv.index.head? = some 'p')

/-- `import-pdu`: the PDU is parked first. -/
def importPdu (pdu : Text) : Prog Reply State Unit := do
  if isHex pdu ∧ pdu.length % 2 = 0 ∧ pdu.length ≤ 1024 ∧
      (decodePdu ['p', ':', '0'] pdu).isSome then
    if ← stepTo
        (fun e s => if e.ok ∧ 'p' :: e.name ∉ s.parts.map Prod.fst then
          { s with parts := s.parts ++ [('p' :: e.name, pdu)] } else s)
        (fun e s => decide (e.ok ∧ 'p' :: e.name ∉ s.parts.map Prod.fst)) then
      absorb md5 same false

/-! ## Runs -/

/-- What happens; a program with too few answers is killed behind the last of them. -/
inductive Action : Type where
  | sync (es : List Reply)
  | importPdu (pdu : Text) (es : List Reply)
  /-- the power goes: what is not on the disk is lost, or is there all the same, with one
  `sim_index` or another; whatever is left behind -/
  | cut (msgs : Stored → Option (List Text)) (left : List (Text × List Text))
    (tombstone : Text → Bool) (part : Text → Bool)

def Stored.afterCut (survives : Stored → Option (List Text)) (m : Stored) : Option Stored :=
  if m.durable then some m
  else (survives m).map fun slots => ⟨m.fp, m.partIds, slots, true, true⟩

def State.step (s : State) : Action → State
  | .sync es => (exec (absorb md5 same true) es s).state
  | .importPdu pdu es => (exec (importPdu md5 same pdu) es s).state
  | .cut msgs left tombstone part =>
    { s with
      msgs := s.msgs.filterMap (Stored.afterCut msgs)
      left := left
      deleted := match s.old with
        | none => s.deleted
        | some old => (old ++ s.deleted).filter tombstone
      old := none
      parts := s.parts.filter fun p => part p.1 }

def State.runs (s : State) (as : List Action) : State := as.foldl (State.step md5 same) s

end Absorb

/-- Nothing happened yet, and the pool is on the disk. -/
structure State.Start (s : State) : Prop where
  durable : ∀ m ∈ s.msgs, m.durable
  tombstones : s.old = none
  log : s.log = []

/-- What a run should not come upon. -/
def Event.Clean : Event → Bool
  | .relied named => named
  | .rewrote => false
  | .pruned others => !others
  | .slipped => false
  | .slot _ _ | .part _ => true

/-- What is removed was what was listed, and the disk has what it was. -/
def Event.Safe : Event → Bool
  | .slot same safe => same && safe
  | .part safe => safe
  | _ => true

end Mu300.Sms
