import Mu300.Lib.Crash
import Mu300.Lib.Directory

/-!
# Switching from one system to the next

`mu300-update` unpacks a new system beside the one in place and then swaps the two by renaming
directories. Four names play a part for each system: `OS` itself, `OS.new` while it is being
unpacked, `OS.old` for the copy `rollback` goes back to, and `OS.broken` for the one nothing goes
back to. The system that runs keeps its directory whatever its name, until the reboot.

* `run` — any sequence of these and reboots, each command cut off anywhere.

Downloads, unpacking and the carrying of files come in as answers: they end well or they do not,
and they write to `OS.new` only.
-/

namespace Mu300.Switch

open Crash Crash.Prog Directory Function

/-! ## The partition -/

/-- The names beside one another on the Linux partition. -/
inductive Name : Type where
  | os
  | old
  | broken
  | new
  deriving DecidableEq

instance : Fintype Name := ⟨{.os, .old, .broken, .new}, fun n => by cases n <;> simp⟩

/-- What was done to the directories. -/
inductive Event : Type where
  /-- a directory was moved -/
  | moved (src dst : Name)
  /-- an `rm -rf` started on a tree, in a system running from `root` -/
  | removed (tree : Dir Name) (root : Option ℕ)
  deriving DecidableEq

/-- The names, what runs, and what happened. -/
structure State where
  dirs : Listing Name
  /-- the directory the running system booted from -/
  root : Option ℕ
  /-- no directory has this number or a larger one -/
  next : ℕ
  /-- the newest first -/
  log : List Event

/-- How the outside answers a step. -/
structure Answer where
  /-- a rename works -/
  moves : Bool
  /-- an `rm -rf` gets to its end -/
  clears : Bool
  /-- what an `rm -rf` under way has not got to -/
  keeps : Name → Bool
  /-- downloading, unpacking or carrying the files over works -/
  works : Bool

inductive Result : Type where
  | updated
  | rolledBack
  | cleaned
  /-- there was nothing to do -/
  | nothing
  | died
  deriving DecidableEq

namespace State

/-- `is_root`: the running system booted from the directory of this name. -/
def IsRoot (s : State) (n : Name) : Prop := ∃ d, s.dirs n = some d ∧ s.root = some d.id

instance (s : State) (n : Name) : Decidable (s.IsRoot n) :=
  match h : s.dirs n with
  | none => isFalse fun ⟨d, hd, _⟩ => by rw [h] at hd; cases hd
  | some d => decidable_of_iff (s.root = some d.id)
      ⟨fun hr => ⟨d, h, hr⟩, fun ⟨d', hd', hr⟩ => by rw [h] at hd'; cases hd'; exact hr⟩

/-- An `rm -rf` has started on the directory of this name. -/
def tear (s : State) (n : Name) (keeps : Name → Bool) : State :=
  match s.dirs n with
  | none => s
  | some d =>
    { s with
      dirs := update s.dirs n (some (d.left keeps))
      log := .removed d s.root :: s.log }

/-- The directory of this name is gone. -/
def drop (s : State) (n : Name) : State := { s with dirs := update s.dirs n none }

/-- A rename, where it can be done. -/
def move (s : State) (src dst : Name) : State :=
  match mv s.dirs src dst with
  | none => s
  | some dirs => { s with dirs := dirs, log := .moved src dst :: s.log }

/-- `mkdir -p OS.new`: a new directory unless there is one. -/
def mkdir (s : State) : State :=
  match s.dirs .new with
  | none =>
    { s with dirs := update s.dirs .new (some ⟨s.next, false, .empty⟩), next := s.next + 1 }
  | some _ => s

/-- `OS.new` has all its files. -/
def fill (s : State) : State :=
  { s with dirs := update s.dirs .new ((s.dirs .new).map fun d => { d with whole := true }) }

variable (s : State) {n m : Name}

@[simp] theorem tear_root (n : Name) (keeps : Name → Bool) : (s.tear n keeps).root = s.root := by
  rw [tear]
  split <;> rfl

theorem tear_dirs_of_ne (h : m ≠ n) (keeps : Name → Bool) : (s.tear n keeps).dirs m = s.dirs m := by
  rw [tear]
  split
  · rfl
  · exact update_of_ne h ..

@[simp] theorem drop_dirs_self (n : Name) : (s.drop n).dirs n = none := update_self ..

theorem drop_dirs_of_ne (h : m ≠ n) : (s.drop n).dirs m = s.dirs m := update_of_ne h ..

theorem tear_drop_dirs (n : Name) (keeps : Name → Bool) :
    ((s.tear n keeps).drop n).dirs = update s.dirs n none := by
  funext m
  by_cases hm : m = n
  · subst hm
    rw [drop_dirs_self, update_self]
  · rw [drop_dirs_of_ne _ hm, tear_dirs_of_ne _ hm, update_of_ne hm]

theorem move_of_some {dirs : Listing Name} {src dst : Name} (h : mv s.dirs src dst = some dirs) :
    s.move src dst = { s with dirs := dirs, log := .moved src dst :: s.log } := by
  rw [move, h]

@[simp] theorem mkdir_root : s.mkdir.root = s.root := by
  rw [mkdir]
  split <;> rfl

@[simp] theorem mkdir_log : s.mkdir.log = s.log := by
  rw [mkdir]
  split <;> rfl

theorem mkdir_dirs_of_ne (h : m ≠ .new) : s.mkdir.dirs m = s.dirs m := by
  rw [mkdir]
  split
  · exact update_of_ne h ..
  · rfl

variable {s}

theorem IsRoot.congr {s' : State} (h : s.IsRoot n) (hd : s'.dirs n = s.dirs n)
    (hr : s'.root = s.root) : s'.IsRoot n := by
  obtain ⟨d, hn, hroot⟩ := h
  exact ⟨d, hd.trans hn, hr.trans hroot⟩

end State

/-! ## The script -/

def isRoot (n : Name) : Prog Answer State Bool := test fun s => s.IsRoot n

/-- `[ -d ]`. -/
def isDir (n : Name) : Prog Answer State Bool := test fun s => (s.dirs n).isSome

/-- Something of the outside that works or does not. -/
def works : Prog Answer State Bool := look fun e _ => e.works

/-- `rm -rf`: under way, then at its end or stopped. What it returns is not looked at. -/
def rm (n : Name) : Prog Answer State Unit := do
  op (fun e s => s.tear n e.keeps) fun _ _ => ()
  op (fun e s => if e.clears then s.drop n else s) fun _ _ => ()

def mv (src dst : Name) : Prog Answer State Bool :=
  op (fun e s => if e.moves then s.move src dst else s)
    fun e s => e.moves && (Directory.mv s.dirs src dst).isSome

/-- `is_root DIR || rm -rf DIR`. -/
def rmUnlessRoot (n : Name) : Prog Answer State Unit := do
  if ← isRoot n then return () else rm n

/-- `die` once `OS.new` is being made: `unpack_abort`, from the EXIT trap, takes it away. -/
def die : Prog Answer State Result := do
  rm .new
  return .died

/-- The renames of `apply_one`: the system in place goes to `aside`. -/
def renames (aside : Name) : Prog Answer State Result := do
  rm .old
  if ← mv .os aside then
    if ← mv .new .os then return .updated
    else do
      let _ ← mv aside .os
      die
  else die

/-- `apply_one` from "switching over" on. Files carried by link leave no copy to go back to: the
system in place becomes `OS.broken`. -/
def switchOver (link : Bool) : Prog Answer State Result := do
  if ← isRoot .old then die
  else if link then
    if ← isRoot .broken then die
    else do
      rm .broken
      renames .broken
  else renames .old

def applyOne (noRollback : Bool) : Prog Answer State Result := do
  rm .new
  act State.mkdir
  if ← works then
    act State.fill
    -- a system without what carries the files over keeps the listed settings and its old copy
    let carried ← works
    switchOver (carried && noRollback)
  else die

/-- `delta_clean`, for `OS.new`. -/
def deltaClean : Prog Answer State Unit := rmUnlessRoot .new

def cleanBroken : Prog Answer State Unit := rmUnlessRoot .broken

/-- `apply`, with or without `--no-rollback`. A system that has the release already is passed over
(`already TAG`); that path is left out. -/
def apply (noRollback : Bool) : Prog Answer State Result := do
  if ← isDir .os then
    if ← isRoot .old then return .died
    else do
      cleanBroken
      deltaClean
      if ← works then applyOne noRollback else return .died
  else return .died

/-- The renames of `rollback`, and what is done with the system they put away. -/
def goBack : Prog Answer State Result := do
  if ← mv .os .broken then
    if ← mv .old .os then
      rmUnlessRoot .broken
      return .rolledBack
    else do
      let _ ← mv .broken .os
      return .died
  else return .died

def rollback : Prog Answer State Result := do
  if ← isDir .old then
    if ← isRoot .old then return .nothing
    else do
      rmUnlessRoot .broken
      goBack
  else return .nothing

def clean : Prog Answer State Result := do
  rmUnlessRoot .old
  rmUnlessRoot .broken
  return .cleaned

/-! ## Rules -/

section Rules

variable {s : State} {A : Answer → Prop} {C : State → Prop} {Q : Unit → State → Prop} {n : Name}

/-- Every `rm -rf` gets to its end. -/
def Clears (e : Answer) : Prop := e.clears

theorem wp_rm_clears (h : C s)
    (htear : ∀ keeps, C (s.tear n keeps)) (hQ : ∀ keeps, Q () ((s.tear n keeps).drop n)) :
    wp Clears C Q (rm n) s := by
  refine wp_step h fun e _ => ?_
  rw [wp_op]
  refine ⟨htear e.keeps, fun e' he' => ?_⟩
  have he' : e'.clears := he'
  rw [if_pos he']
  exact hQ e.keeps

theorem wp_rmUnlessRoot_clears (h : C s) (hroot : s.IsRoot n → Q () s)
    (hrm : ¬ s.IsRoot n → (∀ keeps, C (s.tear n keeps)) ∧ ∀ keeps, Q () ((s.tear n keeps).drop n)) :
    wp Clears C Q (rmUnlessRoot n) s := by
  refine wp_step h fun _ _ => ?_
  refine wp_if (fun hr => hroot (of_decide_eq_true hr)) fun hr => ?_
  obtain ⟨htear, hQ⟩ := hrm fun hr' => hr (decide_eq_true hr')
  exact wp_rm_clears h htear hQ

/-- A rename: it fails and nothing changes, or it is made. Where renames work, it fails only when
it cannot be made. -/
theorem wp_mv {Q : Bool → State → Prop} {src dst : Name} (h : C s)
    (hfails : ((∀ e, A e → e.moves) → Directory.mv s.dirs src dst = none) → Q false s)
    (hQ : ∀ dirs, Directory.mv s.dirs src dst = some dirs →
      Q true { s with dirs := dirs, log := .moved src dst :: s.log }) :
    wp A C Q (mv src dst) s := by
  rw [mv, wp_op]
  refine ⟨h, fun e he => ?_⟩
  cases hm : e.moves with
  | false =>
    refine hfails fun hall => ?_
    rw [hall e he] at hm
    cases hm
  | true =>
    rcases hmv : Directory.mv s.dirs src dst with _ | dirs
    · rw [State.move, hmv]
      exact hfails fun _ => hmv
    · rw [s.move_of_some hmv]
      exact hQ dirs hmv

end Rules

/-! ## Whole histories -/

/-- What a user, or a power cut, can do. A command ends or is cut off where its answers end. -/
inductive Action : Type where
  | apply (noRollback : Bool) (es : List Answer)
  | rollback (es : List Answer)
  | clean (es : List Answer)
  /-- into the system at `OS`, when there is one -/
  | reboot

def step (s : State) : Action → State
  | .apply noRollback es => (exec (apply noRollback) es s).state
  | .rollback es => (exec rollback es s).state
  | .clean es => (exec clean es s).state
  | .reboot => { s with root := (s.dirs .os).map Dir.id }

def run (s : State) (as : List Action) : State := as.foldl step s

/-- A system just installed, and running. -/
def installed : State where
  dirs n := if n = .os then some ⟨0, true, .empty⟩ else none
  root := some 0
  next := 1
  log := []

end Mu300.Switch
