import Mu300.Lib.LockDir

/-!
# The lock of the message pool

`pool_lock` and `pool_unlock` of `mu300-sms`. The lock is a directory with a file `pid` in it;
whoever makes the directory has it, and one whose holder is no longer alive is removed and made
again.

* `Phase` — where a process is, between any two operations on files; `Removal` — the same for `rm
  -rf`.
* `World` — the directory, the contents of files, and every process there is or was.
* `step` — one operation of one process, or something that happens to it: it is started, told to
  stop or killed.
-/

namespace Mu300.PoolLock

open Function

open LockDir

/-! ## Processes -/

inductive Phase : Type where
  /-- there is no such process -/
  | gone
  /-- it works without the lock -/
  | outside
  /-- `mkdir`, after so many seconds -/
  | mkdir (n : ℕ)
  /-- `cat LOCK/pid` -/
  | readPid (n : ℕ)
  /-- `alive PID mu300-sms` -/
  | look (n : ℕ) (pid : Option Pid)
  /-- the lock of a dead holder is removed -/
  | takeOver (n : ℕ) (r : Removal)
  /-- `echo $$ > LOCK/pid`: the file is opened -/
  | openPid
  /-- and written, through this descriptor -/
  | writePid (fd : ℕ)
  /-- between `pool_lock` and `pool_unlock` -/
  | inside
  /-- `pool_unlock`, at its end or at the end of the process -/
  | unlock (r : Removal) (exits : Bool)
  deriving DecidableEq

/-- What a process is to the lock. -/
def Phase.role : Phase → Role
  | openPid => .opens
  | writePid fd => .writes fd
  | inside => .holds
  | look _ x => .looks x
  | takeOver _ _ | unlock _ _ => .removes
  | _ => .away

instance : HasRole Phase := ⟨Phase.role⟩

/-- `alive PID mu300-sms`: a process of the pool is. For any other number the world answers: it may
be another program by now. -/
def alive (w : World Phase) (pid : Option Pid) (answer : Bool) : Bool :=
  match pid with
  | none => false
  | some q => if w.phase q = .gone then answer else true

/-! ## Steps -/

inductive Action : Type where
  /-- a process is started -/
  | start (p : Pid)
  /-- it calls `pool_lock` -/
  | call (p : Pid)
  /-- its next operation; the answer is for `alive` -/
  | run (p : Pid) (answer : Bool)
  /-- it calls `pool_unlock`, or it ends inside: by itself, or by INT or TERM -/
  | leave (p : Pid) (exits : Bool)
  /-- it is killed -/
  | kill (p : Pid)
  deriving DecidableEq

def Action.pid : Action → Pid
  | start p | call p | run p _ | leave p _ | kill p => p

variable (w : World Phase)

/-- The next operation of a process. -/
def runStep (p : Pid) (answer : Bool) : World Phase :=
  match w.phase p with
  | .mkdir n =>
    if w.files.dir = none then w.put w.files.make p .openPid else w.set p (.readPid n)
  | .readPid n => w.set p (.look n w.files.pid)
  | .look n pid =>
    if alive w pid answer then w.set p (if n + 1 > 120 then .gone else .mkdir (n + 1))
    else w.set p (.takeOver n .list)
  | .takeOver n r => w.remove p r (.takeOver n) (.mkdir n)
  | .openPid =>
    -- where there is no directory, the shell goes on without
    match w.files.create with
    | none => w.set p .inside
    | some (fd, f) => w.put f p (.writePid fd)
  | .writePid fd => w.put (w.files.write fd p) p .inside
  | .unlock r exits => w.remove p r (.unlock · exits) (if exits then .gone else .outside)
  | _ => w

def step : Action → World Phase
  | .start p => if w.phase p = .gone then w.set p .outside else w
  | .call p => if w.phase p = .outside then w.set p (.mkdir 0) else w
  | .run p answer => runStep w p answer
  | .leave p exits => if w.phase p = .inside then w.set p (.unlock .list exits) else w
  | .kill p => w.set p .gone

/-- No process has the lock, or is about to have it or to remove it; what an earlier one left may be
there. -/
def Start : Prop := ∀ p, w.phase p = .gone ∨ w.phase p = .outside

/-- At most one process is between `pool_lock` and `pool_unlock`. -/
def Exclusive : Prop := ∀ p q, w.phase p = .inside → w.phase q = .inside → p = q

/-- The step does not come between two operations that belong together. -/
def Quiet : Action → Prop
  | .run p _ =>
    match w.phase p with
    | .readPid _ => ∀ q, (w.roles q).enters = false
    | .mkdir _ => w.files.dir = none → ∀ q, (w.roles q).threatens = false
    | _ => True
  | _ => True

/-! ## The invariant -/

/-- What holds between any two quiet steps. -/
def Inv : Prop := Safe w.files w.roles

namespace Inv

variable {w} {p : Pid} {ph : Phase} (h : Inv w)

include h

theorem away (hph : HasRole.role ph = .away) : Inv (w.set p ph) :=
  World.safe_put (hph ▸ Safe.leave h p)

theorem takeOver {n : ℕ} {pid : Option Pid} {answer : Bool} (hp : w.phase p = .look n pid)
    (halive : alive w pid answer = false) : Inv (w.set p (.takeOver n .list)) := by
  refine World.safe_put (h.condemn (World.role_of hp) fun q hq => ?_)
  subst hq
  -- a process of the pool is alive
  have hgone : w.phase q = .gone := by
    by_contra hne
    rw [alive, if_neg hne] at halive
    cases halive
  rw [World.role_of hgone]
  rfl

theorem remove {r : Removal} {more : Removal → Phase} {done : Phase} (hp : w.roles p = .removes)
    (hmore : ∀ r, (more r).role.owns = false) (hdone : done.role.owns = false) :
    Inv (w.remove p r more done) := by
  refine World.safe_put (Safe.remove h hp r ?_)
  cases (w.files.remove r).2 with
  | none => exact hdone
  | some r' => exact hmore r'

/-! ## Runs -/

theorem runStep (p : Pid) (answer : Bool) (hquiet : Quiet w (.run p answer)) :
    Inv (runStep w p answer) := by
  rw [Quiet] at hquiet
  unfold PoolLock.runStep
  cases hp : w.phase p with
  | gone | outside | inside => exact h
  | mkdir n =>
    rw [hp] at hquiet
    dsimp only
    split
    · next hdir => exact World.safe_put (Safe.make h hdir fun q _ => hquiet hdir q)
    · exact h.away rfl
  | readPid n =>
    rw [hp] at hquiet
    exact World.safe_put (Safe.read h p (.inr hquiet))
  | look n pid =>
    dsimp only
    split
    · split
      · exact h.away rfl
      · exact h.away rfl
    · next halive => exact h.takeOver hp (by simpa using halive)
  | takeOver n r => exact h.remove (World.role_of hp) (fun _ => rfl) rfl
  | openPid =>
    obtain ⟨fd, f, hcreate, hsafe⟩ := Safe.create h (World.role_of hp)
    dsimp only
    rw [hcreate]
    exact World.safe_put hsafe
  | writePid fd => exact World.safe_put (Safe.write h (World.role_of hp))
  | unlock r exits => exact h.remove (World.role_of hp) (fun _ => rfl) (by cases exits <;> rfl)

theorem step {a : Action} (hquiet : Quiet w a) : Inv (step w a) := by
  cases a with
  | run p answer => exact h.runStep p answer hquiet
  | start p | call p => exact iteInduction (motive := Inv) (fun _ => h.away rfl) fun _ => h
  | leave p exits =>
    refine iteInduction (motive := Inv) (fun hp => ?_) fun _ => h
    exact World.safe_put (Safe.release h (World.role_of hp))
  | kill p => exact h.away rfl

theorem run {as : List Action} (hquiet : Along PoolLock.step Quiet w as) :
    Inv (as.foldl PoolLock.step w) := by
  induction as generalizing w with
  | nil => exact h
  | cons a as ih => exact ih (h.step hquiet.1) hquiet.2

end Inv

/-- **One writer**: of any number of processes, in any order of their operations and with any of
them killed anywhere, at most one is inside, wherever no step comes between two operations that
belong together. -/
theorem one_writer (w : World Phase) (hw : Start w) (as : List Action)
    (hquiet : Along step Quiet w as) : Exclusive (as.foldl step w) := by
  have hstart : Inv w := .of_free fun p => by
    rcases hw p with hp | hp <;> rw [World.role_of hp] <;> rfl
  have hend := hstart.run hquiet
  have howns : ∀ p, (as.foldl step w).phase p = .inside → ((as.foldl step w).roles p).owns := by
    intro p hp
    rw [World.role_of hp]
    rfl
  exact fun p q hp hq => hend.one p q (howns p hp) (howns q hq)

/-! ## Samples -/

theorem step_phase (w : World Phase) (a : Action) (q : Pid) (h : q ≠ a.pid) :
    (step w a).phase q = w.phase q := by
  cases a <;> dsimp only [step, runStep]
  all_goals
    repeat' split
    all_goals first | rfl | exact World.phase_put h

/-- `Quiet`, among these processes. -/
def quietIn (ps : List Pid) : Action → Bool
  | .run p _ =>
    match w.phase p with
    | .readPid _ => ps.all fun q => !(w.roles q).enters
    | .mkdir _ => w.files.dir ≠ none || ps.all fun q => !(w.roles q).threatens
    | _ => true
  | _ => true

theorem quiet_of_quietIn (ps : List Pid) (w : World Phase) (a : Action) (hw : Only .gone ps w)
    (h : quietIn w ps a) : Quiet w a := by
  cases a with
  | run p answer =>
    rw [Quiet]
    rw [quietIn] at h
    split
    · next hp =>
      rw [hp] at h
      exact fun q => by simpa using hw.forall_roles (fun ρ => !ρ.enters) rfl h q
    · next hp =>
      rw [hp] at h
      intro hdir q
      rw [hdir] at h
      simpa using hw.forall_roles (fun ρ => !ρ.threatens) rfl h q
    · trivial
  | _ => trivial

def empty : World Phase := ⟨⟨none, fun _ => none, 0⟩, fun _ => .gone⟩

/-- Two processes want the lock. The second looks at it when the first has made the directory and
not yet written its number: nobody, so it removes the directory and makes its own. -/
def overtaken : List Action :=
  [.start 1, .start 2, .call 1, .call 2, .run 1 false] ++ List.replicate 8 (.run 2 false) ++
    [.run 1 false, .run 1 false]

/-- One after the other: the second looks when the first is inside, and waits. -/
def waiting : List Action :=
  [.start 1, .call 1, .run 1 false, .run 1 false, .run 1 false, .start 2, .call 2, .run 2 false,
    .run 2 false, .run 2 false]

/-- The one that waits does not write. -/
theorem one_writer_waiting : Exclusive (waiting.foldl step empty) :=
  one_writer empty (fun _ => .inl rfl) waiting
    (along_of_check step_phase (quiet_of_quietIn [1, 2]) (fun _ _ => rfl) (by decide) (by decide))

/-- **Two writers.** -/
theorem two_writers :
    ∃ (w : World Phase) (as : List Action), Start w ∧ ¬ Exclusive (as.foldl step w) := by
  refine ⟨empty, overtaken, fun _ => .inl rfl, fun h => ?_⟩
  have h₁ : (overtaken.foldl step empty).phase 1 = .inside := by decide
  have h₂ : (overtaken.foldl step empty).phase 2 = .inside := by decide
  exact absurd (h 1 2 h₁ h₂) (by decide)

end Mu300.PoolLock
