import Mu300.Lib.LockDir

/-!
# The lock of the updater without `flock`

`lock_take` and `lock_drop` of `mu300-update` on a system without `flock`: the directory `held`,
with the holder's number in it.

* `step` — one operation of one process, or something that happens to it: it is started, goes on as
  the updater of the release, ends or is killed.
-/

namespace Mu300.UpdateLock

open Function

open LockDir

/-! ## Processes -/

/-- What a process does next. `again` is a run that goes on as the release's updater, with its
number in the lock; `tried` is `_try`. -/
inductive Phase : Type where
  /-- it has not been started -/
  | unborn
  /-- it has ended -/
  | gone
  /-- it has not called `lock_take` -/
  | outside
  /-- `mkdir held` -/
  | mkdir (again tried : Bool)
  /-- `[ -d held ]` -/
  | test (again tried : Bool)
  /-- `lock_pid held/pid` -/
  | read (again tried : Bool)
  /-- the same, a second later -/
  | second (tried : Bool)
  /-- `update_alive` -/
  | look (tried : Bool) (x : Option Pid)
  /-- `rm -rf held`, of one that is gone -/
  | takeOver (r : Removal)
  /-- `echo $$ > held/pid`: the file is opened -/
  | openPid
  /-- and written, through this descriptor -/
  | writePid (fd : ℕ)
  /-- `lock_take` has returned -/
  | inside
  /-- `lock_drop`, the number is read -/
  | drop
  /-- `rm -rf held`, of its own -/
  | unlock (r : Removal)
  deriving DecidableEq

namespace Phase

/-- What a process is to the lock. A run that goes on has it all along. -/
def role : Phase → Role
  | mkdir true _ | test true _ | read true _ | inside | drop => .holds
  | look _ x => .looks x
  | takeOver _ | unlock _ => .removes
  | openPid => .opens
  | writePid fd => .writes fd
  | _ => .away

def live : Phase → Bool
  | unborn | gone => false
  | _ => true

/-- Its number may be in a file: it has been on its way to writing it. -/
def past : Phase → Bool
  | unborn | outside | mkdir false _ | test false _ | read false _ | second _ | look _ _ |
    takeOver _ => false
  | _ => true

end Phase

instance : HasRole Phase := ⟨Phase.role⟩

/-- `update_alive PID`: an updater is. For a number of none the world answers: it may be no process
at all, or one whose command line has the name in it. -/
def alive (w : World Phase) (x : Option Pid) (answer : Bool) : Bool :=
  match x with
  | none => false
  | some q => if (w.phase q).live then true else answer

/-! ## Steps -/

inductive Action : Type where
  /-- a process is started, with a number that none had before -/
  | start (p : Pid)
  /-- it calls `lock_take` -/
  | call (p : Pid)
  /-- it goes on as the updater of the release, which calls `lock_take` -/
  | again (p : Pid)
  /-- its next operation; the answer is for `update_alive` -/
  | run (p : Pid) (answer : Bool)
  /-- it ends, and calls `lock_drop` -/
  | leave (p : Pid)
  /-- it is killed -/
  | kill (p : Pid)
  deriving DecidableEq

/-- What is done with the number that is in the file. -/
def afterRead (p : Pid) (tried : Bool) (x : Option Pid) : Phase :=
  if x = some p then .inside else if x = none then .second tried else .look tried x

/-- The next operation of a process. -/
def runStep (w : World Phase) (p : Pid) (answer : Bool) : World Phase :=
  match w.phase p with
  | .mkdir again tried =>
    if w.files.dir = none then w.put w.files.make p .openPid else w.set p (.test again tried)
  | .test again tried =>
    -- "cannot make"
    if w.files.dir = none then w.set p .gone else w.set p (.read again tried)
  | .read _ tried => w.set p (afterRead p tried w.files.pid)
  | .second tried => w.set p (.look tried w.files.pid)
  | .look tried x =>
    -- "another mu300-update is running", also when it is there again after one takeover
    if alive w x answer || tried then w.set p .gone else w.set p (.takeOver .list)
  | .takeOver r => w.remove p r .takeOver (.mkdir false true)
  | .openPid =>
    match w.files.create with
    | none => w.set p .inside
    | some (fd, f) => w.put f p (.writePid fd)
  | .writePid fd => w.put (w.files.write fd p) p .inside
  | .drop => if w.files.pid = some p then w.set p (.unlock .list) else w.set p .gone
  | .unlock r => w.remove p r .unlock .gone
  | _ => w

def step (w : World Phase) : Action → World Phase
  | .start p => if w.phase p = .unborn then w.set p .outside else w
  | .call p => if w.phase p = .outside then w.set p (.mkdir false false) else w
  | .again p => if w.phase p = .inside then w.set p (.mkdir true false) else w
  | .run p answer => runStep w p answer
  | .leave p => if w.phase p = .inside then w.set p .drop else w
  | .kill p => if w.phase p = .unborn then w else w.set p .gone

/-- No process has called `lock_take` yet, but for those that have ended; what they left may be
there. -/
structure Start (w : World Phase) : Prop where
  idle : ∀ p, w.phase p = .unborn ∨ w.phase p = .outside ∨ w.phase p = .gone
  left : ∀ i p, w.files.content i = some p → w.phase p = .gone

/-- At most one live process has the lock. -/
def Exclusive (w : World Phase) : Prop := ∀ p q, w.roles p = .holds → w.roles q = .holds → p = q

/-- Nobody looks a second time while a process has made the directory and not written its number. -/
def Prompt (w : World Phase) : Action → Prop
  | .run p _ => ∀ tried, w.phase p = .second tried → ∀ q, (w.roles q).enters = false
  | _ => True

/-- Nobody makes the directory while another has read a number and not dealt with it, or is
removing. -/
def Apart (w : World Phase) : Action → Prop
  | .run p _ => ∀ again tried, w.phase p = .mkdir again tried → w.files.dir = none →
      ∀ q, (w.roles q).threatens = false
  | _ => True

/-! ## The invariant -/

/-- What holds between any two steps that are prompt and apart: the lock is safe, and a number in a
file is of a process that has been on its way to writing it. -/
structure Inv (w : World Phase) : Prop where
  safe : Safe w.files w.roles
  wrote : ∀ i p, w.files.content i = some p → (w.phase p).past

namespace Inv

variable {w : World Phase} {f : Files} {p : Pid} {ph : Phase}

/-- A process that never had the lock owes nothing for it. -/
theorem of_not_past {b : Prop} (hp : w.phase p = ph) (hph : ph.past = false)
    (hpast : (w.phase p).past) : b := by
  rw [hp, hph] at hpast
  cases hpast

section

variable (h : Inv w) {tried : Bool} {fd : ℕ}

include h

theorem put (hsafe : Safe f (update w.roles p ph.role)) (hpast : (w.phase p).past → ph.past)
    (hcontent : ∀ i q, f.content i = some q → w.files.content i = some q ∨ (q = p ∧ ph.past)) :
    Inv (w.put f p ph) := by
  refine ⟨World.safe_put hsafe, fun i q hq => ?_⟩
  change (update w.phase p ph q).past
  by_cases hqp : q = p
  · subst hqp
    rw [update_self]
    rcases hcontent i q hq with hq | ⟨-, hq⟩
    · exact hpast (h.wrote i q hq)
    · exact hq
  · rw [update_of_ne hqp]
    rcases hcontent i q hq with hq | ⟨hq, -⟩
    · exact h.wrote i q hq
    · exact absurd hq hqp

theorem set (hsafe : Safe w.files (update w.roles p ph.role))
    (hpast : (w.phase p).past → ph.past) : Inv (w.set p ph) :=
  h.put hsafe hpast fun _ _ hq => .inl hq

theorem set_same (hrole : ph.role = w.roles p) (hpast : (w.phase p).past → ph.past) :
    Inv (w.set p ph) := by
  refine h.set ?_ hpast
  rw [hrole, update_eq_self]
  exact h.safe

theorem set_away (hrole : ph.role = .away) (hpast : (w.phase p).past → ph.past) :
    Inv (w.set p ph) := by
  refine h.set ?_ hpast
  rw [hrole]
  exact h.safe.leave p

/-- A number is read for the first time. Where it is nothing, the process is away for a second;
where it is its own, it has been in the lock before. -/
theorem read {again : Bool} (hp : w.phase p = .read again tried) :
    Inv (w.set p (afterRead p tried w.files.pid)) := by
  cases again with
  | true =>
    have hpid : w.files.pid = some p := h.safe.named p (World.role_of hp)
    rw [afterRead, if_pos hpid]
    exact h.set_same (World.role_of hp).symm fun _ => rfl
  | false =>
    unfold afterRead
    split
    · next hself =>
      -- nobody else writes this number
      obtain ⟨i, hi⟩ := Files.exists_of_pid hself
      exact of_not_past hp rfl (h.wrote i p hi)
    · split
      · exact h.set_away rfl (of_not_past hp rfl)
      · next hsome => exact h.set (h.safe.read p (.inl hsome)) (of_not_past hp rfl)

theorem second (hp : w.phase p = .second tried)
    (hprompt : ∀ q, (w.roles q).enters = false) : Inv (w.set p (.look tried w.files.pid)) :=
  h.set (h.safe.read p (.inr hprompt)) (of_not_past hp rfl)

theorem takeOver {answer : Bool} {x : Option Pid} (hp : w.phase p = .look tried x)
    (halive : alive w x answer = false) : Inv (w.set p (.takeOver .list)) := by
  refine h.set (h.safe.condemn (World.role_of hp) fun q hq => ?_) (of_not_past hp rfl)
  subst hq
  have hdead : (w.phase q).live = false := by
    by_contra hlive
    rw [alive, if_pos (by simpa using hlive)] at halive
    cases halive
  rw [World.roles]
  cases hphase : w.phase q with
  | unborn | gone => rfl
  | _ =>
    rw [hphase] at hdead
    cases hdead

theorem remove {r : Removal} {more : Removal → Phase} {done : Phase} (hp : w.roles p = .removes)
    (hmore : ∀ r, (more r).role = .removes) (hdone : done.role.owns = false)
    (hpast : (w.phase p).past → done.past ∧ ∀ r, (more r).past) : Inv (w.remove p r more done) := by
  refine h.put (h.safe.remove hp r ?_) (fun hph => ?_) fun i q hq => ?_
  · cases (w.files.remove r).2 with
    | none => exact hdone
    | some r' => exact congrArg Role.owns (hmore r')
  · cases (w.files.remove r).2 with
    | none => exact (hpast hph).1
    | some r' => exact (hpast hph).2 r'
  · rw [Files.remove_content] at hq
    exact .inl hq

theorem openPid
    (hcreate : w.files.create = some (fd, f)) (hsafe : Safe f (update w.roles p (.writes fd))) :
    Inv (w.put f p (.writePid fd)) := by
  have hmem : ∀ (j i : ℕ) (q : Pid), update w.files.content j none i = some q →
      w.files.content i = some q := by
    intro j i q hq
    by_cases hij : i = j
    · rw [hij, update_self] at hq
      cases hq
    · rwa [update_of_ne hij] at hq
  refine h.put hsafe (fun _ => rfl) fun i q hq => .inl ?_
  unfold Files.create at hcreate
  split at hcreate
  · cases hcreate
  · obtain ⟨-, rfl⟩ := Prod.mk.inj (Option.some.inj hcreate)
    exact hmem _ i q hq
  · obtain ⟨-, rfl⟩ := Prod.mk.inj (Option.some.inj hcreate)
    exact hmem _ i q hq

theorem writePid (hp : w.phase p = .writePid fd) : Inv (w.put (w.files.write fd p) p .inside) := by
  refine h.put (h.safe.write (World.role_of hp)) (fun _ => rfl) fun i q hq => ?_
  change update w.files.content fd (some p) i = some q at hq
  by_cases hi : i = fd
  · rw [hi, update_self] at hq
    exact .inr ⟨(Option.some.inj hq).symm, rfl⟩
  · rw [update_of_ne hi] at hq
    exact .inl hq

theorem runStep (p : Pid) (answer : Bool) (hprompt : Prompt w (.run p answer))
    (hapart : Apart w (.run p answer)) : Inv (runStep w p answer) := by
  unfold UpdateLock.runStep
  cases hp : w.phase p with
  | unborn | gone | outside | inside => exact h
  | mkdir again tried =>
    dsimp only
    split
    · next hdir =>
      exact h.put (h.safe.make hdir fun q _ => hapart again tried hp hdir q) (fun _ => rfl)
        fun i q hq => .inl hq
    · refine h.set_same ?_ ?_
      · rw [World.role_of hp]
        cases again <;> rfl
      · rw [hp]
        cases again <;> exact id
  | test again tried =>
    dsimp only
    split
    · exact h.set_away rfl fun _ => rfl
    · refine h.set_same ?_ ?_
      · rw [World.role_of hp]
        cases again <;> rfl
      · rw [hp]
        cases again <;> exact id
  | read again tried => exact h.read hp
  | second tried => exact h.second hp (hprompt tried hp)
  | look tried x =>
    dsimp only
    split
    · exact h.set_away rfl fun _ => rfl
    · next hfree =>
      rw [Bool.or_eq_true, not_or] at hfree
      exact h.takeOver hp (by simpa using hfree.1)
  | takeOver r => exact h.remove (World.role_of hp) (fun _ => rfl) rfl (of_not_past hp rfl)
  | openPid =>
    obtain ⟨fd, f, hcreate, hsafe⟩ := h.safe.create (World.role_of hp)
    dsimp only
    rw [hcreate]
    exact h.openPid hcreate hsafe
  | writePid fd => exact h.writePid hp
  | drop =>
    dsimp only
    split
    · exact h.set (h.safe.release (World.role_of hp)) fun _ => rfl
    · exact h.set_away rfl fun _ => rfl
  | unlock r => exact h.remove (World.role_of hp) (fun _ => rfl) rfl fun _ => ⟨rfl, fun _ => rfl⟩

theorem step {a : Action} (hprompt : Prompt w a) (hapart : Apart w a) : Inv (step w a) := by
  cases a with
  | run p answer => exact h.runStep p answer hprompt hapart
  | start p | call p =>
    exact iteInduction (motive := Inv) (fun hp => h.set_away rfl (of_not_past hp rfl)) fun _ => h
  | again p | leave p =>
    exact iteInduction (motive := Inv)
      (fun hp => h.set_same (World.role_of hp).symm fun _ => rfl) fun _ => h
  | kill p =>
    unfold UpdateLock.step
    dsimp only
    split
    · exact h
    · exact h.set_away rfl fun _ => rfl

theorem run {as : List Action} (hprompt : Along UpdateLock.step Prompt w as)
    (hapart : Along UpdateLock.step Apart w as) :
    Inv (as.foldl UpdateLock.step w) := by
  induction as generalizing w with
  | nil => exact h
  | cons a as ih => exact ih (h.step hprompt.1 hapart.1) hprompt.2 hapart.2

end

end Inv

variable {w : World Phase}

theorem Start.inv (hw : Start w) : Inv w := by
  refine ⟨.of_free fun p => ?_, fun i p hp => ?_⟩
  · rw [World.roles]
    rcases hw.idle p with hp | hp | hp <;> rw [hp] <;> rfl
  · rw [hw.left i p hp]
    rfl

/-- **One updater at a time**: of any number of processes, in any order of their operations and with
any of them killed anywhere, at most one live one has the lock, wherever a number is written in time
and nobody makes the directory while another is on its way to removing one. -/
theorem one_updater (w : World Phase) (hw : Start w) (as : List Action)
    (hprompt : Along step Prompt w as)
    (hapart : Along step Apart w as) : Exclusive (as.foldl step w) := by
  have hend := hw.inv.run hprompt hapart
  intro p q hp hq
  exact hend.safe.one p q (by rw [hp]; rfl) (by rw [hq]; rfl)

/-! ## Samples -/

def Action.pid : Action → Pid
  | start p | call p | again p | run p _ | leave p | kill p => p

theorem step_phase (w : World Phase) (a : Action) (q : Pid) (h : q ≠ a.pid) :
    (step w a).phase q = w.phase q := by
  cases a <;> dsimp only [step, runStep]
  all_goals
    repeat' split
    all_goals first | rfl | exact World.phase_put h

variable {ps : List Pid}

/-- `Prompt`, among these processes. -/
def promptIn (ps : List Pid) (w : World Phase) : Action → Bool
  | .run p _ =>
    match w.phase p with
    | .second _ => ps.all fun q => !(w.roles q).enters
    | _ => true
  | _ => true

theorem prompt_of_promptIn (w : World Phase) (a : Action) (hw : Only .unborn ps w)
    (h : promptIn ps w a) : Prompt w a := by
  cases a with
  | run p answer =>
    intro tried hp q
    rw [promptIn, hp] at h
    simpa using hw.forall_roles (fun ρ => !ρ.enters) rfl h q
  | _ => trivial

/-- `Apart`, among these processes. -/
def apartIn (ps : List Pid) (w : World Phase) : Action → Bool
  | .run p _ =>
    match w.phase p with
    | .mkdir _ _ => w.files.dir ≠ none || ps.all fun q => !(w.roles q).threatens
    | _ => true
  | _ => true

theorem apart_of_apartIn (w : World Phase) (a : Action) (hw : Only .unborn ps w)
    (h : apartIn ps w a) : Apart w a := by
  cases a with
  | run p answer =>
    intro again tried hp hdir q
    rw [apartIn, hp, hdir] at h
    simpa using hw.forall_roles (fun ρ => !ρ.threatens) rfl h q
  | _ => trivial

/-- A lock with the number of a process that is gone, and two others. -/
def leftBehind : World Phase :=
  { files := ⟨some (some 0), fun i => if i = 0 then some 1 else none, 1⟩
    phase := fun p => if p = 1 then .gone else if p = 2 ∨ p = 3 then .outside else .unborn }

theorem leftBehind_start : Start leftBehind := by
  refine ⟨fun p => ?_, fun i p hp => ?_⟩
  · by_cases h₁ : p = 1
    · exact .inr (.inr (if_pos h₁))
    · by_cases h₂ : p = 2 ∨ p = 3
      · exact .inr (.inl ((if_neg h₁).trans (if_pos h₂)))
      · exact .inl ((if_neg h₁).trans (if_neg h₂))
  · change (if i = 0 then some 1 else none) = some p at hp
    split at hp
    · cases hp
      rfl
    · cases hp

theorem leftBehind_only : Only .unborn [1, 2, 3] leftBehind := by
  intro q hq
  have h₁ : q ≠ 1 := fun h => hq (by rw [h]; decide)
  have h₂ : ¬ (q = 2 ∨ q = 3) := by
    rintro (h | h) <;> exact hq (by rw [h]; decide)
  exact (if_neg h₁).trans (if_neg h₂)

/-- So many steps of a process. -/
def steps (p : Pid) (n : ℕ) : List Action := List.replicate n (.run p false)

/-- The second takes the lock over. The third comes while the number is not written, looks again
when it is, and gives up. -/
def takenOver : List Action :=
  .call 2 :: steps 2 8 ++ .call 3 :: steps 3 3 ++ steps 2 2 ++ steps 3 2

/-- One updater is inside, by taking the lock over. -/
theorem one_updater_takenOver :
    (takenOver.foldl step leftBehind).phase 2 = .inside ∧
    Exclusive (takenOver.foldl step leftBehind) := by
  refine ⟨by decide, one_updater leftBehind leftBehind_start takenOver ?_ ?_⟩
  · exact along_of_check step_phase prompt_of_promptIn leftBehind_only (by decide) (by decide)
  · exact along_of_check step_phase apart_of_apartIn leftBehind_only (by decide) (by decide)

/-- Both read the number of the one that is gone. The second takes the lock over and is inside; then
the third removes what it takes for the same lock, and makes its own. -/
def takenTwice : List Action :=
  .call 2 :: .call 3 :: steps 2 3 ++ steps 3 3 ++ steps 2 7 ++ steps 3 7

/-- **Two updaters**, with every number written in time: nobody even comes to look a second time. -/
theorem two_updaters : ∃ (w : World Phase) (as : List Action), Start w ∧ Along step Prompt w as ∧
    ¬ Exclusive (as.foldl step w) := by
  refine ⟨leftBehind, takenTwice, leftBehind_start, ?_, fun h => ?_⟩
  · exact along_of_check step_phase prompt_of_promptIn leftBehind_only (by decide) (by decide)
  · have h₂ : (takenTwice.foldl step leftBehind).phase 2 = .inside := by decide
    have h₃ : (takenTwice.foldl step leftBehind).phase 3 = .inside := by decide
    exact absurd (h 2 3 (World.role_of h₂) (World.role_of h₃)) (by decide)

end Mu300.UpdateLock
