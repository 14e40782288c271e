import Mathlib.Data.Nat.Notation
import Mathlib.Logic.Function.Basic

/-!
# A directory as a lock

Whoever makes the directory has the lock and writes its number into a file in it. One who finds the
directory reads the number, and removes a directory that it takes for left behind. Making, reading,
opening and writing the file, and every operation of `rm -rf` are steps of their own.

* `Safe` — at most one owner; it is kept by each operation (`Safe.make`, `Safe.create`,
  `Safe.write`, `Safe.read`, `Safe.condemn`, `Safe.remove`, `Safe.leave`), as long as nobody makes
  the directory while another has read a number or is removing.
* `World` — the files and where every process is; `along_of_check` — what every step of a run of few
  processes has to meet is checked by evaluation.
-/

namespace LockDir

open Function

abbrev Pid := ℕ

/-- `rm -rf DIR`: the directory is read, what was in it is unlinked, and it is removed. -/
inductive Removal : Type where
  | list
  | unlink
  | rmdir
  deriving DecidableEq

/-! ## Files -/

/-- The directory, and the inode of the file in it; what is in files; the next inode. -/
structure Files where
  dir : Option (Option ℕ)
  content : ℕ → Option Pid
  next : ℕ

namespace Files

variable (f : Files)

def pid : Option Pid :=
  match f.dir with
  | some (some i) => f.content i
  | _ => none

/-- `mkdir`, where there is no directory. -/
def make : Files := { f with dir := some none }

/-- `open(DIR/pid, O_CREAT|O_TRUNC)`: none where there is no directory. -/
def create : Option (ℕ × Files) :=
  match f.dir with
  | none => none
  | some none =>
    some (f.next, ⟨some (some f.next), update f.content f.next none, f.next + 1⟩)
  | some (some i) => some (i, { f with content := update f.content i none })

/-- A number is written through a descriptor. -/
def write (fd : ℕ) (p : Pid) : Files := { f with content := update f.content fd (some p) }

/-- One operation of `rm -rf`, and which is next. -/
def remove : Removal → Files × Option Removal
  | .list =>
    match f.dir with
    | none => (f, none)
    | some none => (f, some .rmdir)
    | some (some _) => (f, some .unlink)
  | .unlink =>
    match f.dir with
    | some (some _) => ({ f with dir := some none }, some .rmdir)
    | _ => (f, some .rmdir)
  | .rmdir =>
    match f.dir with
    | some none => ({ f with dir := none }, none)
    | _ => (f, none)

theorem exists_of_pid {f : Files} {p : Pid} (h : f.pid = some p) : ∃ i, f.content i = some p := by
  unfold pid at h
  split at h
  · next i _ => exact ⟨i, h⟩
  · cases h

theorem remove_content (r : Removal) : (f.remove r).1.content = f.content := by
  rcases hdir : f.dir with _ | _ | i <;> cases r <;> simp [remove, hdir]

end Files

/-! ## Roles -/

/-- What a process is to the lock. -/
inductive Role : Type where
  /-- nothing -/
  | away
  /-- it has made the directory -/
  | opens
  /-- and opened its file -/
  | writes (fd : ℕ)
  /-- and written its number -/
  | holds
  /-- it has read a number, or none -/
  | looks (x : Option Pid)
  /-- it removes what there is -/
  | removes
  deriving DecidableEq

namespace Role

/-- The directory is this process's own. -/
def owns : Role → Bool
  | opens | writes _ | holds => true
  | _ => false

/-- Its number is not written yet. -/
def enters : Role → Bool
  | opens | writes _ => true
  | _ => false

/-- It may come to remove a directory that it has not seen being made. -/
def threatens : Role → Bool
  | looks _ | removes => true
  | _ => false

end Role

/-- **At most one owner**, the directory is its own with its number in it as soon as it is written,
nobody is removing it, and what others have read is its number. -/
structure Safe (f : Files) (role : Pid → Role) : Prop where
  one : ∀ p q, (role p).owns → (role q).owns → p = q
  held : ∀ p, (role p).owns → f.dir ≠ none
  opened : ∀ p i, role p = .writes i → f.dir = some (some i)
  unnamed : ∀ p, (role p).enters → f.pid = none
  named : ∀ p, role p = .holds → f.pid = some p
  calm : ∀ p q, (role p).owns → role q ≠ .removes
  seen : ∀ p q x, (role p).owns → role q = .looks x → x = some p

namespace Safe

variable {f f' : Files} {role : Pid → Role} {p : Pid} {ρ : Role}

theorem owns_of_enters (h : ρ.enters) : ρ.owns := by
  cases ρ <;> first | rfl | cases h

theorem of_free (h : ∀ p, (role p).owns = false) : Safe f role := by
  have hno : ∀ p, ¬ (role p).owns := fun p => by rw [h p]; decide
  exact
    { one := fun p _ hp => absurd hp (hno p)
      held := fun p hp => absurd hp (hno p)
      opened := fun p i hp => absurd (show (role p).owns by rw [hp]; rfl) (hno p)
      unnamed := fun p hp => absurd (owns_of_enters hp) (hno p)
      named := fun p hp => absurd (show (role p).owns by rw [hp]; rfl) (hno p)
      calm := fun p _ hp => absurd hp (hno p)
      seen := fun p _ _ hp => absurd hp (hno p) }

theorem of_free_update (h : ∀ q, q ≠ p → (role q).owns = false) (hρ : ρ.owns = false) :
    Safe f (update role p ρ) :=
  of_free fun q => by
    by_cases hq : q = p
    · rw [hq, update_self, hρ]
    · rw [update_of_ne hq, h q hq]

section

variable (h : Safe f role)

include h

theorem free_of_removes (hp : role p = .removes) (q : Pid) : (role q).owns = false := by
  by_contra hq
  exact h.calm q p (by simpa using hq) hp

theorem update_other (hρ : ρ.owns = false) (hremoves : ρ ≠ .removes)
    (hlooks : ∀ x, ρ = .looks x → ∀ q, (role q).owns → x = some q) : Safe f (update role p ρ) := by
  have howner : ∀ q, (update role p ρ q).owns → update role p ρ q = role q := by
    intro q hq
    refine update_of_ne (fun he => ?_) ..
    rw [he, update_self, hρ] at hq
    cases hq
  refine ⟨fun q r hq hr => ?_, fun q hq => ?_, fun q i hq => ?_, fun q hq => ?_, fun q hq => ?_,
    fun q r hq => ?_, fun q r x hq hr => ?_⟩
  · rw [howner q hq] at hq
    rw [howner r hr] at hr
    exact h.one q r hq hr
  · rw [howner q hq] at hq
    exact h.held q hq
  · rw [howner q (by rw [hq]; rfl)] at hq
    exact h.opened q i hq
  · rw [howner q (owns_of_enters hq)] at hq
    exact h.unnamed q hq
  · rw [howner q (by rw [hq]; rfl)] at hq
    exact h.named q hq
  · rw [howner q hq] at hq
    by_cases hrp : r = p
    · rw [hrp, update_self]
      exact hremoves
    · rw [update_of_ne hrp]
      exact h.calm q r hq
  · rw [howner q hq] at hq
    by_cases hrp : r = p
    · rw [hrp, update_self] at hr
      exact hlooks x hr q hq
    · rw [update_of_ne hrp] at hr
      exact h.seen q r x hq hr

theorem leave (p : Pid) : Safe f (update role p .away) :=
  h.update_other rfl (by rintro ⟨⟩) fun x hx => by cases hx

theorem read (p : Pid) (hread : f.pid ≠ none ∨ ∀ q, (role q).enters = false) :
    Safe f (update role p (.looks f.pid)) := by
  refine h.update_other rfl (by rintro ⟨⟩) fun x hx q hq => ?_
  obtain rfl := Role.looks.inj hx
  have hnot : ¬ (role q).enters := by
    intro henters
    rcases hread with hread | hread
    · exact hread (h.unnamed q henters)
    · rw [hread q] at henters
      cases henters
  refine h.named q ?_
  cases hrole : role q with
  | holds => rfl
  | opens => exact absurd (show (role q).enters by rw [hrole]; rfl) hnot
  | writes fd => exact absurd (show (role q).enters by rw [hrole]; rfl) hnot
  | _ =>
    rw [hrole] at hq
    cases hq

theorem update_owner (hp : (role p).owns) (hρ : ρ.owns) (hheld : f'.dir ≠ none)
    (hopened : ∀ i, ρ = .writes i → f'.dir = some (some i)) (hunnamed : ρ.enters → f'.pid = none)
    (hnamed : ρ = .holds → f'.pid = some p) : Safe f' (update role p ρ) := by
  have honly : ∀ q, (update role p ρ q).owns → q = p := by
    intro q hq
    by_contra hne
    rw [update_of_ne hne] at hq
    exact hne (h.one q p hq hp)
  refine ⟨fun q r hq hr => (honly q hq).trans (honly r hr).symm, fun _ _ => hheld, fun q i hq => ?_,
    fun q hq => ?_, fun q hq => ?_, fun q r hq => ?_, fun q r x hq hr => ?_⟩
  · obtain rfl := honly q (by rw [hq]; rfl)
    rw [update_self] at hq
    exact hopened i hq
  · obtain rfl := honly q (owns_of_enters hq)
    rw [update_self] at hq
    exact hunnamed hq
  · obtain rfl := honly q (by rw [hq]; rfl)
    rw [update_self] at hq
    exact hnamed hq
  · by_cases hr : r = p
    · rw [hr, update_self]
      rintro rfl
      cases hρ
    · rw [update_of_ne hr]
      exact h.calm p r hp
  · obtain rfl := honly q hq
    by_cases hrp : r = q
    · rw [hrp, update_self] at hr
      rw [hr] at hρ
      cases hρ
    · rw [update_of_ne hrp] at hr
      exact h.seen q r x hp hr

theorem make (hdir : f.dir = none) (hquiet : ∀ q, q ≠ p → (role q).threatens = false) :
    Safe f.make (update role p .opens) := by
  have hfree : ∀ q, ¬ (role q).owns := fun q hq => h.held q hq hdir
  have honly : ∀ q, (update role p .opens q).owns → q = p := by
    intro q hq
    by_contra hne
    rw [update_of_ne hne] at hq
    exact hfree q hq
  have hrole : ∀ q r x, (update role p .opens q).owns → update role p .opens r = x →
      x ≠ .opens → x.threatens = false := by
    intro q r x _ hr hx
    by_cases hrp : r = p
    · rw [hrp, update_self] at hr
      exact absurd hr.symm hx
    · rw [update_of_ne hrp] at hr
      rw [← hr]
      exact hquiet r hrp
  refine ⟨fun q r hq hr => (honly q hq).trans (honly r hr).symm, fun _ _ => by rintro ⟨⟩,
    fun q i hq => ?_, fun _ _ => rfl, fun q hq => ?_, fun q r hq hr => ?_, fun q r x hq hr => ?_⟩
  · obtain rfl := honly q (by rw [hq]; rfl)
    rw [update_self] at hq
    cases hq
  · obtain rfl := honly q (by rw [hq]; rfl)
    rw [update_self] at hq
    cases hq
  · cases hrole q r _ hq hr (by rintro ⟨⟩)
  · cases hrole q r _ hq hr (by rintro ⟨⟩)

theorem create (hp : role p = .opens) :
    ∃ fd f', f.create = some (fd, f') ∧ Safe f' (update role p (.writes fd)) := by
  have howns : (role p).owns := by rw [hp]; rfl
  have hheld := h.held p howns
  rcases hdir : f.dir with _ | _ | i
  · exact absurd hdir hheld
  · refine ⟨_, _, by rw [Files.create, hdir], h.update_owner howns rfl (by rintro ⟨⟩) ?_ ?_ ?_⟩
    · intro i hi
      cases hi
      rfl
    · intro _
      exact update_self ..
    · rintro ⟨⟩
  · refine ⟨i, { f with content := update f.content i none }, by simp [Files.create, hdir],
      h.update_owner howns rfl hheld ?_ ?_ ?_⟩
    · intro j hj
      cases hj
      exact hdir
    · intro _
      rw [Files.pid, hdir]
      exact update_self ..
    · rintro ⟨⟩

theorem write {fd : ℕ} (hp : role p = .writes fd) : Safe (f.write fd p) (update role p .holds) := by
  have howns : (role p).owns := by rw [hp]; rfl
  have hdir := h.opened p fd hp
  refine h.update_owner howns rfl (h.held p howns) (by rintro i ⟨⟩) (by rintro ⟨⟩) fun _ => ?_
  rw [Files.pid, Files.write, hdir]
  exact update_self ..

/-- A directory is to be removed by one who has read the number of nobody who owns it. -/
theorem condemn {x : Option Pid} (hp : role p = .looks x)
    (hx : ∀ q, x = some q → (role q).owns = false) : Safe f (update role p .removes) := by
  refine of_free_update (fun q _ => ?_) rfl
  by_contra hq
  have hq : (role q).owns := by simpa using hq
  rw [hx q (h.seen q p x hq hp)] at hq
  cases hq

theorem release (hp : role p = .holds) : Safe f (update role p .removes) := by
  refine of_free_update (fun q hq => ?_) rfl
  by_contra hqowns
  exact hq (h.one q p (by simpa using hqowns) (by rw [hp]; rfl))

theorem remove (hp : role p = .removes) (r : Removal) (hρ : ρ.owns = false) :
    Safe (f.remove r).1 (update role p ρ) :=
  of_free_update (fun q _ => h.free_of_removes hp q) hρ

end

end Safe

/-! ## Processes -/

/-- What a process at a place in its program is to the lock. -/
class HasRole (φ : Type) where
  role : φ → Role

/-- The files, and where every process is. -/
structure World (φ : Type) where
  files : Files
  phase : Pid → φ

section Processes

variable {φ α : Type} (w : World φ) {f : Files} {p q : Pid} {ph s : φ} {ps : List Pid}

namespace World

def put (f : Files) (p : Pid) (ph : φ) : World φ := ⟨f, update w.phase p ph⟩

/-- A process goes on and leaves the files as they are. -/
def set (p : Pid) (ph : φ) : World φ := w.put w.files p ph

/-- One operation of `rm -rf`, and what is after the last. -/
def remove (p : Pid) (r : Removal) (more : Removal → φ) (done : φ) : World φ :=
  w.put (w.files.remove r).1 p ((w.files.remove r).2.elim done more)

variable {w}

theorem phase_put (h : q ≠ p) : (w.put f p ph).phase q = w.phase q := update_of_ne h ..

variable [HasRole φ]

/-- What every process is to the lock. -/
def roles (w : World φ) : Pid → Role := fun p => HasRole.role (w.phase p)

theorem role_of (h : w.phase p = ph) : w.roles p = HasRole.role ph := congrArg HasRole.role h

theorem safe_put (h : Safe f (update w.roles p (HasRole.role ph))) :
    Safe f (w.put f p ph).roles := by
  have hroles : (w.put f p ph).roles = update w.roles p (HasRole.role ph) :=
    funext fun q => apply_update (fun _ => HasRole.role) w.phase p ph q
  rwa [hroles]

end World

/-- Every action of a run is as `P` wants it, where it happens. -/
def Along {ω : Type} (step : ω → α → ω) (P : ω → α → Prop) : ω → List α → Prop
  | _, [] => True
  | w, a :: as => P w a ∧ Along step P (step w a) as

/-- The same, by evaluation. -/
def check {ω : Type} (step : ω → α → ω) (c : ω → α → Bool) : ω → List α → Bool
  | _, [] => true
  | w, a :: as => c w a && check step c (step w a) as

/-- Only these processes have ever been started. -/
def Only (s : φ) (ps : List Pid) (w : World φ) : Prop := ∀ q, q ∉ ps → w.phase q = s

variable {w}

theorem Only.forall_roles [HasRole φ] (hw : Only s ps w) (c : Role → Bool)
    (haway : c (HasRole.role s))
    (hps : ps.all fun q => c (w.roles q)) (q : Pid) : c (w.roles q) := by
  by_cases hq : q ∈ ps
  · exact List.all_eq_true.1 hps q hq
  · rw [World.role_of (hw q hq)]
    exact haway

theorem along_of_check {step : World φ → α → World φ} {pid : α → Pid} {P : World φ → α → Prop}
    {c : World φ → α → Bool} (hstep : ∀ w a q, q ≠ pid a → (step w a).phase q = w.phase q)
    (hc : ∀ w a, Only s ps w → c w a → P w a) (hw : Only s ps w) {as : List α}
    (has : as.all fun a => pid a ∈ ps) (h : check step c w as) : Along step P w as := by
  induction as generalizing w with
  | nil => trivial
  | cons a as ih =>
    rw [check, Bool.and_eq_true] at h
    rw [List.all_cons, Bool.and_eq_true, decide_eq_true_iff] at has
    refine ⟨hc w a hw h.1, ih (fun q hq => ?_) has.2 h.2⟩
    rw [hstep w a q fun he => hq (he ▸ has.1), hw q hq]

end Processes

end LockDir
