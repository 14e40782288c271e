import Mathlib.Data.List.Basic

/-!
# Programs that can be cut off

Straight-line code that changes a store in atomic steps, against an environment
that decides how every step turns out and may take the power away between any two
of them.

* `Prog ε σ α` — the syntax: a step changes the state `σ` as the environment's
  answer `ε` says, and the rest of the program may depend on the answer and on the
  state the step found. No step sees more than its own answer.
* `exec p es s` — one run against the list of answers `es`. The list is also the
  moment of the cut: a program that still has steps to take when the answers end
  was cut off there. So "at any point" is "for every list".
* `wp A C Q p s` — the rule system: every state in which `p` can be cut off
  satisfies `C`, every end satisfies `Q`, as long as the answers satisfy `A`.
* `restarts p runs s` — run after run, each from whatever the one before left.
-/

namespace Crash

open List

variable {ε σ α β : Type} {a : α}

/-! ## Programs -/

/-- A program over the state `σ` whose steps are answered by `ε`. -/
inductive Prog (ε σ α : Type) : Type where
  /-- end with a result -/
  | ret : α → Prog ε σ α
  /-- one atomic step: the change, and what follows (given the state before it) -/
  | step : (ε → σ → σ) → (ε → σ → Prog ε σ α) → Prog ε σ α

namespace Prog

/-- Sequencing: the second program takes over at every end of the first. -/
protected def bind : Prog ε σ α → (α → Prog ε σ β) → Prog ε σ β
  | ret a, f => f a
  | step u k, f => step u fun e s => (k e s).bind f

instance : Monad (Prog ε σ) where
  pure := ret
  bind := Prog.bind

/-- One step: the change `u`, and the result `r` read off the answer and the state
before the change. -/
def op (u : ε → σ → σ) (r : ε → σ → α) : Prog ε σ α := step u fun e s => ret (r e s)

/-- A step that changes nothing: a read, a check, a question to the environment. -/
def look (r : ε → σ → α) : Prog ε σ α := op (fun _ s => s) r

/-- A step that the environment has no say in. -/
def act (u : σ → σ) : Prog ε σ Unit := op (fun _ s => u s) fun _ _ => ()

def test (P : σ → Prop) [DecidablePred P] : Prog ε σ Bool := look fun _ s => decide (P s)

/-- One thing after the other, as long as they work. -/
def each (f : β → Prog ε σ Bool) : List β → Prog ε σ Bool
  | [] => Prog.ret true
  | b :: bs => (f b).bind fun ok => if ok then each f bs else Prog.ret false

end Prog

open Prog

/-! ## Runs -/

/-- How a run turned out: cut off in a state, or ended with a result. -/
inductive Outcome (σ α : Type) : Type where
  /-- the power went in this state -/
  | cut : σ → Outcome σ α
  /-- the program ended -/
  | done : α → σ → Outcome σ α
  deriving DecidableEq

/-- The state a run left behind, cut off or not. -/
def Outcome.state : Outcome σ α → σ
  | cut s => s
  | done _ s => s

/-- The result of a run that ended. -/
def Outcome.result : Outcome σ α → Option α
  | cut _ => none
  | done a _ => some a

theorem Outcome.eq_done {o : Outcome σ α} (h : o.result = some a) : o = .done a o.state := by
  cases o with
  | cut s => cases h
  | done b s =>
    cases h
    rfl

theorem Outcome.eq_cut {o : Outcome σ α} (h : o.result = none) : o = .cut o.state := by
  cases o with
  | cut s => rfl
  | done b s => cases h

/-- One run of a program against a list of answers. -/
def exec : Prog ε σ α → List ε → σ → Outcome σ α
  | ret a, _, s => .done a s
  | step _ _, [], s => .cut s
  | step u k, e :: es, s => exec (k e s) es (u e s)

/-- Run after run of one program, each against its own answers and from the state the
one before left. -/
def restarts (p : Prog ε σ α) (runs : List (List ε)) (s : σ) : σ :=
  runs.foldl (fun s es => (exec p es s).state) s

/-! ## Weakest preconditions with a crash condition -/

/-- Under answers in `A`: every state `p` can be cut off in satisfies `C`, and every
end satisfies `Q`. -/
def wp (A : ε → Prop) (C : σ → Prop) (Q : α → σ → Prop) : Prog ε σ α → σ → Prop
  | ret a, s => Q a s
  | step u k, s => C s ∧ ∀ e, A e → wp A C Q (k e s) (u e s)

variable {A : ε → Prop} {C C' : σ → Prop}

variable {Q : α → σ → Prop} {f : β → Prog ε σ Bool} {s : σ}

@[simp] theorem wp_pure (a : α) (s : σ) :
    wp A C Q (pure a : Prog ε σ α) s ↔ Q a s := .rfl

@[simp] theorem wp_op (u : ε → σ → σ) (r : ε → σ → α) (s : σ) :
    wp A C Q (op u r) s ↔ C s ∧ ∀ e, A e → Q (r e s) (u e s) := .rfl

@[simp] theorem wp_look (r : ε → σ → α) (s : σ) :
    wp A C Q (look r) s ↔ C s ∧ ∀ e, A e → Q (r e s) s := .rfl

@[simp] theorem wp_test {Q : Bool → σ → Prop} (P : σ → Prop) [DecidablePred P] (s : σ) :
    wp A C Q (test P : Prog ε σ Bool) s ↔ C s ∧ ∀ e, A e → Q (decide (P s)) s := .rfl

@[simp] theorem wp_act {Q : Unit → σ → Prop} (u : σ → σ) (s : σ) :
    wp A C Q (act u : Prog ε σ Unit) s ↔ C s ∧ ∀ e, A e → Q () (u s) := .rfl

@[simp] theorem wp_bind {Q : β → σ → Prop} (p : Prog ε σ α) (f : α → Prog ε σ β) (s : σ) :
    wp A C Q (p >>= f) s ↔ wp A C (fun a => wp A C Q (f a)) p s := by
  induction p generalizing s with
  | ret a => rfl
  | step u k ih =>
    exact and_congr_right fun _ => forall_congr' fun e => imp_congr_right fun _ => ih e s _

@[simp] theorem wp_ite (c : Prop) [Decidable c] (p q : Prog ε σ α) (s : σ) :
    wp A C Q (if c then p else q) s ↔ (c → wp A C Q p s) ∧ (¬ c → wp A C Q q s) := by
  by_cases hc : c
  · simp [hc]
  · simp [hc]

theorem wp_step {Q : β → σ → Prop} {u : ε → σ → σ} {r : ε → σ → α} {f : α → Prog ε σ β} (hs : C s)
    (h : ∀ e, A e → wp A C Q (f (r e s)) (u e s)) : wp A C Q (op u r >>= f) s := ⟨hs, h⟩

theorem wp_if {c : Prop} [Decidable c] {p q : Prog ε σ α} (hp : c → wp A C Q p s)
    (hq : ¬ c → wp A C Q q s) : wp A C Q (if c then p else q) s := (wp_ite c p q s).2 ⟨hp, hq⟩

theorem wp_mono {Q' : α → σ → Prop} (hC : ∀ s, C s → C' s) (hQ : ∀ a s, Q a s → Q' a s)
    {p : Prog ε σ α} : ∀ {s : σ}, wp A C Q p s → wp A C' Q' p s := by
  induction p with
  | ret a =>
    intro s h
    exact hQ a s h
  | step u k ih =>
    intro s h
    exact ⟨hC s h.1, fun e he => ih e s (h.2 e he)⟩

theorem wp_seq {R : α → σ → Prop} {Q : β → σ → Prop} {p : Prog ε σ α} {f : α → Prog ε σ β}
    (hp : wp A C R p s) (hf : ∀ a s', R a s' → wp A C Q (f a) s') : wp A C Q (p >>= f) s :=
  (wp_bind p f s).2 (wp_mono (fun _ h => h) hf hp)

theorem wp_each {Q : Bool → σ → Prop} {I : List β → σ → Prop} (hnext : ∀ b bs s, I (b :: bs) s →
      wp A C (fun ok s' => if ok then I bs s' else Q false s') (f b) s)
        (hend : ∀ s, I [] s → Q true s) :
    ∀ {bs : List β} {s : σ}, I bs s → wp A C Q (each f bs) s := by
  intro bs
  induction bs with
  | nil =>
    intro s h
    exact hend s h
  | cons b bs ih =>
    intro s h
    refine wp_seq (hnext b bs s h) fun ok s' h' => ?_
    cases ok with
    | false => exact h'
    | true => exact ih h'

theorem wp_each_inv {I : σ → Prop} {bs : List β}
    (h : ∀ b ∈ bs, ∀ s, I s → wp A C (fun _ => I) (f b) s) (hs : I s) :
    wp A C (fun _ => I) (each f bs) s := by
  refine wp_each (I := fun rest s => (∀ b ∈ rest, b ∈ bs) ∧ I s) (fun b rest s hI => ?_)
    (fun s hI => hI.2) ⟨fun _ hb => hb, hs⟩
  refine wp_mono (fun _ hC => hC) (fun ok s' hI' => ?_) (h b (hI.1 b mem_cons_self) s hI.2)
  cases ok with
  | false => exact hI'
  | true => exact ⟨fun b' hb' => hI.1 b' (.tail _ hb'), hI'⟩

variable {p : Prog ε σ α} {es : List ε} {s' : σ}

/-- **Soundness**: what `wp` promises holds of every run, wherever it is cut off. -/
theorem exec_of_wp : ∀ {es : List ε} {s : σ}, (∀ e ∈ es, A e) → wp A C Q p s →
    match exec p es s with
      | .cut s' => C s'
      | .done a s' => Q a s' := by
  induction p with
  | ret a =>
    intro es s _ h
    exact h
  | step u k ih =>
    intro es s hA h
    cases es with
    | nil => exact h.1
    | cons e es =>
      exact ih e s (fun e' he' => hA e' (.tail _ he'))
        (h.2 e (hA e (mem_cons_self ..)))

/-- What an invariant of the steps and of the ends says about the state a run leaves. -/
theorem exec_state_of_wp (hA : ∀ e ∈ es, A e) (h : wp A C (fun _ => C) p s) :
    C (exec p es s).state := by
  have hx := exec_of_wp hA h
  cases hr : exec p es s with
  | cut s' => rw [hr] at hx; exact hx
  | done a s' => rw [hr] at hx; exact hx

theorem exec_done_of_wp
    (hA : ∀ e ∈ es, A e) (h : wp A C Q p s) (hr : exec p es s = .done a s') : Q a s' := by
  have hx := exec_of_wp hA h
  rw [hr] at hx
  exact hx

theorem exec_cut_of_wp
    (hA : ∀ e ∈ es, A e) (h : wp A C Q p s) (hr : exec p es s = .cut s') : C s' := by
  have hx := exec_of_wp hA h
  rw [hr] at hx
  exact hx

/-! ## Invariants of every step -/

/-- Every step of the program keeps `I`, whatever the environment answers. -/
def Keeps (I : σ → Prop) (p : Prog ε σ α) : Prop :=
  ∀ s, I s → wp (fun _ => True) I (fun _ => I) p s

section Keeps

variable {I : σ → Prop}

theorem keeps_pure (a : α) : Keeps I (pure a : Prog ε σ α) := fun _ h => h

theorem keeps_op {u : ε → σ → σ} {r : ε → σ → α} (h : ∀ e s, I s → I (u e s)) :
    Keeps I (op u r) := fun s hs => ⟨hs, fun e _ => h e s hs⟩

theorem keeps_look (r : ε → σ → α) : Keeps I (look r) := fun _ hs => ⟨hs, fun _ _ => hs⟩

theorem keeps_test (P : σ → Prop) [DecidablePred P] : Keeps I (test P : Prog ε σ Bool) :=
  keeps_look _

theorem keeps_bind {f : α → Prog ε σ β} (hp : Keeps I p) (hf : ∀ a, Keeps I (f a)) :
    Keeps I (p >>= f) :=
  fun s hs => wp_seq (hp s hs) hf

theorem keeps_ite {c : Prop} [Decidable c] {q : Prog ε σ α} (hp : Keeps I p)
    (hq : Keeps I q) : Keeps I (if c then p else q) := fun s hs =>
  (wp_ite c p q s).2 ⟨fun _ => hp s hs, fun _ => hq s hs⟩

theorem keeps_each (h : ∀ b, Keeps I (f b)) (bs : List β) :
    Keeps I (each f bs) := fun _ hs => wp_each_inv (fun b _ s hI => h b s hI) hs

theorem wp_and : ∀ {s : σ}, wp A C Q p s → wp (fun _ => True) I (fun _ => I) p s →
      wp A C (fun a s => Q a s ∧ I s) p s := by
  induction p with
  | ret a =>
    intro s h hI
    exact ⟨h, hI⟩
  | step u k ih =>
    intro s h hI
    exact ⟨h.1, fun e he => ih e s (h.2 e he) (hI.2 e trivial)⟩

theorem Keeps.wp_and (hp : Keeps I p) (hs : I s) (h : wp A C Q p s) :
    wp A C (fun a s => Q a s ∧ I s) p s :=
  Crash.wp_and h (hp s hs)

theorem Keeps.exec_state (hp : Keeps I p) (es : List ε) (hs : I s) :
    I (exec p es s).state := exec_state_of_wp (fun _ _ => trivial) (hp s hs)

end Keeps

/-- **Restarts keep an invariant** that every run keeps, however often and wherever the
runs are cut off. -/
theorem restarts_of_wp (h : ∀ s, C s → wp A C (fun _ => C) p s) :
    ∀ {runs : List (List ε)} {s : σ}, (∀ es ∈ runs, ∀ e ∈ es, A e) → C s →
      C (restarts p runs s) := by
  intro runs
  induction runs with
  | nil =>
    intro s _ hs
    exact hs
  | cons es runs ih =>
    intro s hA hs
    exact ih (fun es' hes' => hA es' (.tail _ hes'))
      (exec_state_of_wp (hA es (mem_cons_self ..)) (h s hs))

end Crash
