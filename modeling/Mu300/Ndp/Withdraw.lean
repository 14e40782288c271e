import Mathlib.Data.List.Basic

/-!
# Prefixes that leave the bearer

The rounds of `ndp-learn`: every /64 of the bearer is routed to the LAN, and one that left is
withdrawn there by router advertisements, in three rounds with another prefix present.

The `ip` commands succeed, and nobody else changes these routes.
-/

namespace Mu300.Ndp

open List

variable {α : Type} [DecidableEq α]

/-- What the script keeps between rounds, and the routes to `br-lan`. -/
structure State (α : Type) where
  gone : List α
  withdraw : List α
  /-- `withdraw_rounds` -/
  rounds : ℕ
  /-- `last_prefixes` -/
  last : List α
  /-- at `LAN_METRIC` -/
  lan : List α
  /-- at `OLD_METRIC` -/
  old : List α

/-- The script starts; an earlier version may have left routes at the old metric. -/
def start (old : List α) : State α := ⟨[], [], 0, [], [], old⟩

/-- Words that a list does not have yet. -/
def addWords (ws l : List α) : List α := ws.foldl (fun l p => if p ∈ l then l else l ++ [p]) l

/-- `withdraw_old`, with the prefixes of the advertisement that it sends. -/
def withdrawOld (prefixes : List α) (s : State α) : State α × Option (List α) :=
  let gone := s.gone ++ s.last.filter (· ∉ prefixes)
  let gone := addWords (gone.filter (· ∉ prefixes)) []
  let withdraw := s.withdraw.filter (· ∉ prefixes)
  if prefixes = [] then ({ s with gone := gone, withdraw := withdraw }, none)
  else
    let s := if gone = [] then { s with gone := gone, withdraw := withdraw }
      else { s with gone := [], withdraw := addWords gone withdraw, rounds := 3 }
    if s.withdraw ≠ [] ∧ 0 < s.rounds then ({ s with rounds := s.rounds - 1 }, some s.withdraw)
      else (s, none)

def dropOldPrefix (s : State α) (p : α) : State α :=
  { s with lan := s.lan.filter (· ≠ p), old := s.old.filter (· ≠ p) }

def lanRoute (s : State α) (p : α) : State α :=
  { s with lan := if p ∈ s.lan then s.lan else p :: s.lan, old := s.old.filter (· ≠ p) }

/-- `learn_once`, but for the host routes on the bearer. -/
def learnOnce (prefixes : List α) (s : State α) : State α × Option (List α) :=
  let s := (s.last.filter (· ∉ prefixes)).foldl dropOldPrefix s
  let (s, sent) := withdrawOld prefixes s
  ({ prefixes.foldl lanRoute s with last := prefixes }, sent)

/-- Rounds one after another. -/
def run (s : State α) (rounds : List (List α)) : State α :=
  rounds.foldl (fun s prefixes => (learnOnce prefixes s).1) s

section

variable {s : State α} {prefixes ps : List α} {p q : α} {c : ℕ}

/-! ## Words and routes -/

@[simp] theorem mem_addWords {ws l : List α} : p ∈ addWords ws l ↔ p ∈ ws ∨ p ∈ l := by
  induction ws generalizing l with
  | nil => simp [addWords]
  | cons w ws ih =>
    rw [addWords, foldl_cons, ← addWords, ih]
    split <;> grind

theorem foldl_dropOldPrefix (ps : List α) (s : State α) : ∃ old, ps.foldl dropOldPrefix s =
    { s with lan := s.lan.filter (· ∉ ps), old := old } := by
  induction ps generalizing s with
  | nil => exact ⟨s.old, by simp⟩
  | cons p ps ih =>
    obtain ⟨old, h⟩ := ih (dropOldPrefix s p)
    refine ⟨old, ?_⟩
    rw [foldl_cons, h]
    simp only [dropOldPrefix, filter_filter, State.mk.injEq, true_and, and_true]
    simp [Bool.and_comm]

theorem foldl_lanRoute (ps : List α) (s : State α) :
    ∃ lan old, ps.foldl lanRoute s = { s with lan := lan, old := old } ∧
    ∀ q, q ∈ lan ↔ q ∈ s.lan ∨ q ∈ ps := by
  induction ps generalizing s with
  | nil => exact ⟨s.lan, s.old, rfl, by simp⟩
  | cons p ps ih =>
    obtain ⟨lan, old, h, hlan⟩ := ih (lanRoute s p)
    refine ⟨lan, old, by rw [foldl_cons, h]; rfl, fun q => ?_⟩
    rw [hlan, lanRoute]
    split <;> grind

/-! ## One round -/

theorem withdrawOld_routes (prefixes lan old : List α) (s : State α) :
    withdrawOld prefixes { s with lan := lan, old := old } =
      ({ (withdrawOld prefixes s).1 with lan := lan, old := old }, (withdrawOld prefixes s).2) := by
  simp only [withdrawOld]
  split_ifs <;> rfl

theorem learnOnce_eq (prefixes : List α) (s : State α) : ∃ lan old, learnOnce prefixes s =
    ({ (withdrawOld prefixes s).1 with last := prefixes, lan := lan, old := old },
      (withdrawOld prefixes s).2) ∧
      ∀ q, q ∈ lan ↔ (q ∈ s.lan ∧ ¬ (q ∈ s.last ∧ q ∉ prefixes)) ∨ q ∈ prefixes := by
  obtain ⟨old, hdrop⟩ := foldl_dropOldPrefix (s.last.filter (· ∉ prefixes)) s
  obtain ⟨lan, old', hroute, hlan⟩ := foldl_lanRoute prefixes (withdrawOld prefixes
    { s with lan := s.lan.filter (· ∉ s.last.filter (· ∉ prefixes)), old := old }).1
  refine ⟨lan, old', ?_, fun q => ?_⟩
  · simp only [learnOnce, hdrop, hroute]
    rw [withdrawOld_routes]
  · rw [hlan, withdrawOld_routes]
    simp [imp_iff_not_or]

theorem withdrawOld_nil (s : State α) : ∃ gone, withdrawOld [] s = ({ s with gone := gone }, none) ∧
    ∀ q, q ∈ gone ↔ q ∈ s.gone ∨ q ∈ s.last :=
  ⟨_, by simp only [withdrawOld, not_mem_nil, not_false_eq_true, decide_true, filter_true]; rfl,
    by simp⟩

/-- A round with one: what left before or now is withdrawn, and the count starts again when
something left. -/
theorem withdrawOld_of_ne (h : prefixes ≠ []) (s : State α) : ∃ w r, withdrawOld prefixes s =
    (if w ≠ [] ∧ 0 < r then ({ s with gone := [], withdraw := w, rounds := r - 1 }, some w)
      else ({ s with gone := [], withdraw := w, rounds := r }, none)) ∧
    (∀ q, q ∈ w ↔ q ∉ prefixes ∧ (q ∈ s.withdraw ∨ q ∈ s.gone ∨ q ∈ s.last)) ∧
    ((∃ q, q ∉ prefixes ∧ (q ∈ s.gone ∨ q ∈ s.last)) → r = 3) ∧ (r = 3 ∨ r = s.rounds) := by
  rw [withdrawOld, if_neg h]
  generalize hg : addWords
    ((s.gone ++ s.last.filter (· ∉ prefixes)).filter (· ∉ prefixes)) [] = gone
  have hmem : ∀ q, q ∈ gone ↔ q ∉ prefixes ∧ (q ∈ s.gone ∨ q ∈ s.last) := by
    rw [← hg]
    simp only [mem_addWords, mem_filter, mem_append, not_mem_nil, decide_eq_true_eq]
    tauto
  by_cases hnil : gone = []
  · refine ⟨_, _, by rw [if_pos hnil, hnil], fun q => ?_, fun hleft => ?_, .inr rfl⟩
    · have hq := hmem q
      rw [hnil] at hq
      simp only [mem_filter, decide_eq_true_eq, not_mem_nil, false_iff] at hq ⊢
      tauto
    · obtain ⟨q, hq⟩ := hleft
      exact absurd ((hmem q).2 hq) (hnil ▸ not_mem_nil)
  · refine ⟨_, _, by rw [if_neg hnil], fun q => ?_, fun _ => rfl, .inl rfl⟩
    simp only [mem_addWords, hmem, mem_filter, decide_eq_true_eq]
    tauto

theorem sent_apart (h : (learnOnce prefixes s).2 = some ps) :
    prefixes ≠ [] ∧ ∀ q ∈ ps, q ∉ prefixes := by
  obtain ⟨lan, old, heq, -⟩ := learnOnce_eq prefixes s
  rw [heq] at h
  by_cases hnil : prefixes = []
  · obtain ⟨gone, hround, -⟩ := withdrawOld_nil s
    rw [hnil, hround] at h
    cases h
  · obtain ⟨w, r, hround, hmem, -⟩ := withdrawOld_of_ne hnil s
    rw [hround] at h
    split_ifs at h
    cases h
    exact ⟨hnil, fun q hq => ((hmem q).1 hq).1⟩

theorem routes_learnOnce (h : ∀ q, q ∈ s.lan → q ∈ s.last) :
    (∀ q, q ∈ (learnOnce prefixes s).1.lan ↔ q ∈ prefixes) ∧ (learnOnce prefixes s).1.last =
      prefixes := by
  obtain ⟨lan, old, heq, hlan⟩ := learnOnce_eq prefixes s
  rw [heq]
  refine ⟨fun q => ?_, rfl⟩
  rw [hlan]
  tauto

/-- A prefix that left, `c` rounds with a prefix present ago. -/
def Leaving (p : α) (c : ℕ) (s : State α) : Prop :=
  c = 0 ∧ (p ∈ s.last ∨ p ∈ s.gone) ∨ p ∈ s.withdraw ∧ 3 ≤ s.rounds + c

/-- It is withdrawn in a round with a prefix present, up to the third, and stays on the way. -/
theorem Leaving.learnOnce (h : Leaving p c s) (hp : p ∉ prefixes) :
    Leaving p (if prefixes = [] then c else c + 1) (learnOnce prefixes s).1 ∧
      (prefixes ≠ [] → c < 3 → ∃ ps, (learnOnce prefixes s).2 = some ps ∧ p ∈ ps) := by
  obtain ⟨lan, old, heq, -⟩ := learnOnce_eq prefixes s
  rw [heq]
  by_cases hnil : prefixes = []
  · obtain ⟨gone, hround, hmem⟩ := withdrawOld_nil s
    rw [hnil, hround, if_pos rfl]
    refine ⟨h.imp_left fun hwait => ⟨hwait.1, .inr ((hmem p).2 hwait.2.symm)⟩,
      fun hne => absurd rfl hne⟩
  · obtain ⟨w, r, hround, hmem, hstart, hr⟩ := withdrawOld_of_ne hnil s
    have hw : p ∈ w := (hmem p).2
      ⟨hp, h.elim (fun hwait => .inr hwait.2.symm) fun hwith => .inl hwith.1⟩
    have hcount : 3 ≤ r + c := by
      rcases h with ⟨-, hwait⟩ | ⟨-, hrounds⟩
      · rw [hstart ⟨p, hp, hwait.symm⟩]
        omega
      · omega
    rw [hround, if_neg hnil]
    split_ifs with hsend
    · exact ⟨.inr ⟨hw, by dsimp only; omega⟩, fun _ _ => ⟨w, rfl, hw⟩⟩
    · have hzero : r = 0 := by
        by_contra hpos
        exact hsend ⟨ne_nil_of_mem hw, Nat.pos_of_ne_zero hpos⟩
      exact ⟨.inr ⟨hw, by dsimp only; omega⟩, fun _ hlt => by omega⟩

/-! ## Runs -/

theorem lan_run (old : List α) (rounds : List (List α)) :
    ∀ q, q ∈ (run (start old) rounds).lan → q ∈ (run (start old) rounds).last := by
  have hrun : ∀ (rounds : List (List α)) (s : State α), (∀ q, q ∈ s.lan → q ∈ s.last) →
      ∀ q, q ∈ (run s rounds).lan → q ∈ (run s rounds).last := by
    intro rounds
    induction rounds with
    | nil => exact fun s h => h
    | cons prefixes rounds ih =>
      intro s h
      obtain ⟨hlan, hlast⟩ := @routes_learnOnce _ _ _ prefixes h
      exact ih _ fun q hq => hlast ▸ (hlan q).1 hq
  exact hrun rounds _ fun q hq => absurd hq not_mem_nil

theorem Leaving.run {rounds : List (List α)} (h : Leaving p c s)
    (hp : ∀ prefixes ∈ rounds, p ∉ prefixes) :
    Leaving p (c + (rounds.filter (· ≠ [])).length) (run s rounds) := by
  induction rounds generalizing s c with
  | nil => exact h
  | cons prefixes rounds ih =>
    obtain ⟨hhead, htail⟩ := forall_mem_cons.1 hp
    have hnext := ih (h.learnOnce hhead).1 htail
    by_cases hnil : prefixes = []
    · simpa [run, hnil] using hnext
    · have hcount : ((prefixes :: rounds).filter (· ≠ [])).length =
        (rounds.filter (· ≠ [])).length + 1 := by simp [hnil]
      rw [if_neg hnil] at hnext
      rw [hcount, Nat.add_comm _ 1, ← Nat.add_assoc]
      exact hnext

/-- **Withdrawal is right**, in any round after any others: no present prefix is withdrawn, nothing
is sent while there is none, a prefix that left is withdrawn in the first three rounds with a prefix
present unless it came back before, and the routes are those of the prefixes. -/
theorem prefixes_withdrawn (old : List α) (rounds : List (List α)) (prefixes : List α) :
    (∀ ps, (learnOnce prefixes (run (start old) rounds)).2 = some ps → prefixes ≠ [] ∧
      ∀ q ∈ ps, q ∉ prefixes) ∧
    (∀ before had since p, rounds = before ++ had :: since → p ∈ had →
      (∀ round ∈ since, p ∉ round) → p ∉ prefixes →
      prefixes ≠ [] → (since.filter (· ≠ [])).length < 3 →
        ∃ ps, (learnOnce prefixes (run (start old) rounds)).2 = some ps ∧ p ∈ ps) ∧
    ∀ q, q ∈ (learnOnce prefixes (run (start old) rounds)).1.lan ↔ q ∈ prefixes := by
  refine ⟨fun ps => sent_apart, fun before had since p hrounds hhad hsince hp hne hlt => ?_,
    (routes_learnOnce (lan_run old rounds)).1⟩
  have hleft : Leaving p 0 (run (start old) (before ++ [had])) := by
    refine .inl ⟨rfl, .inl ?_⟩
    rw [run, foldl_append]
    exact (routes_learnOnce (lan_run old before)).2 ▸ hhad
  have hsplit : rounds = (before ++ [had]) ++ since := by simp [hrounds]
  have hnow := hleft.run hsince
  rw [run, run, ← foldl_append, ← hsplit, ← run, Nat.zero_add] at hnow
  exact (hnow.learnOnce hp).2 hne hlt

end

end Mu300.Ndp
