import Mathlib.Data.Nat.Notation

/-!
# Loops

A loop of a program is one pass over its state: the pass goes on from another state, or it leaves
the loop with a result.

* `run` — as many passes as a measure of the state allows, and one more.
* `run_of_inl`, `run_of_inr` — where every pass that goes on makes the measure smaller, the bound is
  never met, and the loop can be taken apart pass by pass.
* `run_congr` — the loop does the same from states that one pass does not tell apart.
* `foldlM_rule` — a loop over a list that may stop early: what every pass keeps holds at the end.
* `foldlM_total` — where what every pass keeps lets the next one work, the loop gets to its end.
-/

namespace Loop

variable {σ ρ : Type} (pass : σ → σ ⊕ ρ) (stuck : ρ)

/-- At most `n` passes; `stuck` when they were not enough. -/
def upTo : ℕ → σ → ρ
  | 0, _ => stuck
  | n + 1, s =>
    match pass s with
    | .inl s' => upTo n s'
    | .inr x => x

def run (size : σ → ℕ) (s : σ) : ρ := upTo pass stuck (size s + 1) s

variable {pass stuck} {size : σ → ℕ} {s s' : σ} {x : ρ} {n : ℕ}

theorem upTo_of_inl (h : pass s = .inl s') : upTo pass stuck (n + 1) s = upTo pass stuck n s' := by
  rw [upTo, h]

theorem upTo_of_inr (h : pass s = .inr x) : upTo pass stuck (n + 1) s = x := by
  rw [upTo, h]

theorem upTo_of_lt (hless : ∀ s s', pass s = .inl s' → size s' < size s) {m : ℕ}
    (hn : size s < n) (hm : size s < m) : upTo pass stuck n s = upTo pass stuck m s := by
  induction n generalizing m s with
  | zero => exact absurd hn (Nat.not_lt_zero _)
  | succ n ih =>
    obtain ⟨m, rfl⟩ : ∃ k, m = k + 1 := ⟨m - 1, by omega⟩
    cases hp : pass s with
    | inr x => rw [upTo_of_inr hp, upTo_of_inr hp]
    | inl s' =>
      have hs' := hless s s' hp
      rw [upTo_of_inl hp, upTo_of_inl hp]
      exact ih (by omega) (by omega)

theorem run_of_inr (h : pass s = .inr x) : run pass stuck size s = x := upTo_of_inr h

theorem run_of_inl (hless : ∀ s s', pass s = .inl s' → size s' < size s) (h : pass s = .inl s') :
    run pass stuck size s = run pass stuck size s' := by
  rw [run, upTo_of_inl h]
  exact upTo_of_lt hless (hless s s' h) (Nat.lt_succ_self _)

theorem run_congr (hless : ∀ s s', pass s = .inl s' → size s' < size s) (h : pass s = pass s') :
    run pass stuck size s = run pass stuck size s' := by
  cases hp : pass s' with
  | inl t => rw [run_of_inl hless hp, run_of_inl hless (h.trans hp)]
  | inr x => rw [run_of_inr hp, run_of_inr (h.trans hp)]

variable {β γ : Type} {I : List β → σ → Prop} {l : List β}

theorem foldlM_rule {f : σ → β → Option σ}
    (hstep : ∀ done b rest s s', l = done ++ b :: rest → I done s → f s b = some s' →
      I (done ++ [b]) s')
    (hfirst : I [] s) (h : l.foldlM f s = some s') : I l s' := by
  suffices hgen : ∀ done rest s, l = done ++ rest → I done s →
    rest.foldlM f s = some s' → I l s' from hgen [] l s rfl hfirst h
  intro done rest
  induction rest generalizing done with
  | nil =>
    intro s hl hI hs
    obtain rfl : s = s' := Option.some.inj hs
    rw [hl, List.append_nil]
    exact hI
  | cons b rest ih =>
    intro s hl hI hs
    obtain ⟨t, ht, hs⟩ := Option.bind_eq_some_iff.1 hs
    refine ih (done ++ [b]) t ?_ (hstep done b rest s t hl hI ht) hs
    rw [hl, List.append_assoc, List.singleton_append]

theorem foldlM_flatMap_total {f : σ → γ → Option σ} {g : β → List γ}
    (hstep : ∀ done b rest s, l = done ++ b :: rest → I done s →
      ∃ s', (g b).foldlM f s = some s' ∧ I (done ++ [b]) s')
    (hfirst : I [] s) : ∃ s', (l.flatMap g).foldlM f s = some s' ∧ I l s' := by
  suffices hgen : ∀ done rest s, l = done ++ rest → I done s →
      ∃ s', (rest.flatMap g).foldlM f s = some s' ∧ I l s' from hgen [] l s rfl hfirst
  intro done rest
  induction rest generalizing done with
  | nil =>
    intro s hl hI
    exact ⟨s, rfl, by rwa [hl, List.append_nil]⟩
  | cons b rest ih =>
    intro s hl hI
    obtain ⟨t, ht, hI⟩ := hstep done b rest s hl hI
    obtain ⟨s', hs', hend⟩ := ih (done ++ [b]) t (by rw [hl, List.append_assoc]; rfl) hI
    refine ⟨s', ?_, hend⟩
    rw [List.flatMap_cons, List.foldlM_append, ht]
    exact hs'

theorem foldlM_total {f : σ → β → Option σ}
    (hstep : ∀ done b rest s, l = done ++ b :: rest → I done s →
      ∃ s', f s b = some s' ∧ I (done ++ [b]) s')
    (hfirst : I [] s) : ∃ s', l.foldlM f s = some s' ∧ I l s' := by
  have hone : ∀ done b rest s, l = done ++ b :: rest → I done s →
      ∃ s', [b].foldlM f s = some s' ∧ I (done ++ [b]) s' := fun done b rest s hl hI => by
    obtain ⟨s', hs', hI'⟩ := hstep done b rest s hl hI
    exact ⟨s', by rw [List.foldlM_cons, hs']; rfl, hI'⟩
  have hloop := foldlM_flatMap_total hone hfirst
  rwa [List.flatMap_singleton'] at hloop

end Loop
