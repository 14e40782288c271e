import Mathlib.Data.List.Basic

/-!
# Refusals

Code that checks and stops: `refuse c x` ends with the error `x` when `c` holds.
`bind_eq_ok` and `refuse_eq_ok` take a chain of such checks that came through apart,
one check at a time.
-/

namespace Refuse

universe u v

variable {ε : Type u} {α β : Type v}

/-- Stop with `x` when `c` holds. -/
def refuse (c : Prop) [Decidable c] (x : ε) : Except ε PUnit :=
  if c then .error x else .ok ⟨⟩

theorem bind_eq_ok {m : Except ε α} {f : α → Except ε β} {b : β} :
    (m >>= f) = .ok b ↔ ∃ a, m = .ok a ∧ f a = .ok b := by
  constructor
  · intro h
    cases m with
    | error x => cases h
    | ok a => exact ⟨a, rfl, h⟩
  · rintro ⟨a, rfl, hf⟩
    exact hf

theorem refuse_eq_ok {c : Prop} [Decidable c] {x : ε} {u : PUnit} : refuse c x = .ok u ↔ ¬ c := by
  unfold refuse
  split
  · rename_i hc
    exact ⟨nofun, fun h => absurd hc h⟩
  · rename_i hc
    exact ⟨fun _ => hc, fun _ => rfl⟩

end Refuse
