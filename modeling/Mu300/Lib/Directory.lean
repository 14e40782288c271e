import Mathlib.Algebra.BigOperators.Group.Finset.Piecewise
import Mathlib.Algebra.Order.BigOperators.Group.Finset

/-!
# Directories that are renamed and removed

A handful of names, each of them free or the name of a directory, and the two commands that
scripts work on them with.

* `Dir` — a directory: which one it is (its inode), whether anything of it is missing, and the
  directories that were moved into it.
-/

namespace Directory

open Function

variable {ν : Type} (i : ℕ)

/-! ## Trees -/

/-- The directories inside a directory. -/
inductive Inner (ν : Type) : Type where
  | empty
  /-- an entry, with what is inside it, and the other entries -/
  | entry (name : ν) (id : ℕ) (whole : Bool) (inner rest : Inner ν)
  deriving DecidableEq

structure Dir (ν : Type) where
  /-- which directory this is, whatever its name -/
  id : ℕ
  /-- no file of it was removed -/
  whole : Bool
  inner : Inner ν
  deriving DecidableEq

namespace Inner

def has [DecidableEq ν] (n : ν) : Inner ν → Bool
  | empty => false
  | entry m _ _ _ rest => m = n || has n rest

/-- The entries an `rm -rf` that stopped did not get to. -/
def prune (keeps : ν → Bool) : Inner ν → Inner ν
  | empty => empty
  | entry m i w inner rest => if keeps m then entry m i w inner (prune keeps rest)
    else prune keeps rest

/-- How often the directory `i` occurs. -/
def count (i : ℕ) : Inner ν → ℕ
  | empty => 0
  | entry _ j _ inner rest => (if j = i then 1 else 0) + count i inner + count i rest

theorem count_prune_le (keeps : ν → Bool) (i : ℕ) (t : Inner ν) :
    (t.prune keeps).count i ≤ t.count i := by
  induction t with
  | empty => exact Nat.le_refl _
  | entry m j w inner rest _ ih =>
    rw [prune]
    split
    · simp only [count]
      omega
    · simp only [count]
      omega

end Inner

namespace Dir

/-- How often the directory `i` occurs in the tree, itself included. -/
def count (i : ℕ) (d : Dir ν) : ℕ := (if d.id = i then 1 else 0) + d.inner.count i

/-- A directory with another one moved into it. -/
def take (t : Dir ν) (n : ν) (d : Dir ν) : Dir ν :=
  { t with inner := .entry n d.id d.whole d.inner t.inner }

/-- What an `rm -rf` that stopped has left: the directory, and the entries it did not get to. -/
def left (keeps : ν → Bool) (d : Dir ν) : Dir ν :=
  { d with whole := false, inner := d.inner.prune keeps }

@[simp] theorem take_id (t : Dir ν) (n : ν) (d : Dir ν) : (t.take n d).id = t.id := rfl

theorem count_take (i : ℕ) (t : Dir ν) (n : ν) (d : Dir ν) :
    (t.take n d).count i = t.count i + d.count i := by
  rw [count, take_id, take, Inner.count, count, count]
  omega

theorem count_id_pos (d : Dir ν) : 0 < d.count d.id := by simp [count]

end Dir

/-! ## Names -/

abbrev Listing (ν : Type) := ν → Option (Dir ν)

/-- How often the directory `i` occurs under one name. -/
def weight (i : ℕ) (o : Option (Dir ν)) : ℕ := o.elim 0 (Dir.count i)

@[simp] theorem weight_none : weight i (none : Option (Dir ν)) = 0 := rfl

@[simp] theorem weight_some (d : Dir ν) : weight i (some d) = d.count i := rfl

/-- How often the directory `i` occurs at all. -/
def total [Fintype ν] (s : Listing ν) (i : ℕ) : ℕ := ∑ n, weight i (s n)

theorem weight_le_total [Fintype ν] (s : Listing ν) (n : ν) (i : ℕ) : weight i (s n) ≤ total s i :=
  Finset.single_le_sum (f := fun m => weight i (s m)) (fun _ _ => Nat.zero_le _) (Finset.mem_univ n)

section

variable [DecidableEq ν]

/-- `mv SRC DST`, when it can be done: a directory goes to a free name, or into the directory of
that name unless there is one of its own name inside. -/
def mv (s : Listing ν) (src dst : ν) : Option (Listing ν) :=
  match s src with
  | none => none
  | some d =>
    if src = dst then none
    else match s dst with
      | none => some (update (update s src none) dst (some d))
      | some t =>
        if t.inner.has src then none
        else some (update (update s src none) dst (some (t.take src d)))

/-- **`mv` taken apart**: what was at the source is at the target, or in what was there. -/
theorem mv_eq_some {s s' : Listing ν} {src dst : ν} (h : mv s src dst = some s') :
    ∃ d, s src = some d ∧ src ≠ dst ∧ s' src = none ∧ (∀ n, n ≠ src → n ≠ dst → s' n = s n) ∧
      ((s dst = none ∧ s' dst = some d) ∨ ∃ t, s dst = some t ∧ s' dst = some (t.take src d)) := by
  rw [mv] at h
  rcases hd : s src with _ | d
  · rw [hd] at h
    cases h
  rw [hd] at h
  by_cases hne : src = dst
  · simp [hne] at h
  have frame : ∀ (x : Option (Dir ν)) n, n ≠ src → n ≠ dst →
      update (update s src none) dst x n = s n := by
    intro x n hs hd'
    rw [update_of_ne hd', update_of_ne hs]
  have gone : ∀ x : Option (Dir ν), update (update s src none) dst x src = none := by
    intro x
    rw [update_of_ne hne, update_self]
  rcases ht : s dst with _ | t
  · simp only [hne, if_false, ht, Option.some.injEq] at h
    subst h
    exact ⟨d, rfl, hne, gone _, frame _, .inl ⟨rfl, update_self ..⟩⟩
  · simp only [hne, if_false, ht] at h
    by_cases hin : t.inner.has src
    · simp [hin] at h
    · simp only [hin] at h
      cases h
      exact ⟨d, rfl, hne, gone _, frame _, .inr ⟨t, rfl, update_self ..⟩⟩

theorem mv_to_free {s s' : Listing ν} {src dst : ν} (h : mv s src dst = some s')
    (hf : s dst = none) : s' dst = s src := by
  obtain ⟨d, hd, -, -, -, hdst⟩ := mv_eq_some h
  rcases hdst with ⟨-, hsome⟩ | ⟨t, ht, -⟩
  · exact hsome.trans hd.symm
  · cases hf.symm.trans ht

theorem mv_free {s : Listing ν} {src dst : ν} {d : Dir ν} (hd : s src = some d) (hne : src ≠ dst)
    (hf : s dst = none) : (mv s src dst).isSome := by
  simp [mv, hd, hne, hf]

variable [Fintype ν]

theorem total_update (s : Listing ν) (n : ν) (x : Option (Dir ν)) (i : ℕ) :
    total (update s n x) i + weight i (s n) = total s i + weight i x := by
  have e : (fun m => weight i (update s n x m)) =
      update (fun m => weight i (s m)) n (weight i x) := by
    funext m
    by_cases hm : m = n
    · subst hm
      simp
    · simp [update_of_ne hm]
  have hs := Finset.add_sum_erase Finset.univ (fun m => weight i (s m)) (Finset.mem_univ n)
  unfold total
  rw [e, Finset.sum_update_of_mem (Finset.mem_univ n), Finset.sdiff_singleton_eq_erase]
  omega

theorem weight_add_weight_le (s : Listing ν) {n m : ν} (hne : m ≠ n) (i : ℕ) :
    weight i (s n) + weight i (s m) ≤ total s i := by
  have hu := total_update s n none i
  have hw := weight_le_total (update s n none) m i
  rw [update_of_ne hne] at hw
  simp only [weight_none] at hu
  omega

/-- **Nothing is lost or doubled by `mv`.** -/
theorem total_mv {s s' : Listing ν} {src dst : ν} (h : mv s src dst = some s') (i : ℕ) :
    total s' i = total s i := by
  obtain ⟨d, hd, hne, hsrc, hframe, hdst⟩ := mv_eq_some h
  have e : s' = update (update s src none) dst (s' dst) := by
    funext n
    by_cases hn : n = dst
    · subst hn
      rw [update_self]
    · rw [update_of_ne hn]
      by_cases hn' : n = src
      · subst hn'
        rw [update_self, hsrc]
      · rw [update_of_ne hn', hframe n hn' hn]
  have h₁ := total_update s src none i
  have h₂ := total_update (update s src none) dst (s' dst) i
  rw [update_of_ne hne.symm, ← e] at h₂
  simp only [hd, weight_some, weight_none] at h₁
  rcases hdst with ⟨ht, hs⟩ | ⟨t, ht, hs⟩
  · rw [ht, hs] at h₂
    simp only [weight_some, weight_none] at h₂
    omega
  · rw [ht, hs] at h₂
    simp only [weight_some, Dir.count_take] at h₂
    omega

end

end Directory
