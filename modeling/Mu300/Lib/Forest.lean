import Mathlib.Data.List.Basic

/-!
# What is in a directory

The entries of a directory in the order they are read, each with a name, what it is, and the entries
below it.

* `find` — what is at a path.
* `walk` — every path with what is there, a directory before what is in it.
-/

/-- The entries of a directory: the first with what is below it, and the others. -/
inductive Forest (ν α : Type) : Type where
  | nil
  | cons (name : ν) (info : α) (below rest : Forest ν α)
  deriving DecidableEq

namespace Forest

open List

variable {ν α : Type} {x : List ν × α}

def names : Forest ν α → List ν
  | nil => []
  | cons n _ _ rest => n :: rest.names

def walk : Forest ν α → List (List ν × α)
  | nil => []
  | cons n a below rest => ([n], a) :: below.walk.map (fun x => (n :: x.1, x.2)) ++ rest.walk

/-- No directory has a name twice. -/
def Distinct : Forest ν α → Prop
  | nil => True
  | cons n _ below rest => n ∉ rest.names ∧ below.Distinct ∧ rest.Distinct

def All (P : ν → Prop) : Forest ν α → Prop
  | nil => True
  | cons n _ below rest => P n ∧ below.All P ∧ rest.All P

theorem All.walk {P : ν → Prop} {f : Forest ν α} (h : f.All P) (hx : x ∈ f.walk) :
    ∀ n ∈ x.1, P n := by
  induction f generalizing x with
  | nil => cases hx
  | cons n a below rest ihb ihr =>
    rw [Forest.walk, cons_append, mem_cons, mem_append, mem_map] at hx
    obtain ⟨hn, hbelow, hrest⟩ := h
    rcases hx with rfl | ⟨y, hy, rfl⟩ | hx
    · intro m hm
      rwa [mem_singleton.1 hm]
    · exact forall_mem_cons.2 ⟨hn, ihb hbelow hy⟩
    · exact ihr hrest hx

theorem exists_of_mem_walk {f : Forest ν α} (hx : x ∈ f.walk) :
    ∃ n ∈ f.names, ∃ p, x.1 = n :: p := by
  induction f with
  | nil => cases hx
  | cons n a below rest _ ih =>
    rw [walk, cons_append, mem_cons, mem_append, mem_map] at hx
    rcases hx with rfl | ⟨y, -, rfl⟩ | hx
    · exact ⟨n, mem_cons_self, [], rfl⟩
    · exact ⟨n, mem_cons_self, y.1, rfl⟩
    · obtain ⟨m, hm, p, hp⟩ := ih hx
      exact ⟨m, mem_cons_of_mem _ hm, p, hp⟩

def find [DecidableEq ν] : Forest ν α → List ν → Option α
  | nil, _ => none
  | cons _ _ _ _, [] => none
  | cons n a _ rest, [m] => if m = n then some a else rest.find [m]
  | cons n _ below rest, m :: k :: p => if m = n then below.find (k :: p)
    else rest.find (m :: k :: p)

variable [DecidableEq ν] {n m : ν} {a : α} {below rest f : Forest ν α} {p : List ν}

@[simp] theorem find_nil (f : Forest ν α) : f.find [] = none := by
  cases f <;> rfl

@[simp] theorem find_below : (cons n a below rest).find (n :: m :: p) = below.find (m :: p) :=
  if_pos rfl

theorem find_rest (h : m ≠ n) : (cons n a below rest).find (m :: p) = rest.find (m :: p) := by
  cases p <;> exact if_neg h

theorem find_of_not_mem (h : m ∉ f.names) : f.find (m :: p) = none := by
  induction f with
  | nil => rfl
  | cons n a below rest _ ih =>
    rw [names, mem_cons, not_or] at h
    rw [find_rest h.1, ih h.2]

end Forest
