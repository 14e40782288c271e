import Mu300.Lib.Shell

/-!
# Paths

A path is a list of names; as text every name has a slash before it.

* `Plain` — what the name of a file can be.
* `resolve` — the names in a text, as the system reads it.
* `resolve_slashed`, `slashed_below_iff` — the text of a path is read as that path, and one text
  goes on from another at a slash exactly where the path is below the other.
-/

namespace Paths

open Shell List

structure Plain (n : Text) : Prop where
  ne_nil : n ≠ []
  slash : '/' ∉ n
  dot : n ≠ ['.']
  dots : n ≠ ['.', '.']

/-- Every name with a slash before it. -/
def slashed (p : List Text) : Text := p.flatMap ('/' :: ·)

def resolve (t : Text) : List Text := (t.splitOn '/').filter fun part => part ≠ [] ∧ part ≠ ['.']

@[simp] theorem slashed_nil : slashed [] = [] := rfl

@[simp] theorem slashed_cons (n : Text) (p : List Text) :
    slashed (n :: p) = '/' :: n ++ slashed p := rfl

@[simp] theorem slashed_append (p q : List Text) : slashed (p ++ q) = slashed p ++ slashed q :=
  flatMap_append

theorem intercalate_cons (n : Text) (p : List Text) :
    ['/'].intercalate (n :: p) = n ++ slashed p := by
  induction p generalizing n with
  | nil => simp
  | cons m p ih =>
    rw [intercalate_cons_cons, ih]
    simp

theorem resolve_slashed {p : List Text} (h : ∀ n ∈ p, Plain n) :
    resolve ('.' :: slashed p) = p := by
  have hsplit : ('.' :: slashed p).splitOn '/' = ['.'] :: p := by
    have hjoin := intercalate_cons ['.'] p
    rw [singleton_append] at hjoin
    rw [← hjoin]
    exact splitOn_intercalate '/' (forall_mem_cons.2 ⟨by decide, fun n hn => (h n hn).slash⟩)
      (cons_ne_nil _ _)
  rw [resolve, hsplit, filter_cons_of_neg (by decide), filter_eq_self]
  intro n hn
  exact decide_eq_true ⟨(h n hn).ne_nil, (h n hn).dot⟩

theorem eq_of_slash_begins {n m a b : Text} (hn : '/' ∉ n) (hm : '/' ∉ m)
    (h : n ++ '/' :: a <+: m ++ b)
    (hb : b = [] ∨ ∃ b', b = '/' :: b') : n = m ∧ '/' :: a <+: b := by
  obtain ⟨t, ht⟩ := h
  have hfirst := congrArg (splitOn '/') ht
  rw [append_assoc, cons_append, splitOn_append_cons_self_of_not_mem hn] at hfirst
  obtain rfl : n = m := by
    rcases hb with rfl | ⟨b', rfl⟩
    · rw [append_nil, splitOn_eq_singleton hm] at hfirst
      exact (List.cons.inj hfirst).1
    · rw [splitOn_append_cons_self_of_not_mem hm] at hfirst
      exact (List.cons.inj hfirst).1
  exact ⟨rfl, t, append_cancel_left ((append_assoc ..).symm.trans ht)⟩

theorem slashed_eq (p : List Text) : slashed p = [] ∨ ∃ b, slashed p = '/' :: b := by
  cases p with
  | nil => exact .inl rfl
  | cons n p => exact .inr ⟨_, rfl⟩

theorem slashed_below_iff {k q : List Text} (hk : ∀ n ∈ k, '/' ∉ n) (hq : ∀ n ∈ q, '/' ∉ n) :
    slashed k ++ ['/'] <+: slashed q ↔ ∃ n r, q = k ++ n :: r := by
  constructor
  · intro h
    induction k generalizing q with
    | nil =>
      cases q with
      | nil => cases prefix_nil.1 h
      | cons n r => exact ⟨n, r, rfl⟩
    | cons m k ih =>
      cases q with
      | nil => cases prefix_nil.1 h
      | cons m' q =>
        rw [slashed_cons, slashed_cons, cons_append, cons_append, cons_append, cons_prefix_cons,
          append_assoc] at h
        obtain ⟨tail, htail⟩ : ∃ tail, slashed k ++ ['/'] = '/' :: tail := by
          rcases slashed_eq k with hk | ⟨b, hk⟩
          · exact ⟨[], by rw [hk]; rfl⟩
          · exact ⟨b ++ ['/'], by rw [hk]; rfl⟩
        rw [htail] at h
        obtain ⟨rfl, hrest⟩ :=
            eq_of_slash_begins (hk m mem_cons_self) (hq m' mem_cons_self) h.2 (slashed_eq q)
        rw [← htail] at hrest
        obtain ⟨n, r, rfl⟩ := ih (fun n hn => hk n (.tail _ hn))
          (fun n hn => hq n (.tail _ hn)) hrest
        exact ⟨n, r, rfl⟩
  · rintro ⟨n, r, rfl⟩
    exact ⟨n ++ slashed r, by simp⟩

end Paths
