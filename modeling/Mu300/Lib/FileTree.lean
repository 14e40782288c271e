import Mu300.Lib.Shell

/-!
# Trees of files

What is at a path: a directory, a file, or something else. Two paths that lead to one inode are two
names of one file.

* `Tree` — the entries of a tree; a directory has a time of its own.
* `Tree.enter` — a name comes into a directory, whose time becomes the present.
* `Tree.find` — a path is looked up without following a link.
* `Tree.restore` — directories get back times that were noted; what was only written into is then
  as it was (`restore_eq`).
-/

namespace FileTree

open Shell List Prod Option

/-! ## Paths -/

/-- The directories on the way to a path, below the root. -/
def above (p : Text) : List Text :=
  (range p.length).filterMap fun i => if p[i]? = some '/' then some (p.take i) else none

/-- The directory a path is in. The root is the empty path. -/
def directory (p : Text) : Text := (above p).getLast?.getD []

theorem directory_eq (p : Text) : directory p = [] ∨ directory p ∈ above p := by
  rcases h : (above p).getLast? with _ | d
  · exact .inl (by rw [directory, h]; rfl)
  · exact .inr (by rw [directory, h]; exact mem_of_getLast? h)

theorem mem_above_iff {d p : Text} : d ∈ above p ↔ ∃ r, p = d ++ '/' :: r := by
  rw [above, mem_filterMap]
  constructor
  · rintro ⟨i, -, h⟩
    split at h
    · next hi =>
      obtain ⟨hlt, hslash⟩ := List.getElem?_eq_some_iff.1 hi
      cases h
      refine ⟨p.drop (i + 1), ?_⟩
      rw [← hslash, ← drop_eq_getElem_cons hlt, take_append_drop]
    · cases h
  · rintro ⟨r, rfl⟩
    exact ⟨d.length, by simp, by simp⟩

theorem above_trans {d q p : Text} (h : d ∈ above q) (hq : q ∈ above p) : d ∈ above p := by
  obtain ⟨s, rfl⟩ := mem_above_iff.1 h
  obtain ⟨r, rfl⟩ := mem_above_iff.1 hq
  exact mem_above_iff.2 ⟨s ++ '/' :: r, by simp⟩

theorem above_total {d q p : Text} (hd : d ∈ above p) (hq : q ∈ above p) :
    d = q ∨ d ∈ above q ∨ q ∈ above d := by
  obtain ⟨r, rfl⟩ := mem_above_iff.1 hd
  obtain ⟨s, hs⟩ := mem_above_iff.1 hq
  rcases append_eq_append_iff.1 hs with ⟨a, rfl, ha⟩ | ⟨a, rfl, ha⟩
  · cases a with
    | nil => exact .inl (append_nil _).symm
    | cons ch a =>
      obtain ⟨rfl, -⟩ := List.cons.inj ha
      exact .inr (.inl (mem_above_iff.2 ⟨a, rfl⟩))
  · cases a with
    | nil => exact .inl (append_nil _)
    | cons ch a =>
      obtain ⟨rfl, -⟩ := List.cons.inj ha
      exact .inr (.inr (mem_above_iff.2 ⟨a, rfl⟩))

theorem above_sorted (p : Text) : (above p).Pairwise fun d q => d.length < q.length := by
  refine List.Pairwise.filterMap (R := fun i j => i < j) _ (fun i j hij d hd q hq => ?_)
    pairwise_lt_range
  split at hd
  · next hi =>
    split at hq
    · next hj =>
      cases hd
      cases hq
      have hlt := (List.getElem?_eq_some_iff.1 hj).1
      rw [length_take, length_take]
      omega
    · cases hq
  · cases hd

theorem directory_of_above {d p : Text} (h : d ∈ above p) :
    directory p ∈ above p ∧ (d = directory p ∨ d ∈ above (directory p)) := by
  rcases eq_nil_or_concat (above p) with hnil | ⟨init, l, hl⟩
  · rw [hnil] at h
    cases h
  have hdir : directory p = l := by
    rw [directory, hl]
    simp
  have hmem : l ∈ above p := by
    rw [hl]
    simp
  rw [hdir]
  refine ⟨hmem, (above_total h hmem).imp_right fun hor => hor.resolve_right fun hbelow => ?_⟩
  -- the last of them is the longest
  have hlonger : l.length < d.length := by
    obtain ⟨r, rfl⟩ := mem_above_iff.1 hbelow
    simp
  have hsorted := above_sorted p
  rw [hl, concat_eq_append, pairwise_append] at hsorted
  rw [hl, concat_eq_append, mem_append, mem_singleton] at h
  rcases h with h | rfl
  · have := hsorted.2.2 d h l (mem_singleton_self l)
    omega
  · omega

/-! ## Entries -/

variable {μ τ σ φ : Type}

/-- What is at a path: a directory with its attributes and its time, a name of a file, or something
else. -/
inductive Entry (μ τ σ : Type) : Type where
  | dir (attrs : μ) (time : τ)
  | file (ino : ℕ)
  | special (what : σ)
  deriving DecidableEq

namespace Entry

def stamp (time : τ) : Entry μ τ σ → Entry μ τ σ
  | dir attrs _ => dir attrs time
  | e => e

def isDir : Entry μ τ σ → Bool
  | dir _ _ => true
  | _ => false

/-- The entry without the time of a directory. -/
def still : Entry μ τ σ → Entry μ Unit σ
  | dir attrs _ => dir attrs ()
  | file i => file i
  | special w => special w

@[simp]
theorem isDir_eq_of_still {e e' : Entry μ τ σ} (h : e.still = e'.still) : e.isDir = e'.isDir := by
  cases e <;> cases e' <;> simp_all [still, isDir]

theorem eq_of_still {e e' : Entry μ τ σ} (h : e.still = e'.still) (hd : e.isDir = false) :
    e = e' := by
  cases e <;> cases e' <;> simp_all [still, isDir]

theorem stamp_eq_of_still {e : Entry μ τ σ} {attrs : μ} {time : τ}
    (h : e.still = (dir attrs time : Entry μ τ σ).still) : e.stamp time = dir attrs time := by
  cases e <;> simp_all [still, stamp]

end Entry

abbrev Tree (μ τ σ : Type) := Text → Option (Entry μ τ σ)

namespace Tree

variable {t t' : Tree μ τ σ} {now time : τ} {p q d : Text} {e : Entry μ τ σ}
  {saved : List (Text × τ)}

def put (t : Tree μ τ σ) (p : Text) (e : Entry μ τ σ) : Tree μ τ σ :=
  fun q => if q = p then some e else t q

/-- The directory `d` gets a time. -/
def stamp (t : Tree μ τ σ) (d : Text) (time : τ) : Tree μ τ σ :=
  fun q => if q = d then (t q).map (Entry.stamp time) else t q

/-- A name comes into its directory. -/
def enter (t : Tree μ τ σ) (now : τ) (p : Text) (e : Entry μ τ σ) : Tree μ τ σ :=
  (t.put p e).stamp (directory p) now

/-- There is a directory at `p`. -/
def isDir (t : Tree μ τ σ) (p : Text) : Bool := (t p).any Entry.isDir

/-- All parts of the way are directories. -/
def reaches (t : Tree μ τ σ) (p : Text) : Bool := (above p).all t.isDir

/-- What is at `p`, where no part of the way is a link. -/
def find (t : Tree μ τ σ) (p : Text) : Option (Entry μ τ σ) := if t.reaches p then t p else none

def restore (saved : List (Text × τ)) (t : Tree μ τ σ) : Tree μ τ σ :=
  saved.foldl (fun t s => t.stamp s.1 s.2) t

theorem isDir_iff : t.isDir p ↔ ∃ attrs time, t p = some (.dir attrs time) := by
  rcases h : t p with _ | ⟨attrs, time⟩ | i | w <;> simp [isDir, h, Entry.isDir]

theorem stamp_self (h : t d = some e) : t.stamp d time d = some (e.stamp time) := by
  rw [stamp, if_pos rfl, h]
  rfl

theorem stamp_of_ne (h : q ≠ d) : t.stamp d time q = t q := if_neg h

theorem still_stamp_apply : (t.stamp d time q).map Entry.still = (t q).map Entry.still := by
  unfold stamp
  split
  · rw [Option.map_map]
    congr 1
    exact funext fun e => by cases e <;> rfl
  · rfl

theorem still_enter_self : (t.enter now p e p).map Entry.still = some e.still := by
  rw [enter, still_stamp_apply, put, if_pos rfl]
  rfl

theorem still_enter_of_ne (h : q ≠ p) :
    (t.enter now p e q).map Entry.still = (t q).map Entry.still := by
  rw [enter, still_stamp_apply, put, if_neg h]

theorem eq_some_of_still (h : (t q).map Entry.still = some e.still) (hd : e.isDir = false) :
    t q = some e := by
  obtain ⟨e', he', hs⟩ := map_eq_some_iff.1 h
  rw [he', Entry.eq_of_still hs.symm hd]

theorem isDir_congr (h : (t q).map Entry.still = (t' q).map Entry.still) :
    t.isDir q = t'.isDir q := by
  rcases hq : t' q with _ | e
  · rw [hq] at h
    rw [isDir, isDir, hq, map_eq_none_iff.1 h]
  · rw [hq] at h
    obtain ⟨e', he', hs⟩ := map_eq_some_iff.1 h
    rw [isDir, isDir, hq, he']
    exact Entry.isDir_eq_of_still hs

theorem enter_self (hd : e.isDir = false) : t.enter now p e p = some e :=
  eq_some_of_still still_enter_self hd

theorem enter_of_ne (h : q ≠ p) (hd : q ≠ directory p) : t.enter now p e q = t q := by
  rw [enter, stamp_of_ne hd, put, if_neg h]

theorem restore_of_not_mem (h : q ∉ saved.map fst) : t.restore saved q = t q := by
  induction saved generalizing t with
  | nil => rfl
  | cons s saved ih =>
    rw [map_cons, mem_cons, not_or] at h
    exact (ih h.2).trans (stamp_of_ne h.1)

/-- Where the times that were noted are those of `t'`, and nothing else was changed at `q`, it is
as in `t'` again. -/
theorem restore_eq (hsaved : ∀ s ∈ saved, ∃ attrs, t' s.1 = some (.dir attrs s.2))
    (hstill : (t q).map Entry.still = (t' q).map Entry.still)
    (hother : q ∉ saved.map fst → t q = t' q) : t.restore saved q = t' q := by
  induction saved generalizing t with
  | nil => exact hother not_mem_nil
  | cons s saved ih =>
    refine ih (fun s' hs' => hsaved s' (.tail _ hs')) (still_stamp_apply.trans hstill)
      fun hnot => ?_
    by_cases hq : q = s.1
    · -- this is the last time it is stamped, and with the time it had
      obtain ⟨attrs, ha⟩ := hsaved s mem_cons_self
      rw [← hq] at ha
      rw [ha] at hstill ⊢
      obtain ⟨e, he, hs⟩ := map_eq_some_iff.1 hstill
      subst hq
      exact (stamp_self he).trans (congrArg some (Entry.stamp_eq_of_still hs))
    · refine (stamp_of_ne hq).trans (hother fun hmem => ?_)
      rw [map_cons, mem_cons] at hmem
      exact hmem.elim hq hnot

/-- `t` is `t₁` with more names in it, and with other times only for the directories that were
noted. -/
structure Grown (t₁ : Tree μ τ σ) (saved : List (Text × τ)) (t : Tree μ τ σ) : Prop where
  times : ∀ s ∈ saved, ∃ attrs, t₁ s.1 = some (.dir attrs s.2)
  still : ∀ q, t₁ q ≠ none → (t q).map Entry.still = (t₁ q).map Entry.still
  same : ∀ q, t₁ q ≠ none → q ∉ saved.map fst → t q = t₁ q

namespace Grown

variable {t₁ : Tree μ τ σ} {saved : List (Text × τ)}

theorem refl (t : Tree μ τ σ) : Grown t [] t := ⟨nofun, fun _ _ => rfl, fun _ _ _ => rfl⟩

section

variable (h : Grown t₁ saved t)

include h

theorem isDir_eq (hq : t₁.isDir q) : t.isDir q := by
  have hne : t₁ q ≠ none := fun hn => by
    rw [isDir, hn] at hq
    exact nomatch hq
  rw [isDir_congr (h.still q hne), hq]

theorem note {attrs : μ} (hd : t₁ d = some (.dir attrs time)) :
    Grown t₁ (saved ++ [(d, time)]) t where
  times := forall_mem_append.2 ⟨h.times, forall_mem_singleton.2 ⟨attrs, hd⟩⟩
  still := h.still
  same q hq hnot := h.same q hq fun hmem =>
    hnot (by rw [map_append]; exact mem_append_left _ hmem)

theorem enter (hp : t₁ p = none) (hd : directory p ∈ saved.map fst) :
    Grown t₁ saved (t.enter now p e) where
  times := h.times
  still q hq := by
    have hne : q ≠ p := fun he => hq (he ▸ hp)
    rw [still_enter_of_ne hne, h.still q hq]
  same q hq hnot := by
    have hne : q ≠ p := fun he => hq (he ▸ hp)
    rw [enter_of_ne hne fun he => hnot (he ▸ hd), h.same q hq hnot]

theorem ne_none_of_mem (hd : d ∈ saved.map fst) : t₁ d ≠ none := by
  obtain ⟨s, hs, rfl⟩ := mem_map.1 hd
  obtain ⟨attrs, ha⟩ := h.times s hs
  rw [ha]
  exact nofun

theorem enter_new (hd : directory p ∈ saved.map fst) (hq : t₁ q = none) (hne : q ≠ p) :
    t.enter now p e q = t q :=
  enter_of_ne hne fun he => h.ne_none_of_mem hd (he ▸ hq)

theorem restore_old (hq : t₁ q ≠ none) : t.restore saved q = t₁ q :=
  restore_eq h.times (h.still q hq) (h.same q hq)

theorem restore_new (hq : t₁ q = none) : t.restore saved q = t q :=
  restore_of_not_mem fun hmem => h.ne_none_of_mem hmem hq

end

end Grown

end Tree

/-! ## Inodes -/

/-- The inodes of a filesystem: from `next` on all are free. -/
structure Store (φ : Type) where
  inode : ℕ → Option φ
  next : ℕ
  free : ∀ i, next ≤ i → inode i = none

namespace Store

variable {s : Store φ} {f : φ} {i : ℕ}

def alloc (s : Store φ) (f : φ) : Store φ where
  inode i := if i = s.next then some f else s.inode i
  next := s.next + 1
  free i hi := by
    rw [if_neg (Nat.ne_of_gt hi)]
    exact s.free i (Nat.le_of_succ_le hi)

theorem lt_next (h : s.inode i = some f) : i < s.next := by
  by_contra hn
  rw [s.free i (Nat.le_of_not_lt hn)] at h
  exact nomatch h

@[simp]
theorem inode_alloc_self : (s.alloc f).inode s.next = some f := if_pos rfl

theorem inode_alloc {f' : φ} (h : s.inode i = some f') : (s.alloc f).inode i = some f' :=
  (if_neg (Nat.ne_of_lt (lt_next h))).trans h

end Store

end FileTree
