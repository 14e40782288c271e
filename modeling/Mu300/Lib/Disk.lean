import Mu300.Lib.FileTree

/-!
# Names and inodes

A disk has names that lead to inodes, and inodes that hold nodes of some type, of which some are
directories. Everything has an inode: files, links, directories. An inode without a name is outside
of the tree.

* `create`, `link`, `remove`, `modify` — the operations, at a place in the tree.
* `Renames` — what the first three have in common: the name of one place is another one.
* `Within` — what work on some paths leaves as it is.
-/

namespace FileTree

open Shell Option

/-! ## Inodes -/

def Store.modify {ν : Type} (s : Store ν) (i : ℕ) (f : ν → ν) : Store ν where
  inode j := if j = i then (s.inode j).map f else s.inode j
  next := s.next
  free j hj := by
    rw [s.free j hj]
    exact ite_self _

namespace Store

variable {ν : Type} {s : Store ν} {i j : ℕ} {f g : ν → ν} {n : ν}

theorem inode_modify :
    (s.modify i f).inode j = if j = i then (s.inode j).map f else s.inode j := rfl

theorem inode_modify_self (h : s.inode i = some n) : (s.modify i f).inode i = some (f n) := by
  rw [inode_modify, if_pos rfl, h]
  rfl

theorem inode_modify_of_ne (h : j ≠ i) : (s.modify i f).inode j = s.inode j := if_neg h

theorem inode_modify_eq_some (h : (s.modify i f).inode j = some n) :
    s.inode j = some n ∧ j ≠ i ∨ ∃ m, s.inode j = some m ∧ n = f m ∧ j = i := by
  by_cases hj : j = i
  · rw [inode_modify, if_pos hj] at h
    obtain ⟨m, hm, rfl⟩ := map_eq_some_iff.1 h
    exact .inr ⟨m, hm, rfl, hj⟩
  · rw [inode_modify_of_ne hj] at h
    exact .inl ⟨h, hj⟩

theorem modify_modify : (s.modify i f).modify i g = s.modify i (g ∘ f) := by
  unfold modify
  congr 1
  funext j
  dsimp only
  by_cases hj : j = i
  · rw [if_pos hj, if_pos hj, if_pos hj, map_map]
  · rw [if_neg hj, if_neg hj, if_neg hj]

end Store

/-! ## Disks -/

/-- The nodes for which `dir` holds are directories. -/
structure Disk {ν : Type} (dir : ν → Bool) where
  names : Text → Option ℕ
  store : Store ν

namespace Disk

variable {ν : Type} {dir : ν → Bool}

def node (d : Disk dir) (p : Text) : Option ν := (d.names p).bind d.store.inode

def create (d : Disk dir) (p : Text) (n : ν) : Disk dir where
  names q := if q = p then some d.store.next else d.names q
  store := d.store.alloc n

def link (d : Disk dir) (p : Text) (i : ℕ) : Disk dir :=
  { d with names := fun q => if q = p then some i else d.names q }

def remove (d : Disk dir) (p : Text) : Disk dir :=
  { d with names := fun q => if q = p then none else d.names q }

/-- The node at a place is changed. -/
def modify (d : Disk dir) (p : Text) (f : ν → ν) : Disk dir :=
  match d.names p with
  | none => d
  | some i => { d with store := d.store.modify i f }

variable {d d' d'' : Disk dir} {p q : Text} {i : ℕ} {n : ν} {f g : ν → ν}

@[simp]
theorem names_modify : (d.modify p f).names = d.names := by
  unfold modify
  split <;> rfl

@[simp]
theorem next_modify : (d.modify p f).store.next = d.store.next := by
  unfold modify
  split <;> rfl

theorem store_modify (h : d.names p = some i) : (d.modify p f).store = d.store.modify i f := by
  rw [modify, h]

theorem inode_modify (h : d.store.inode i = some n) :
    (d.modify p f).store.inode i = some n ∨ d.names p = some i ∧ (d.modify p f).store.inode i =
      some (f n) := by
  cases hp : d.names p with
  | none =>
    rw [modify, hp]
    exact .inl h
  | some j =>
    rw [store_modify hp]
    by_cases hij : i = j
    · subst hij
      exact .inr ⟨rfl, Store.inode_modify_self h⟩
    · exact .inl ((Store.inode_modify_of_ne hij).trans h)

theorem modify_modify : (d.modify p f).modify p g = d.modify p (g ∘ f) := by
  cases h : d.names p with
  | none => simp [modify, h]
  | some i => simp [modify, h, Store.modify_modify]

theorem modify_id : d.modify p id = d := by
  unfold modify
  split
  · rfl
  · next i hi =>
    congr 1
    unfold Store.modify
    congr 1
    funext j
    split
    · exact map_id_fun ▸ rfl
    · rfl

theorem node_eq_some : d.node p = some n ↔ ∃ i, d.names p = some i ∧ d.store.inode i = some n :=
  bind_eq_some_iff

/-- There is a directory at a place. -/
def isDir (d : Disk dir) (p : Text) : Bool := (d.node p).any dir

/-- A name leads to an inode that is there; a directory has one name; the root is a directory. -/
structure Sound (d : Disk dir) : Prop where
  valid : ∀ p i, d.names p = some i → ∃ n, d.store.inode i = some n
  one_name : ∀ p q i n, d.names p = some i → d.names q = some i → d.store.inode i = some n →
    dir n → p = q
  root : ∀ i n, d.names [] = some i → d.store.inode i = some n → dir n

/-- A path that is listed, or the root or a directory on the way to one. -/
def Near (L : Text → Prop) (q : Text) : Prop := L q ∨ ∃ p, L p ∧ (q = [] ∨ q ∈ above p)

/-- The frame of work on the paths `L`. -/
structure Within (L : Text → Prop) (d d' : Disk dir) : Prop where
  /-- a name that is not listed stays -/
  stays : ∀ q i, ¬ L q → d.names q = some i → d'.names q = some i
  /-- a new name is listed, or is on the way to one that is -/
  made : ∀ q, ¬ L q → d.names q = none → d'.names q ≠ none → ∃ p, L p ∧ q ∈ above p
  /-- a directory stays -/
  dirs : ∀ q i n, d.names q = some i → d.store.inode i = some n → dir n → d'.names q = some i
  /-- a directory at a place is the one that was there, or a new one -/
  fresh : ∀ q i n, d'.names q = some i → d'.store.inode i = some n → dir n → d.store.next ≤ i ∨
    d.names q = some i
  /-- a node stays as it is, but for the directories at these places -/
  nodes : ∀ i n, d.store.inode i = some n → d'.store.inode i = some n ∨
    dir n ∧ (∃ q, Near L q ∧ d.names q = some i) ∧ ∃ n', d'.store.inode i = some n' ∧ dir n'
  next : d.store.next ≤ d'.store.next
  sound : d'.Sound

variable {L L' : Text → Prop}

theorem isDir_iff : d.isDir p ↔ ∃ i n, d.names p = some i ∧ d.store.inode i = some n ∧ dir n := by
  unfold isDir node
  cases hp : d.names p with
  | none => simp
  | some i =>
    cases hn : d.store.inode i with
    | none => simp [hn]
    | some n => simp [hn]

theorem isDir_of_none (h : d.names p = none) : d.isDir p = false := by
  rw [isDir, node, h]
  rfl

namespace Sound

section

variable (h : d.Sound)

include h

theorem lt_next (hp : d.names p = some i) : i < d.store.next := by
  obtain ⟨n, hn⟩ := h.valid p i hp
  exact Store.lt_next hn

theorem names_eq_none (hp : d.node p = none) : d.names p = none := by
  cases hname : d.names p with
  | none => rfl
  | some i =>
    obtain ⟨n, hn⟩ := h.valid p i hname
    rw [node, hname, bind_some, hn] at hp
    cases hp

theorem modify (hf : ∀ n, dir (f n) = dir n) : (d.modify p f).Sound := by
  cases hp : d.names p with
  | none =>
    rw [Disk.modify, hp]
    exact h
  | some j =>
    -- an inode is there, and is a directory, exactly where it was
    have hnode : ∀ i n, (d.modify p f).store.inode i = some n →
        ∃ m, d.store.inode i = some m ∧ dir n = dir m := by
      intro i n hn
      rw [store_modify hp] at hn
      rcases Store.inode_modify_eq_some hn with ⟨hn, -⟩ | ⟨m, hm, rfl, -⟩
      · exact ⟨n, hn, rfl⟩
      · exact ⟨m, hm, hf m⟩
    constructor
    · intro q i hq
      rw [names_modify] at hq
      obtain ⟨n, hn⟩ := h.valid q i hq
      rw [store_modify hp]
      by_cases hij : i = j
      · rw [← hij]
        exact ⟨_, Store.inode_modify_self hn⟩
      · exact ⟨n, (Store.inode_modify_of_ne hij).trans hn⟩
    · intro q r i n hq hr hn hdir
      rw [names_modify] at hq hr
      obtain ⟨m, hm, heq⟩ := hnode i n hn
      exact h.one_name q r i m hq hr hm (heq ▸ hdir)
    · intro i n hroot hn
      rw [names_modify] at hroot
      obtain ⟨m, hm, heq⟩ := hnode i n hn
      rw [heq]
      exact h.root i m hroot hm

end

end Sound

/-- The name at one place is another one, and inodes may have come. A directory under it is new. -/
structure Renames (p : Text) (d d' : Disk dir) : Prop where
  names : ∀ q, q ≠ p → d'.names q = d.names q
  root : p = [] → d'.names p = none
  valid : ∀ i, d'.names p = some i → ∃ n, d'.store.inode i = some n ∧ (dir n → d.store.next ≤ i)
  nodes : ∀ i n, d.store.inode i = some n → d'.store.inode i = some n
  next : d.store.next ≤ d'.store.next

namespace Renames

theorem create (hp : p ≠ []) : Renames p d (d.create p n) where
  names _ hq := if_neg hq
  root h := absurd h hp
  valid i hi := by
    obtain rfl : d.store.next = i := some.inj ((if_pos rfl).symm.trans hi)
    exact ⟨n, Store.inode_alloc_self, fun _ => Nat.le_refl _⟩
  nodes _ _ := Store.inode_alloc
  next := Nat.le_succ _

theorem link (hp : p ≠ []) (hi : d.store.inode i = some n) (hn : dir n = false) :
    Renames p d (d.link p i) where
  names _ hq := if_neg hq
  root h := absurd h hp
  valid j hj := by
    obtain rfl : i = j := some.inj ((if_pos rfl).symm.trans hj)
    exact ⟨n, hi, fun hdir => absurd hdir (by rw [hn]; exact Bool.false_ne_true)⟩
  nodes _ _ h := h
  next := Nat.le_refl _

theorem remove : Renames p d (d.remove p) where
  names _ hq := if_neg hq
  root _ := if_pos rfl
  valid i hi := by
    have hgone : (d.remove p).names p = none := if_pos rfl
    cases hgone.symm.trans hi
  nodes _ _ h := h
  next := Nat.le_refl _

variable (h : Renames p d d') (hs : d.Sound)

include h hs

/-- Under another name there is what was there. -/
theorem node_of_ne (hqp : q ≠ p) (hq : d'.names q = some i) (hn : d'.store.inode i = some n) :
    d.names q = some i ∧ d.store.inode i = some n := by
  rw [h.names q hqp] at hq
  obtain ⟨m, hm⟩ := hs.valid q i hq
  cases (h.nodes i m hm).symm.trans hn
  exact ⟨hq, hm⟩

theorem sound : d'.Sound := by
  -- a directory under the new name has no other name, since it is new
  have hnew : ∀ q i n, d'.names p = some i → d'.names q = some i →
      d'.store.inode i = some n → dir n → q = p := by
    intro q i n hp hq hn hdir
    by_contra hqp
    obtain ⟨m, hm, hfresh⟩ := h.valid i hp
    cases hm.symm.trans hn
    exact absurd (hs.lt_next (h.names q hqp ▸ hq)) (Nat.not_lt.2 (hfresh hdir))
  constructor
  · intro q i hq
    by_cases hqp : q = p
    · obtain ⟨n, hn, -⟩ := h.valid i (hqp ▸ hq)
      exact ⟨n, hn⟩
    · obtain ⟨n, hn⟩ := hs.valid q i (h.names q hqp ▸ hq)
      exact ⟨n, h.nodes i n hn⟩
  · intro q r i n hq hr hn hdir
    by_cases hqp : q = p
    · exact hqp.trans (hnew r i n (hqp ▸ hq) hr hn hdir).symm
    · by_cases hrp : r = p
      · exact (hnew q i n (hrp ▸ hr) hq hn hdir).trans hrp.symm
      · obtain ⟨hq', hn'⟩ := h.node_of_ne hs hqp hq hn
        exact hs.one_name q r i n hq' (h.node_of_ne hs hrp hr hn).1 hn' hdir
  · intro i n hroot hn
    by_cases hp : [] = p
    · rw [hp, h.root hp.symm] at hroot
      cases hroot
    · obtain ⟨hroot, hn⟩ := h.node_of_ne hs hp hroot hn
      exact hs.root i n hroot hn

end Renames

theorem Near.mono (hL : ∀ p, L p → L' p) (h : Near L q) : Near L' q := by
  rcases h with h | ⟨p, hp, h⟩
  · exact .inl (hL q h)
  · exact .inr ⟨p, hL p hp, h⟩

namespace Within

theorem refl (h : d.Sound) : Within L d d where
  stays _ _ _ h := h
  made _ _ h h' := absurd h h'
  dirs _ _ _ h _ _ := h
  fresh _ _ _ h _ _ := .inr h
  nodes _ _ h := .inl h
  next := Nat.le_refl _
  sound := h

section

variable (h : Within L d d')

include h

theorem names_eq (hq : ¬ Near L q) : d'.names q = d.names q := by
  have hL : ¬ L q := fun hL => hq (.inl hL)
  cases hd : d.names q with
  | some i => exact h.stays q i hL hd
  | none =>
    by_contra hne
    obtain ⟨p, hp, hmem⟩ := h.made q hL hd hne
    exact hq (.inr ⟨p, hp, .inr hmem⟩)

theorem mono (hL : ∀ p, L p → L' p) : Within L' d d' where
  stays q i hq hn := h.stays q i (fun hl => hq (hL q hl)) hn
  made q hq hn hn' := by
    obtain ⟨p, hp, hmem⟩ := h.made q (fun hl => hq (hL q hl)) hn hn'
    exact ⟨p, hL p hp, hmem⟩
  dirs := h.dirs
  fresh := h.fresh
  nodes i n hn := by
    rcases h.nodes i n hn with hs | ⟨hdir, ⟨q, hq, hname⟩, hn'⟩
    · exact .inl hs
    · exact .inr ⟨hdir, ⟨q, hq.mono hL, hname⟩, hn'⟩
  next := h.next
  sound := h.sound

theorem dir_of_node {n' : ν} (hn : d.store.inode i = some n) (hn' : d'.store.inode i = some n') :
    dir n' = dir n := by
  rcases h.nodes i n hn with hs | ⟨hdir, -, m, hm, hdir'⟩
  · rw [some.inj (hs.symm.trans hn')]
  · cases hm.symm.trans hn'
    rw [hdir, hdir']

theorem isDir (hq : d.isDir q) : d'.isDir q := by
  obtain ⟨i, n, hi, hn, hdir⟩ := isDir_iff.1 hq
  have hi' := h.dirs q i n hi hn hdir
  obtain ⟨n', hn'⟩ := h.sound.valid q i hi'
  exact isDir_iff.2 ⟨i, n', hi', hn', by rw [h.dir_of_node hn hn', hdir]⟩

theorem trans (h' : Within L d' d'') : Within L d d'' where
  stays q i hq hn := h'.stays q i hq (h.stays q i hq hn)
  made q hq hn hn' := by
    by_cases hmid : d'.names q = none
    · exact h'.made q hq hmid hn'
    · exact h.made q hq hn hmid
  dirs q i n hq hn hdir := by
    have hq' := h.dirs q i n hq hn hdir
    obtain ⟨m, hm⟩ := h.sound.valid q i hq'
    exact h'.dirs q i m hq' hm (by rw [h.dir_of_node hn hm, hdir])
  fresh q i n hq hn hdir := by
    rcases h'.fresh q i n hq hn hdir with hi | hq'
    · exact .inl (Nat.le_trans h.next hi)
    · obtain ⟨m, hm⟩ := h.sound.valid q i hq'
      exact h.fresh q i m hq' hm (by rw [← h'.dir_of_node hm hn, hdir])
  nodes i n hn := by
    rcases h.nodes i n hn with hs | ⟨hdir, hq, m, hm, hdir'⟩
    · rcases h'.nodes i n hs with hs' | ⟨hdir, ⟨q, hq, hname⟩, hn'⟩
      · exact .inl hs'
      · -- it was there before under the same name
        rcases h.fresh q i n hname hs hdir with hi | hname'
        · exact absurd (Store.lt_next hn) (Nat.not_lt.2 hi)
        · exact .inr ⟨hdir, ⟨q, hq, hname'⟩, hn'⟩
    · rcases h'.nodes i m hm with hs' | ⟨-, -, hn'⟩
      · exact .inr ⟨hdir, hq, m, hs', hdir'⟩
      · exact .inr ⟨hdir, hq, hn'⟩
  next := Nat.le_trans h.next h'.next
  sound := h'.sound

theorem modify (hq : Near L q) (hf : ∀ n, dir (f n) = dir n)
    (hat : d'.isDir q ∨ ∀ i, d'.names q = some i → d.store.next ≤ i) :
    Within L d (d'.modify q f) := by
  cases hname : d'.names q with
  | none =>
    rw [Disk.modify, hname]
    exact h
  | some j =>
    refine ⟨fun r i hr hn => ?_,
      fun r hr hn hn' => ?_, fun r i n hr hn hdir => ?_, fun r i n hr hn hdir => ?_,
      fun i n hn => ?_, ?_, h.sound.modify hf⟩
    · rw [names_modify]
      exact h.stays r i hr hn
    · rw [names_modify] at hn'
      exact h.made r hr hn hn'
    · rw [names_modify]
      exact h.dirs r i n hr hn hdir
    · rw [names_modify] at hr
      rw [store_modify hname] at hn
      rcases Store.inode_modify_eq_some hn with ⟨hn, -⟩ | ⟨m, hm, rfl, -⟩
      · exact h.fresh r i n hr hn hdir
      · exact h.fresh r i m hr hm (by rw [← hf m, hdir])
    · rw [store_modify hname]
      by_cases hij : i = j
      · subst hij
        obtain ⟨m, hm, hdir⟩ : ∃ m, d'.store.inode i = some m ∧ dir m := by
          rcases hat with hat | hat
          · obtain ⟨k, m, hk, hm, hdir⟩ := isDir_iff.1 hat
            cases hk.symm.trans hname
            exact ⟨m, hm, hdir⟩
          · exact absurd (Store.lt_next hn) (Nat.not_lt.2 (hat i hname))
        refine .inr ⟨by rw [← h.dir_of_node hn hm, hdir], ⟨q, hq, ?_⟩, f m,
          Store.inode_modify_self hm, by rw [hf, hdir]⟩
        exact (h.fresh q i m hname hm hdir).resolve_left (Nat.not_le.2 (Store.lt_next hn))
      · rw [Store.inode_modify_of_ne hij]
        exact h.nodes i n hn
    · rw [next_modify]
      exact h.next

theorem stamp (hp : L p ∨ ∃ r, L r ∧ p ∈ above r) (hdirs : ∀ q ∈ above p, d'.isDir q)
    (hf : ∀ n, dir (f n) = dir n) : Within L d (d'.modify (directory p) f) := by
  obtain ⟨r, hr, hway⟩ : ∃ r, L r ∧ ∀ q ∈ above p, q ∈ above r := by
    rcases hp with hp | ⟨r, hr, hmem⟩
    · exact ⟨p, hp, fun q hq => hq⟩
    · exact ⟨r, hr, fun q hq => above_trans hq hmem⟩
  rcases directory_eq p with hroot | hmem
  · rw [hroot]
    refine h.modify (.inr ⟨r, hr, .inl rfl⟩) hf ?_
    cases hname : d'.names [] with
    | none =>
      right
      rintro i ⟨⟩
    | some i =>
      obtain ⟨n, hn⟩ := h.sound.valid [] i hname
      exact .inl (isDir_iff.2 ⟨i, n, hname, hn, h.sound.root i n hname hn⟩)
  · exact h.modify (.inr ⟨r, hr, .inr (hway _ hmem)⟩) hf (.inl (hdirs _ hmem))

theorem renames (hr : Renames p d' d'') (hdir : d'.isDir p = false)
    (hp : L p ∨ (∃ r, L r ∧ p ∈ above r) ∧ d'.names p = none) : Within L d d'' where
  stays q i hq hn := by
    have hold := h.stays q i hq hn
    rw [hr.names q, hold]
    rintro rfl
    obtain hl | ⟨-, hnone⟩ := hp
    · exact hq hl
    · cases hnone.symm.trans hold
  made q hq hn hn' := by
    by_cases hqp : q = p
    · subst hqp
      exact (hp.resolve_left hq).1
    · exact h.made q hq hn (hr.names q hqp ▸ hn')
  dirs q i n hq hn hd := by
    rw [hr.names q, h.dirs q i n hq hn hd]
    rintro rfl
    have hthere := h.isDir (isDir_iff.2 ⟨i, n, hq, hn, hd⟩)
    rw [hdir] at hthere
    cases hthere
  fresh q i n hq hn hd := by
    by_cases hqp : q = p
    · obtain ⟨m, hm, hfresh⟩ := hr.valid i (hqp ▸ hq)
      cases hm.symm.trans hn
      exact .inl (Nat.le_trans h.next (hfresh hd))
    · obtain ⟨hq, hn⟩ := hr.node_of_ne h.sound hqp hq hn
      exact h.fresh q i n hq hn hd
  nodes i n hn := by
    rcases h.nodes i n hn with hs | ⟨hd, hq, m, hm, hd'⟩
    · exact .inl (hr.nodes i n hs)
    · exact .inr ⟨hd, hq, m, hr.nodes i m hm, hd'⟩
  next := Nat.le_trans h.next hr.next
  sound := hr.sound h.sound

end

end Within

end Disk

end FileTree
