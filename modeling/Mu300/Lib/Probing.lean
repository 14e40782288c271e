import Mathlib.Data.List.Perm.Subperm
import Mathlib.Data.List.Nodup
import Mathlib.Data.Nat.Find

/-!
# A hash table with linear probing

The slots are a ring. An entry is looked for from the place its hash gives on, up to the first slot
that is free or has its key. Nothing is ever taken out.

* `Table`, `find`, `add` — a table that grows when it would be more than half full.
-/

namespace Probing

open List Prod Option

variable {κ β : Type}

/-- A search for `k` goes past a slot. -/
def Past (slots : ℕ → Option (κ × β)) (k : κ) (i : ℕ) : Prop := ∃ e, slots i = some e ∧ e.1 ≠ k

/-- With a free slot in the ring a search from any place on goes past some slots and ends. -/
theorem exists_end {cap : ℕ} {slots : ℕ → Option (κ × β)} {i f : ℕ} (hf : f < cap)
    (hfree : slots f = none) (hi : i < cap)
    (k : κ) : ∃ m < cap, (∀ j < m, Past slots k ((i + j) % cap)) ∧
      ¬ Past slots k ((i + m) % cap) := by
  classical
  have hend : ¬ Past slots k ((i + (f + cap - i) % cap) % cap) := by
    rw [Nat.add_mod_mod, show i + (f + cap - i) =
      f + cap by omega, Nat.add_mod_right, Nat.mod_eq_of_lt hf]
    rintro ⟨e, he, -⟩
    rw [hfree] at he
    cases he
  have hex : ∃ m, ¬ Past slots k ((i + m) % cap) := ⟨_, hend⟩
  refine ⟨Nat.find hex, ?_, fun j hj => not_not.1 (Nat.find_min hex hj), Nat.find_spec hex⟩
  exact Nat.lt_of_le_of_lt (Nat.find_min' hex hend) (Nat.mod_lt _ (by omega))

variable [DecidableEq κ]

/-- Where the search for a key from `i` on ends, after at most so many steps. -/
def seek (cap : ℕ) (slots : ℕ → Option (κ × β)) (k : κ) : ℕ → ℕ → ℕ
  | 0, i => i
  | n + 1, i =>
    match slots i with
    | none => i
    | some e => if e.1 = k then i else seek cap slots k n ((i + 1) % cap)

def slotOf (hash : κ → ℕ) (cap : ℕ) (slots : ℕ → Option (κ × β)) (k : κ) : ℕ :=
  seek cap slots k cap (hash k % cap)

/-- An entry in the slot of its key. -/
def place (hash : κ → ℕ) (cap : ℕ) (slots : ℕ → Option (κ × β)) (e : κ × β) : ℕ → Option (κ × β) :=
  fun j => if j = slotOf hash cap slots e.1 then some e else slots j

def entries (cap : ℕ) (slots : ℕ → Option (κ × β)) : List (κ × β) := (range cap).filterMap slots

structure Table (κ β : Type) where
  cap : ℕ := 0
  slots : ℕ → Option (κ × β) := fun _ => none
  count : ℕ := 0

namespace Table

def find (hash : κ → ℕ) (t : Table κ β) (k : κ) : Option β :=
  if t.cap = 0 then none else (t.slots (slotOf hash t.cap t.slots k)).map snd

def grow (hash : κ → ℕ) (first : ℕ) (t : Table κ β) : Table κ β :=
  if 2 * (t.count + 1) > t.cap then
    let cap := if t.cap = 0 then first else 2 * t.cap
    { t with cap := cap, slots := (entries t.cap t.slots).foldl (place hash cap) fun _ => none }
  else t

/-- An entry for a key that has none. -/
def add (hash : κ → ℕ) (first : ℕ) (t : Table κ β) (k : κ) (v : β) : Table κ β :=
  let t := t.grow hash first
  match t.slots (slotOf hash t.cap t.slots k) with
  | some _ => t
  | none => { t with slots := place hash t.cap t.slots (k, v), count := t.count + 1 }

end Table

/-! ## The search -/

section Search

variable {cap : ℕ} {slots : ℕ → Option (κ × β)} {k k' : κ} {v : β} {i n : ℕ}

theorem seek_of_past (h : Past slots k i) :
    seek cap slots k (n + 1) i = seek cap slots k n ((i + 1) % cap) := by
  obtain ⟨e, he, hne⟩ := h
  rw [seek, he]
  exact if_neg hne

theorem seek_of_not_past (h : ¬ Past slots k i) : seek cap slots k n i = i := by
  cases n with
  | zero => rfl
  | succ n =>
    rw [seek]
    cases he : slots i with
    | none => rfl
    | some e => exact if_pos (not_not.1 fun hne => h ⟨e, he, hne⟩)

theorem seek_eq {m : ℕ} (hm : m ≤ n) (hi : i < cap) (hpast : ∀ j < m, Past slots k ((i + j) % cap))
    (hend : ¬ Past slots k ((i + m) % cap)) : seek cap slots k n i = (i + m) % cap := by
  induction m generalizing n i with
  | zero =>
    rw [Nat.add_zero, Nat.mod_eq_of_lt hi] at hend ⊢
    exact seek_of_not_past hend
  | succ m ih =>
    obtain ⟨n, rfl⟩ : ∃ k, n = k + 1 := ⟨n - 1, by omega⟩
    have hfirst : Past slots k i := by
      have h := hpast 0 (Nat.succ_pos m)
      rwa [Nat.add_zero, Nat.mod_eq_of_lt hi] at h
    have hstep : ∀ j, ((i + 1) % cap + j) % cap = (i + (j + 1)) % cap := fun j => by
      rw [Nat.mod_add_mod, Nat.add_assoc, Nat.add_comm 1 j]
    rw [seek_of_past hfirst, ih (by omega) (Nat.mod_lt _ (by omega)) (fun j hj => ?_)
      (by rwa [hstep]), hstep]
    rw [hstep]
    exact hpast (j + 1) (Nat.succ_lt_succ hj)

end Search

/-! ## The entries -/

section Entries

variable {hash : κ → ℕ} {cap : ℕ} {slots : ℕ → Option (κ × β)} {l : List (κ × β)} {k : κ}
  {v : β} {i f : ℕ}

/-- With a free slot, the slot of a key is one that its search does not go past, behind others that
it does. -/
theorem slotOf_spec (hash : κ → ℕ) (hf : f < cap) (hfree : slots f = none) (k : κ) :
    ∃ m < cap, slotOf hash cap slots k = (hash k % cap + m) % cap ∧
      (∀ j < m, Past slots k ((hash k % cap + j) % cap)) ∧
      ¬ Past slots k ((hash k % cap + m) % cap) := by
  have hstart : hash k % cap < cap := Nat.mod_lt _ (by omega)
  obtain ⟨m, hm, hpast, hend⟩ := exists_end hf hfree hstart k
  exact ⟨m, hm, seek_eq (Nat.le_of_lt hm) hstart hpast hend, hpast, hend⟩

/-- Every entry is in the slot of its key, and the entries are those of the list. -/
structure Holds (hash : κ → ℕ) (cap : ℕ) (slots : ℕ → Option (κ × β)) (l : List (κ × β)) :
    Prop where
  placed : ∀ i < cap, ∀ e, slots i = some e → slotOf hash cap slots e.1 = i
  mem : ∀ e, e ∈ l ↔ ∃ i < cap, slots i = some e

namespace Holds

theorem empty (hash : κ → ℕ) (cap : ℕ) : Holds (β := β) hash cap (fun _ => none) [] where
  placed i hi e he := by cases he
  mem e := by
    constructor
    · intro he
      cases he
    · rintro ⟨i, -, he⟩
      cases he

section

variable (h : Holds hash cap slots l)

include h

theorem mem_entries_iff (e : κ × β) : e ∈ entries cap slots ↔ e ∈ l := by
  rw [h.mem, entries, mem_filterMap]
  simp

theorem nodup_entries : ((entries cap slots).map fst).Nodup := by
  rw [entries, List.Nodup, pairwise_map, pairwise_filterMap]
  refine List.Pairwise.imp_of_mem ?_ (nodup_range (n := cap))
  intro i j hi hj hne e he e' he' hkey
  apply hne
  rw [← h.placed i (mem_range.1 hi) e he, ← h.placed j (mem_range.1 hj) e' he', hkey]

theorem length_entries_le : (entries cap slots).length ≤ l.length :=
  (h.nodup_entries.of_map _ |>.subperm fun e he => (h.mem_entries_iff e).1 he).length_le

section

variable (hl : l.length < cap)

include hl

theorem exists_free : ∃ f < cap, slots f = none := by
  by_contra hnone
  have hall : ∀ i ∈ range cap, ∃ e, slots i = some e := fun i hi =>
    ne_none_iff_exists'.1 fun hfree => hnone ⟨i, mem_range.1 hi, hfree⟩
  have hlen : (entries cap slots).length = cap := by
    rw [entries, length_filterMap_eq_countP, countP_eq_length.2, length_range]
    intro i hi
    obtain ⟨e, he⟩ := hall i hi
    rw [he]
    rfl
  have hle := h.length_entries_le
  omega

theorem slot_lt (k : κ) : slotOf hash cap slots k < cap := by
  obtain ⟨f, hf, hfree⟩ := h.exists_free hl
  obtain ⟨m, -, hslot, -⟩ := slotOf_spec hash hf hfree k
  rw [hslot]
  exact Nat.mod_lt _ (by omega)

theorem slot_key {e : κ × β} (he : slots (slotOf hash cap slots k) = some e) : e.1 = k := by
  obtain ⟨f, hf, hfree⟩ := h.exists_free hl
  obtain ⟨m, -, hslot, -, hend⟩ := slotOf_spec hash hf hfree k
  rw [← hslot] at hend
  exact not_not.1 fun hne => hend ⟨e, he, hne⟩

theorem slot_iff : slots (slotOf hash cap slots k) = some (k, v) ↔ (k, v) ∈ l := by
  rw [h.mem]
  constructor
  · intro hslot
    exact ⟨_, h.slot_lt hl k, hslot⟩
  · rintro ⟨i, hi, he⟩
    have hplace := h.placed i hi (k, v) he
    rw [hplace, he]

theorem slot_eq_none (hk : k ∉ l.map fst) : slots (slotOf hash cap slots k) = none := by
  cases he : slots (slotOf hash cap slots k) with
  | none => rfl
  | some e =>
    have hmem : e ∈ l := (h.mem e).2 ⟨_, h.slot_lt hl k, he⟩
    exact absurd (mem_map.2 ⟨e, hmem, h.slot_key hl he⟩) hk

theorem place (hk : k ∉ l.map fst) :
    Holds hash cap (Probing.place hash cap slots (k, v)) ((k, v) :: l) := by
  have hnone := h.slot_eq_none hl hk
  have hlt := h.slot_lt hl k
  obtain ⟨f, hf, hfree⟩ := h.exists_free hl
  generalize hi : slotOf hash cap slots k = i at hnone hlt
  have hself : Probing.place hash cap slots (k, v) i = some (k, v) := if_pos hi.symm
  have hother : ∀ j, j ≠ i → Probing.place hash cap slots (k, v) j =
      slots j := fun j hj => if_neg (hi.symm ▸ hj)
  -- a search goes past the same slots as before
  have hpast : ∀ k' j, Past slots k' j → Past (Probing.place hash cap slots (k, v)) k' j := by
    rintro k' j ⟨e, he, hne⟩
    refine ⟨e, ?_, hne⟩
    rw [hother j fun hj => ?_, he]
    rw [hj, hnone] at he
    cases he
  have hslot : ∀ k', ¬ Past (Probing.place hash cap slots (k, v)) k' (slotOf hash cap slots k') →
      slotOf hash cap (Probing.place hash cap slots (k, v)) k' = slotOf hash cap slots k' := by
    intro k' hend
    obtain ⟨m, hm, heq, hp, -⟩ := slotOf_spec hash hf hfree k'
    rw [heq] at hend ⊢
    exact seek_eq (Nat.le_of_lt hm) (Nat.mod_lt _ (by omega))
      (fun j hj => hpast k' _ (hp j hj)) hend
  constructor
  · intro j hj e he
    by_cases hji : j = i
    · rw [hji, hself] at he
      cases he
      rw [hji, hslot k, hi]
      rw [hi]
      rintro ⟨e, he, hne⟩
      rw [hself] at he
      exact hne (congrArg fst (some.inj he)).symm
    · rw [hother j hji] at he
      have hplaced := h.placed j hj e he
      rw [hslot e.1, hplaced]
      rw [hplaced]
      rintro ⟨e', he', hne⟩
      rw [hother j hji, he] at he'
      exact hne (congrArg fst (some.inj he')).symm
  · intro e
    rw [mem_cons, h.mem]
    constructor
    · rintro (rfl | ⟨j, hj, he⟩)
      · exact ⟨i, hlt, hself⟩
      · refine ⟨j, hj, ?_⟩
        rw [hother j fun hji => ?_, he]
        rw [hji, hnone] at he
        cases he
    · rintro ⟨j, hj, he⟩
      by_cases hji : j = i
      · rw [hji, hself] at he
        exact .inl (some.inj he).symm
      · rw [hother j hji] at he
        exact .inr ⟨j, hj, he⟩

end

theorem placeAll {es : List (κ × β)} (hl : l.length + es.length ≤ cap)
    (hes : (es.map fst).Nodup) (hnew : ∀ e ∈ es, e.1 ∉ l.map fst) :
    Holds hash cap (es.foldl (Probing.place hash cap) slots) (es.reverse ++ l) := by
  induction es generalizing slots l with
  | nil => exact h
  | cons e es ih =>
    rw [length_cons] at hl
    rw [map_cons, nodup_cons] at hes
    have hplace := h.place (v := e.2) (by omega) (hnew e mem_cons_self)
    rw [foldl_cons, reverse_cons, append_assoc]
    refine ih hplace (by change l.length + 1 + es.length ≤ cap; omega) hes.2 fun e' he' hmem => ?_
    rcases mem_cons.1 hmem with hkey | hmem
    · exact hes.1 (hkey ▸ mem_map_of_mem he')
    · exact hnew e' (.tail _ he') hmem

end

end Holds

end Entries

/-! ## A table -/

namespace Table

variable {hash : κ → ℕ} {first : ℕ} {t : Table κ β} {l : List (κ × β)} {k k' : κ} {v : β}

/-- What is in a table: no more than half of its slots are taken. -/
structure Good (hash : κ → ℕ) (t : Table κ β) (l : List (κ × β)) : Prop where
  holds : Holds hash t.cap t.slots l
  count : t.count = l.length
  half : 2 * t.count ≤ t.cap

theorem Good.empty (hash : κ → ℕ) : Good (β := β) hash {} [] := ⟨.empty hash 0, rfl, Nat.le_refl 0⟩

theorem find_iff (h : t.Good hash l) : t.find hash k = some v ↔ (k, v) ∈ l := by
  unfold find
  have hhalf := h.half
  have hcount := h.count
  split
  · next hzero =>
    have hnil : l = [] := eq_nil_of_length_eq_zero (by omega)
    rw [hnil]
    constructor <;> rintro ⟨⟩
  · next hpos =>
    have hl : l.length < t.cap := by omega
    rw [← h.holds.slot_iff hl, map_eq_some_iff]
    constructor
    · rintro ⟨e, he, rfl⟩
      rw [he, ← h.holds.slot_key hl he]
    · intro he
      exact ⟨_, he, rfl⟩

theorem Good.grow (h : t.Good hash l) (hfirst : 2 ≤ first) :
    (t.grow hash first).Good hash l ∧ 2 * (t.count + 1) ≤ (t.grow hash first).cap ∧
    (t.grow hash first).count = t.count := by
  have hhalf := h.half
  have hcount := h.count
  unfold Table.grow
  split
  · obtain ⟨cap, hcap⟩ : ∃ cap, (if t.cap = 0 then first else 2 * t.cap) = cap := ⟨_, rfl⟩
    rw [hcap]
    have hroom : 2 * (t.count + 1) ≤ cap := by
      split at hcap <;> omega
    have hlen := h.holds.length_entries_le
    have hplaced := (Holds.empty hash cap).placeAll (by rw [length_nil]; omega)
      h.holds.nodup_entries fun e _ hmem => by cases hmem
    refine ⟨⟨⟨hplaced.placed, fun e => ?_⟩, hcount, by dsimp only; omega⟩, hroom, rfl⟩
    rw [← hplaced.mem e, append_nil, mem_reverse, h.holds.mem_entries_iff]
  · exact ⟨h, by omega, rfl⟩

theorem Good.add_new (h : t.Good hash l) (hfirst : 2 ≤ first) (hk : k ∉ l.map fst) :
    (t.add hash first k v).Good hash ((k, v) :: l) := by
  obtain ⟨hgrow, hroom, hsame⟩ := h.grow hfirst
  have hcount := hgrow.count
  have hl : l.length < (t.grow hash first).cap := by omega
  unfold Table.add
  dsimp only
  rw [hgrow.holds.slot_eq_none hl hk]
  refine ⟨hgrow.holds.place hl hk, ?_, ?_⟩
  · rw [hcount, length_cons]
  · dsimp only
    omega

end Table

end Probing
