import Mathlib.Data.List.Dedup
import Mathlib.Data.List.Induction

/-!
# Tables of awk

How awk programs read a file into a table and look lines of another file up in it. A line is any
value with a key.

* `last? key k ls` — what `a[k]` holds after `{ a[key] = $0 }` over the lines `ls`.
* `keys key ls` — what `for (k in a)` goes through.
* `table start add key ls` — an entry for each key, made with the first of its lines and brought up
  to date with every one of them.
-/

namespace Awk

open List Prod

variable {κ β : Type} [DecidableEq κ]

def last? (key : β → κ) (k : κ) (ls : List β) : Option β := ls.reverse.find? fun l => key l = k

/-- The keys of a file, each once. -/
def keys (key : β → κ) (ls : List β) : List κ := (ls.map key).dedup

/-- The lines that `NR == FNR` takes for the first file, and the others. -/
def twoFiles (a b : List β) : List β × List β := if a.isEmpty then (b, []) else (a, b)

section Last

variable {key : β → κ} {k : κ} {ls : List β} {l : β}

theorem mem_of_last? (h : last? key k ls = some l) : l ∈ ls :=
  mem_reverse.1 (List.mem_of_find?_eq_some h)

theorem key_of_last? (h : last? key k ls = some l) : key l = k := by
  have hk := find?_some h
  exact of_decide_eq_true hk

theorem last?_isSome (key : β → κ) (hl : l ∈ ls) : ∃ l', last? key (key l) ls = some l' := by
  rw [← Option.isSome_iff_exists, last?, find?_isSome]
  exact ⟨l, mem_reverse.2 hl, decide_eq_true rfl⟩

theorem last?_eq_none (h : k ∉ ls.map key) : last? key k ls = none := by
  rw [last?, find?_eq_none]
  intro l hl hk
  exact h (mem_map.2 ⟨l, mem_reverse.1 hl, of_decide_eq_true hk⟩)

theorem last?_of_mem (hn : (ls.map key).Nodup) (hl : l ∈ ls) : last? key (key l) ls = some l := by
  obtain ⟨l', hl'⟩ := last?_isSome key hl
  rw [hl', inj_on_of_nodup_map hn (mem_of_last? hl') hl (key_of_last? hl')]

theorem mem_keys : k ∈ keys key ls ↔ ∃ l ∈ ls, key l = k := by
  rw [keys, mem_dedup, mem_map]

end Last

section Table

variable {ε : Type} (start : β → ε) (add : ε → β → ε)

def put (k : κ) (l : β) : List (κ × ε) → List (κ × ε)
  | [] => [(k, add (start l) l)]
  | (k', e) :: es => if k' = k then (k', add e l) :: es else (k', e) :: put k l es

def table (key : β → κ) (ls : List β) : List (κ × ε) :=
  ls.foldl (fun es l => put start add (key l) l es) []

def entryOf (k : κ) (es : List (κ × ε)) : Option ε := (es.find? fun p => p.1 = k).map snd

variable {start add} {k : κ} {l : β} {es : List (κ × ε)} {e : ε}

theorem entryOf_put (k' : κ) : entryOf k' (put start add k l es) =
      if k' = k then some (add ((entryOf k es).getD (start l)) l) else entryOf k' es := by
  induction es with
  | nil =>
    by_cases hk : k' = k
    · simp [put, entryOf, hk]
    · simp [put, entryOf, hk, Ne.symm hk]
  | cons p es ih =>
    obtain ⟨kp, ep⟩ := p
    by_cases hp : kp = k
    · by_cases hk : k' = k
      · simp [put, entryOf, hp, hk]
      · simp [put, entryOf, hp, hk, Ne.symm hk]
    · by_cases hk : k' = k
      · simpa [put, entryOf, hp, hk] using ih
      · by_cases hkp : kp = k'
        · simp [put, entryOf, hk, hkp]
        · simpa [put, entryOf, hp, hkp] using ih

theorem map_fst_put : (put start add k l es).map fst =
    if k ∈ es.map fst then es.map fst else es.map fst ++ [k] := by
  induction es with
  | nil => rfl
  | cons p es ih =>
    obtain ⟨kp, ep⟩ := p
    by_cases hp : kp = k
    · simp [put, hp]
    · rw [put, if_neg hp, map_cons, ih]
      by_cases hk : k ∈ es.map fst
      · have hk' : k ∈ ((kp, ep) :: es).map fst := mem_cons_of_mem _ hk
        rw [if_pos hk, if_pos hk', map_cons]
      · have hk' : k ∉ ((kp, ep) :: es).map fst := by
          rw [map_cons, mem_cons, not_or]
          exact ⟨Ne.symm hp, hk⟩
        rw [if_neg hk, if_neg hk', map_cons, cons_append]

theorem nodup_table (key : β → κ) (ls : List β) : ((table start add key ls).map fst).Nodup := by
  induction ls using reverseRecOn with
  | nil => exact nodup_nil
  | append_singleton ls l ih =>
    rw [table, foldl_append, foldl_cons, foldl_nil, ← table, map_fst_put]
    split
    · exact ih
    · rename_i hk
      exact nodup_append_comm.1 (nodup_cons.2 ⟨hk, ih⟩)

/-- **The entry of a key** is made of the lines with that key, in their order. -/
theorem entryOf_table (key : β → κ) (ls : List β) (k : κ) : entryOf k (table start add key ls) =
      (ls.filter fun l => key l = k).head?.map fun l =>
        (ls.filter fun l => key l = k).foldl add (start l) := by
  induction ls using reverseRecOn with
  | nil => rfl
  | append_singleton ls l ih =>
    rw [table, foldl_append, foldl_cons, foldl_nil, ← table, entryOf_put, filter_append]
    by_cases hk : k = key l
    · rw [if_pos hk, ← hk, ih, filter_cons_of_pos (by simp [hk])]
      rcases ls.filter fun l => key l = k with _ | ⟨l', ls'⟩
      · rfl
      · simp
    · rw [if_neg hk, ih, filter_cons_of_neg (by simpa using Ne.symm hk), filter_nil, append_nil]

theorem entryOf_of_mem (hn : (es.map fst).Nodup) (h : (k, e) ∈ es) : entryOf k es = some e := by
  induction es with
  | nil => cases h
  | cons p es ih =>
    rw [map_cons, nodup_cons] at hn
    rcases mem_cons.1 h with rfl | h
    · simp [entryOf]
    · have hp : p.1 ≠ k := fun hp => hn.1 (hp ▸ mem_map_of_mem h)
      have := ih hn.2 h
      simpa [entryOf, hp] using this

theorem of_mem_table {key : β → κ} {ls : List β} (h : (k, e) ∈ table start add key ls) :
    ∃ l, (ls.filter fun l => key l = k).head? = some l ∧
      e = (ls.filter fun l => key l = k).foldl add (start l) := by
  have hentry := entryOf_of_mem (nodup_table key ls) h
  rw [entryOf_table, Option.map_eq_some_iff] at hentry
  obtain ⟨l, hl, he⟩ := hentry
  exact ⟨l, hl, he.symm⟩

end Table

/-- The first pair of a key, else the key itself. -/
def firstMatch (m : List (κ × κ)) (k : κ) : κ := ((m.find? fun p => p.1 = k).map snd).getD k

/-- The last pair of a key, else the key itself. -/
def lastMatch (m : List (κ × κ)) (k : κ) : κ := ((last? fst k m).map snd).getD k

section Match

variable {m : List (κ × κ)} {k : κ}

theorem firstMatch_eq_self (h : ∀ p ∈ m, p.1 ≠ k) : firstMatch m k = k := by
  have hnone : m.find? (fun p => p.1 = k) = none := by
    rw [find?_eq_none]
    exact fun p hp hk => h p hp (of_decide_eq_true hk)
  rw [firstMatch, hnone]
  rfl

/-- The two ways to read a map agree on a key whose pairs all say what the last one says. -/
theorem firstMatch_eq_lastMatch (h : ∀ p ∈ m, p.1 = k → p.2 = lastMatch m k) :
    firstMatch m k = lastMatch m k := by
  rcases hf : m.find? (fun p => p.1 = k) with _ | p
  · have hne : ∀ p ∈ m, p.1 ≠ k := by
      intro p hp hk
      exact find?_eq_none.1 hf p hp (decide_eq_true hk)
    have hlast : last? fst k m = none := last?_eq_none fun hmem => by
      obtain ⟨p, hp, hk⟩ := mem_map.1 hmem
      exact hne p hp hk
    rw [firstMatch_eq_self hne, lastMatch, hlast]
    rfl
  · have hk : p.1 = k := by simpa using find?_some hf
    rw [firstMatch, hf]
    exact h p (List.mem_of_find?_eq_some hf) hk

end Match

end Awk
