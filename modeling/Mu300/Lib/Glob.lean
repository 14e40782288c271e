import Mu300.Lib.Shell
import Mathlib.Data.List.Infix

/-!
# The shell's patterns

What `case` compares with and what `${x#pat}`, `${x##pat}`, `${x%pat}` and `${x%%pat}` take away, in
a locale where a character is a byte.

* `Piece`, `glob` — a pattern, and a pattern from its text.
-/

namespace Glob

open Shell List

/-- The characters of a bracket expression: its ranges, a single character as a range of one. -/
abbrev Ranges := List (Char × Char)

/-- `c` is in one of the ranges. -/
def Ranges.has (rs : Ranges) (ch : Char) : Bool := rs.any fun r => r.1 ≤ ch && ch ≤ r.2

theorem Ranges.has_single {a b ch : Char} :
    Ranges.has [(a, b)] ch ↔ a.toNat ≤ ch.toNat ∧ ch.toNat ≤ b.toNat := by
  simp only [Ranges.has, any_cons, any_nil, Bool.or_false, Bool.and_eq_true,
    decide_eq_true_eq, Char.le_def, UInt32.le_iff_toNat_le]
  rfl

inductive Piece : Type where
  | lit (ch : Char)
  | any
  | star
  | range (rs : Ranges)
  deriving DecidableEq

abbrev Pattern := List Piece

/-- A piece for one character takes this one. -/
def Piece.takes : Piece → Char → Bool
  | lit ch, ch' => ch = ch'
  | any, _ => true
  | star, _ => false
  | range rs, ch => rs.has ch

/-- Reads a pattern; the ranges are those of a bracket expression that is open. -/
def parse : Option Ranges → Text → Pattern
  | none, [] => []
  | none, '?' :: t => .any :: parse none t
  | none, '*' :: t => .star :: parse none t
  | none, '[' :: t => parse (some []) t
  | none, ch :: t => .lit ch :: parse none t
  | some rs, ']' :: t => .range rs.reverse :: parse none t
  | some rs, a :: '-' :: b :: t => parse (some ((a, b) :: rs)) t
  | some rs, a :: t => parse (some ((a, a) :: rs)) t
  | some _, [] => []

def glob (s : String) : Pattern := parse none s.toList

/-- The pattern matches the whole text. -/
def accepts : Pattern → Text → Bool
  | [], t => t.isEmpty
  | .star :: p, t => t.tails.any (accepts p)
  | _ :: _, [] => false
  | q :: p, ch :: t => q.takes ch && accepts p t

/-! ## Matching -/

variable {t : Text}

theorem accepts_nil : accepts [] t ↔ t = [] := isEmpty_iff

variable {p : Pattern} {n : ℕ}

theorem accepts_star : accepts (.star :: p) t ↔ ∃ a b, t = a ++ b ∧ accepts p b := by
  rw [accepts, any_eq_true]
  constructor
  · rintro ⟨b, hb, haccepts⟩
    obtain ⟨a, rfl⟩ := (mem_tails b t).1 hb
    exact ⟨a, b, rfl, haccepts⟩
  · rintro ⟨a, b, rfl, haccepts⟩
    exact ⟨b, (mem_tails b _).2 (suffix_append a b), haccepts⟩

theorem accepts_cons {q : Piece} (hq : q ≠ .star) :
    accepts (q :: p) t ↔ ∃ ch b, t = ch :: b ∧ q.takes ch ∧ accepts p b := by
  cases t with
  | nil =>
    have hnil : accepts (q :: p) [] = false := by
      cases q with
      | star => exact absurd rfl hq
      | lit | any | range => rfl
    rw [hnil]
    exact ⟨by rintro ⟨⟩, by rintro ⟨_, _, ⟨⟩, _⟩⟩
  | cons ch t =>
    have hcons : accepts (q :: p) (ch :: t) = (q.takes ch && accepts p t) := by
      cases q with
      | star => exact absurd rfl hq
      | lit | any | range => rfl
    rw [hcons, Bool.and_eq_true]
    constructor
    · intro h
      exact ⟨ch, t, rfl, h⟩
    · rintro ⟨ch', b, heq, h⟩
      cases heq
      exact h

theorem accepts_lit {ch : Char} : accepts (.lit ch :: p) t ↔ ∃ b, t = ch :: b ∧ accepts p b := by
  rw [accepts_cons (by rintro ⟨⟩)]
  constructor
  · rintro ⟨ch', b, rfl, hch, hb⟩
    obtain rfl : ch = ch' := of_decide_eq_true hch
    exact ⟨b, rfl, hb⟩
  · rintro ⟨b, rfl, hb⟩
    exact ⟨ch, b, rfl, decide_eq_true rfl, hb⟩

theorem accepts_append {q : Pattern} :
    accepts (p ++ q) t ↔ ∃ a b, t = a ++ b ∧ accepts p a ∧ accepts q b := by
  induction p generalizing t with
  | nil =>
    constructor
    · intro h
      exact ⟨[], t, rfl, rfl, h⟩
    · rintro ⟨a, b, rfl, ha, hb⟩
      rw [accepts_nil.1 ha]
      exact hb
  | cons x p ih =>
    by_cases hx : x = .star
    · rw [hx, cons_append, accepts_star]
      constructor
      · rintro ⟨a, b, rfl, hb⟩
        obtain ⟨a', b', rfl, ha', hb'⟩ := ih.1 hb
        exact ⟨a ++ a', b', (append_assoc a a' b').symm, accepts_star.2 ⟨a, a', rfl, ha'⟩, hb'⟩
      · rintro ⟨a, b, rfl, ha, hb⟩
        obtain ⟨c, d, rfl, hd⟩ := accepts_star.1 ha
        exact ⟨c, d ++ b, append_assoc c d b, ih.2 ⟨d, b, rfl, hd, hb⟩⟩
    · rw [cons_append, accepts_cons hx]
      constructor
      · rintro ⟨ch, b, rfl, hch, hb⟩
        obtain ⟨a', b', rfl, ha', hb'⟩ := ih.1 hb
        exact ⟨ch :: a', b', rfl, (accepts_cons hx).2 ⟨ch, a', rfl, hch, ha'⟩, hb'⟩
      · rintro ⟨a, b, rfl, ha, hb⟩
        obtain ⟨ch, d, rfl, hch, hd⟩ := (accepts_cons hx).1 ha
        exact ⟨ch, d ++ b, rfl, hch, ih.2 ⟨d, b, rfl, hd, hb⟩⟩

theorem length_of_accepts (hp : .star ∉ p) (h : accepts p t) : t.length = p.length := by
  induction p generalizing t with
  | nil => exact congrArg length (accepts_nil.1 h)
  | cons q p ih =>
    rw [mem_cons, not_or] at hp
    obtain ⟨ch, b, rfl, -, hb⟩ := (accepts_cons (.symm hp.1)).1 h
    rw [length_cons, length_cons, ih hp.2 hb]

theorem accepts_replicate {rs : Ranges} :
    accepts (replicate n (.range rs)) t ↔ t.length = n ∧ ∀ ch ∈ t, rs.has ch := by
  induction n generalizing t with
  | zero =>
    rw [replicate_zero, accepts_nil, length_eq_zero_iff]
    constructor
    · rintro rfl
      exact ⟨rfl, by rintro ch ⟨⟩⟩
    · exact And.left
  | succ n ih =>
    rw [replicate_succ, accepts_cons (by rintro ⟨⟩)]
    constructor
    · rintro ⟨ch, b, rfl, hch, hb⟩
      obtain ⟨hlen, hall⟩ := ih.1 hb
      exact ⟨by rw [length_cons, hlen], forall_mem_cons.2 ⟨hch, hall⟩⟩
    · rintro ⟨hlen, hall⟩
      cases t with
      | nil => cases hlen
      | cons ch b =>
        obtain ⟨hch, hall⟩ := forall_mem_cons.1 hall
        exact ⟨ch, b, rfl, hch, ih.2 ⟨Nat.succ.inj hlen, hall⟩⟩

theorem accepts_any : accepts (replicate n .any) t ↔ t.length = n := by
  induction n generalizing t with
  | zero => rw [replicate_zero, accepts_nil, length_eq_zero_iff]
  | succ n ih =>
    rw [replicate_succ, accepts_cons (by rintro ⟨⟩)]
    constructor
    · rintro ⟨ch, b, rfl, -, hb⟩
      rw [length_cons, ih.1 hb]
    · intro hlen
      cases t with
      | nil => cases hlen
      | cons ch b => exact ⟨ch, b, rfl, rfl, ih.2 (Nat.succ.inj hlen)⟩

theorem accepts_lit_star_append (hp : .star ∉ p) {s rest : Text} (hlen : s.length = p.length)
    (ch : Char) : accepts (p ++ [.lit ch, .star]) (s ++ ch :: rest) = accepts p s := by
  rw [Bool.eq_iff_iff, accepts_append]
  constructor
  · rintro ⟨a, b, heq, ha, -⟩
    have hsame := append_inj_left heq (hlen.trans (length_of_accepts hp ha).symm)
    rwa [hsame]
  · intro hs
    refine ⟨s, ch :: rest, rfl, hs, accepts_lit.2 ⟨rest, rfl, ?_⟩⟩
    exact accepts_star.2 ⟨rest, [], (append_nil rest).symm, rfl⟩

theorem count_le_of_accepts (h : accepts p t) (ch : Char) : p.count (.lit ch) ≤ t.count ch := by
  induction p generalizing t with
  | nil => exact Nat.zero_le _
  | cons q p ih =>
    by_cases hq : q = .star
    · rw [hq] at h ⊢
      obtain ⟨a, b, rfl, hb⟩ := accepts_star.1 h
      have hle := ih hb
      rw [count_append, count_cons_of_ne (by rintro ⟨⟩)]
      omega
    · obtain ⟨ch', b, rfl, htakes, hb⟩ := (accepts_cons hq).1 h
      have hle := ih hb
      by_cases hlit : q = .lit ch
      · rw [hlit] at htakes ⊢
        obtain rfl : ch = ch' := of_decide_eq_true htakes
        rw [count_cons_self, count_cons_self]
        omega
      · rw [count_cons_of_ne hlit]
        exact hle.trans (count_le_count_cons)

/-! ## Taking away -/

/-- `${x#pat}`. -/
def cutFront (p : Pattern) (t : Text) : Text :=
  match (range (t.length + 1)).find? fun n => accepts p (t.take n) with
  | some n => t.drop n
  | none => t

/-- `${x##pat}`. -/
def cutFrontLong (p : Pattern) (t : Text) : Text :=
  match (range (t.length + 1)).find? fun n => accepts p (t.take (t.length - n)) with
  | some n => t.drop (t.length - n)
  | none => t

/-- `${x%pat}`. -/
def cutBack (p : Pattern) (t : Text) : Text :=
  match (range (t.length + 1)).find? fun n => accepts p (t.drop (t.length - n)) with
  | some n => t.take (t.length - n)
  | none => t

/-- `${x%%pat}`. -/
def cutBackLong (p : Pattern) (t : Text) : Text :=
  match (range (t.length + 1)).find? fun n => accepts p (t.drop n) with
  | some n => t.take n
  | none => t

section Cut

variable {p : Pattern} {a b : Text}

theorem find?_range_first {f : ℕ → Bool} {k : ℕ} (hk : k ≤ n) (hf : f k)
    (hmin : ∀ j < k, f j = false) : (range (n + 1)).find? f = some k := by
  rw [find?_range_eq_some]
  refine ⟨hf, mem_range.2 (by omega), fun j hj => ?_⟩
  rw [hmin j hj]
  rfl

theorem cutFront_append (ha : accepts p a) (hmin : ∀ n < a.length, accepts p (a.take n) = false) :
    cutFront p (a ++ b) = b := by
  rw [cutFront, find?_range_first (k := a.length) (by simp) (by rwa [take_left]) fun n hn => by
    rw [take_append_of_le_length hn.le, hmin n hn]]
  exact drop_left

theorem cutFrontLong_append (ha : accepts p a)
    (hmax : ∀ n, a.length < n → n ≤ (a ++ b).length → accepts p ((a ++ b).take n) = false) :
    cutFrontLong p (a ++ b) = b := by
  have hlen : (a ++ b).length = a.length + b.length := length_append
  rw [cutFrontLong, find?_range_first (k := b.length) (by simp)
    (by rwa [hlen, Nat.add_sub_cancel, take_left]) fun n hn => hmax _ (by omega) (by omega)]
  dsimp only
  rw [hlen, Nat.add_sub_cancel, drop_left]

theorem cutBack_append (hb : accepts p b)
    (hmin : ∀ n, a.length < n → n ≤ (a ++ b).length → accepts p ((a ++ b).drop n) = false) :
    cutBack p (a ++ b) = a := by
  have hlen : (a ++ b).length = a.length + b.length := length_append
  rw [cutBack, find?_range_first (k := b.length) (by simp)
    (by rwa [hlen, Nat.add_sub_cancel, drop_left]) fun n hn => hmin _ (by omega) (by omega)]
  dsimp only
  rw [hlen, Nat.add_sub_cancel, take_left]

theorem cutBackLong_append (hb : accepts p b)
    (hmax : ∀ n < a.length, accepts p ((a ++ b).drop n) = false) : cutBackLong p (a ++ b) = a := by
  rw [cutBackLong, find?_range_first (k := a.length) (by simp) (by rwa [drop_left]) hmax]
  exact take_left

/-! What is taken by a pattern without `*`. -/

theorem cutFront_fixed (hp : .star ∉ p) (ha : accepts p a) : cutFront p (a ++ b) = b := by
  refine cutFront_append ha fun n hn => ?_
  rw [Bool.eq_false_iff]
  intro htake
  have hlen := length_of_accepts hp htake
  rw [length_take, ← length_of_accepts hp ha] at hlen
  omega

theorem cutBack_fixed (hp : .star ∉ p) (hb : accepts p b) : cutBack p (a ++ b) = a := by
  refine cutBack_append hb fun n hn hle => ?_
  rw [Bool.eq_false_iff]
  intro hdrop
  have hlen := length_of_accepts hp hdrop
  rw [length_drop, ← length_of_accepts hp hb] at hlen
  rw [length_append] at hlen hle
  omega

/-! What is taken up to one character, or from it on. -/

variable {ch : Char}

theorem accepts_star_lit : accepts [.star, .lit ch] t ↔ ∃ u, t = u ++ [ch] := by
  rw [accepts_star]
  constructor
  · rintro ⟨u, v, rfl, hv⟩
    obtain ⟨w, rfl, hw⟩ := accepts_lit.1 hv
    exact ⟨u, by rw [accepts_nil.1 hw]⟩
  · rintro ⟨u, rfl⟩
    exact ⟨u, [ch], rfl, accepts_lit.2 ⟨[], rfl, rfl⟩⟩

theorem accepts_lit_star : accepts [.lit ch, .star] t ↔ ∃ u, t = ch :: u := by
  rw [accepts_lit]
  constructor
  · rintro ⟨u, rfl, -⟩
    exact ⟨u, rfl⟩
  · rintro ⟨u, rfl⟩
    exact ⟨u, rfl, accepts_star.2 ⟨u, [], (append_nil u).symm, rfl⟩⟩

theorem cutFront_star_lit (ha : ch ∉ a) : cutFront [.star, .lit ch] (a ++ ch :: b) = b := by
  have hsplit : a ++ ch :: b = (a ++ [ch]) ++ b := (append_assoc a [ch] b).symm
  rw [hsplit]
  refine cutFront_append (accepts_star_lit.2 ⟨a, rfl⟩) fun n hn => ?_
  rw [Bool.eq_false_iff]
  intro htake
  obtain ⟨u, hu⟩ := accepts_star_lit.1 htake
  rw [length_append, length_singleton] at hn
  rw [take_append_of_le_length (by omega)] at hu
  exact ha (mem_of_mem_take (hu ▸ mem_append_right u (mem_singleton_self ch)))

theorem cutFrontLong_star_lit (hb : ch ∉ b) : cutFrontLong [.star, .lit ch] (a ++ ch :: b) = b := by
  have hsplit : a ++ ch :: b = (a ++ [ch]) ++ b := (append_assoc a [ch] b).symm
  rw [hsplit]
  refine cutFrontLong_append (accepts_star_lit.2 ⟨a, rfl⟩) fun n hn hle => ?_
  rw [Bool.eq_false_iff]
  intro htake
  obtain ⟨u, hu⟩ := accepts_star_lit.1 htake
  rw [take_append, take_of_length_le hn.le, append_assoc] at hu
  -- of the characters of `b` none is taken
  have hnil := (eq_of_append_cons (mt mem_of_mem_take hb) not_mem_nil hu).2
  rw [take_eq_nil_iff, ← length_eq_zero_iff] at hnil
  rw [length_append] at hle
  omega

theorem cutBack_lit_star (hb : ch ∉ b) : cutBack [.lit ch, .star] (a ++ ch :: b) = a := by
  refine cutBack_append (accepts_lit_star.2 ⟨b, rfl⟩) fun n hn hle => ?_
  rw [Bool.eq_false_iff]
  intro hdrop
  obtain ⟨u, hu⟩ := accepts_lit_star.1 hdrop
  obtain ⟨k, rfl⟩ := Nat.exists_eq_add_of_lt hn
  rw [drop_append, drop_of_length_le (by omega), nil_append,
    show a.length + k + 1 - a.length = k + 1 by omega, drop_succ_cons] at hu
  exact hb (mem_of_mem_drop (hu ▸ mem_cons_self))

theorem cutBackLong_lit_star (ha : ch ∉ a) : cutBackLong [.lit ch, .star] (a ++ ch :: b) = a := by
  refine cutBackLong_append (accepts_lit_star.2 ⟨b, rfl⟩) fun n hn => ?_
  rw [Bool.eq_false_iff]
  intro hdrop
  obtain ⟨u, hu⟩ := accepts_lit_star.1 hdrop
  rw [drop_append_of_le_length hn.le] at hu
  have hhead := congrArg head? hu
  have hne : a.drop n ≠ [] := by
    intro hnil
    have := drop_eq_nil_iff.1 hnil
    omega
  rw [head?_append_of_ne_nil _ hne] at hhead
  exact ha (mem_of_mem_drop (mem_of_head? hhead))

end Cut

end Glob
