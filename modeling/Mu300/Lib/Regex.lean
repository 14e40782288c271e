import Mu300.Lib.Glob

/-!
# Regular expressions

The ones of Python and JavaScript that have no repetition without a bound: characters, sequences,
alternatives, `?`, `{n}` and groups. No group stands inside an alternative, so that every match has
all of them.

* `fullmatch_cases` — what the search finds, if anything, is a match as `Matches` says.
-/

open Shell Glob

inductive Regex : Type where
  | empty
  | one (rs : Ranges)
  | seq (a b : Regex)
  | alt (a b : Regex)
  | opt (a : Regex)
  | group (a : Regex)

namespace Regex

open List Prod

def lit (ch : Char) : Regex := one [(ch, ch)]

def cat (as : List Regex) : Regex := as.foldr seq empty

/-- `a{n}` -/
def rep (n : ℕ) (a : Regex) : Regex := cat (replicate n a)

/-- The ways to match a beginning of the text, first the one that is tried first: the groups, and
what is left. -/
def run : Regex → Text → List (List Text × Text)
  | empty, t => [([], t)]
  | one _, [] => []
  | one rs, ch :: t => if rs.has ch then [([], t)] else []
  | seq a b, t => (run a t).flatMap fun x => (run b x.2).map fun y => (x.1 ++ y.1, y.2)
  | alt a b, t => run a t ++ run b t
  | opt a, t => run a t ++ [([], t)]
  | group a, t => (run a t).map fun x => (t.take (t.length - x.2.length) :: x.1, x.2)

/-- The groups of a match of the whole text. -/
def fullmatch (r : Regex) (t : Text) : Option (List Text) :=
  ((run r t).find? fun x => x.2.isEmpty).map fst

/-- The expression matches the text with these groups. -/
def Matches : Regex → Text → List Text → Prop
  | empty, t, g => t = [] ∧ g = []
  | one rs, t, g => ∃ ch, t = [ch] ∧ rs.has ch ∧ g = []
  | seq a b, t, g => ∃ t₁ g₁ t₂ g₂, t = t₁ ++ t₂ ∧ g = g₁ ++ g₂ ∧ Matches a t₁ g₁ ∧ Matches b t₂ g₂
  | alt a b, t, g => Matches a t g ∨ Matches b t g
  | opt a, t, g => Matches a t g ∨ t = [] ∧ g = []
  | group a, t, g => ∃ g', g = t :: g' ∧ Matches a t g'

variable {g : List Text} {t : Text} {as : List Regex}

theorem mem_run_iff {r : Regex} {rest : Text} :
    (g, rest) ∈ run r t ↔ ∃ u, t = u ++ rest ∧ Matches r u g := by
  induction r generalizing t rest g with
  | empty =>
    rw [run, mem_singleton, mk.injEq]
    constructor
    · rintro ⟨rfl, rfl⟩
      exact ⟨[], rfl, rfl, rfl⟩
    · rintro ⟨u, rfl, rfl, rfl⟩
      exact ⟨rfl, rfl⟩
  | one rs =>
    cases t with
    | nil =>
      constructor
      · rintro ⟨⟩
      · rintro ⟨u, hu, ch, rfl, -⟩
        cases hu
    | cons ch t =>
      rw [run]
      constructor
      · intro h
        split_ifs at h with hch
        · cases mem_singleton.1 h
          exact ⟨[ch], rfl, ch, rfl, hch, rfl⟩
        · cases h
      · rintro ⟨u, hu, ch', rfl, hch, rfl⟩
        cases hu
        rw [if_pos hch]
        exact mem_singleton_self _
  | seq a b iha ihb =>
    rw [run, mem_flatMap]
    constructor
    · rintro ⟨⟨g₁, t'⟩, ha, hb⟩
      obtain ⟨⟨g₂, rest'⟩, hin, heq⟩ := mem_map.1 hb
      cases heq
      obtain ⟨u₁, rfl, h₁⟩ := iha.1 ha
      obtain ⟨u₂, hu₂, h₂⟩ := ihb.1 hin
      refine ⟨u₁ ++ u₂, ?_, u₁, g₁, u₂, g₂, rfl, rfl, h₁, h₂⟩
      rw [append_assoc, ← hu₂]
    · rintro ⟨u, rfl, t₁, g₁, t₂, g₂, rfl, rfl, h₁, h₂⟩
      exact ⟨(g₁, t₂ ++ rest), iha.2 ⟨t₁, append_assoc .., h₁⟩,
        mem_map.2 ⟨(g₂, rest), ihb.2 ⟨t₂, rfl, h₂⟩, rfl⟩⟩
  | alt a b iha ihb =>
    rw [run, mem_append, iha, ihb]
    simp only [Matches, and_or_left, exists_or]
  | opt a iha =>
    rw [run, mem_append, iha, mem_singleton, mk.injEq]
    simp only [Matches, and_or_left, exists_or]
    exact or_congr_right ⟨fun ⟨hg, hr⟩ => ⟨[], hr.symm, rfl, hg⟩,
      fun ⟨_, ht, hu, hg⟩ => ⟨hg, by rw [ht, hu]; rfl⟩⟩
  | group a iha =>
    rw [run, mem_map]
    constructor
    · rintro ⟨⟨g', rest'⟩, ha, heq⟩
      cases heq
      obtain ⟨u, rfl, h⟩ := iha.1 ha
      refine ⟨u, rfl, g', ?_, h⟩
      rw [length_append, Nat.add_sub_cancel, take_left]
    · rintro ⟨u, rfl, g', rfl, h⟩
      refine ⟨(g', rest), iha.2 ⟨u, rfl, h⟩, ?_⟩
      rw [length_append, Nat.add_sub_cancel, take_left]

theorem fullmatch_cases (r : Regex) (t : Text) :
    (∃ g, fullmatch r t = some g ∧ Matches r t g) ∨ fullmatch r t = none ∧
    ∀ g, ¬ Matches r t g := by
  have hmem : ∀ g, (g, []) ∈ run r t ↔ Matches r t g := by
    intro g
    rw [mem_run_iff]
    constructor
    · rintro ⟨u, rfl, h⟩
      rwa [append_nil]
    · intro h
      exact ⟨t, (append_nil t).symm, h⟩
  cases hfind : (run r t).find? fun x => x.2.isEmpty with
  | none =>
    refine .inr ⟨by rw [fullmatch, hfind]; rfl, fun g h => ?_⟩
    exact absurd rfl (find?_eq_none.1 hfind _ ((hmem g).2 h))
  | some x =>
    obtain ⟨g, rest⟩ := x
    have hempty : rest.isEmpty := find?_some (p := fun x : List Text × Text => x.2.isEmpty) hfind
    obtain rfl := List.isEmpty_iff.1 hempty
    exact .inl ⟨g, by rw [fullmatch, hfind]; rfl, (hmem g).1 (List.mem_of_find?_eq_some hfind)⟩

/-! ## Sequences -/

theorem matches_cat_nil : Matches (cat []) t g ↔ t = [] ∧ g = [] := .rfl

theorem matches_cat_lit {ch : Char} :
    Matches (cat (lit ch :: as)) t g ↔ ∃ t', t = ch :: t' ∧ Matches (cat as) t' g := by
  constructor
  · rintro ⟨-, -, t', g', rfl, rfl, ⟨ch', rfl, hch, rfl⟩, h⟩
    have hle := Ranges.has_single.1 hch
    obtain rfl : ch = ch' := Char.toNat_inj.1 (by omega)
    exact ⟨t', rfl, h⟩
  · rintro ⟨t', rfl, h⟩
    exact ⟨[ch], [], t', g, rfl, rfl,
      ⟨ch, rfl, Ranges.has_single.2 ⟨Nat.le_refl _, Nat.le_refl _⟩, rfl⟩, h⟩

theorem matches_cat_group {a : Regex} :
    Matches (cat (group a :: as)) t g ↔
      ∃ s t' g₁ g', t = s ++ t' ∧ g = s :: (g₁ ++ g') ∧ Matches a s g₁ ∧
        Matches (cat as) t' g' := by
  constructor
  · rintro ⟨s, -, t', g', rfl, rfl, ⟨g₁, rfl, ha⟩, h⟩
    exact ⟨s, t', g₁, g', rfl, rfl, ha, h⟩
  · rintro ⟨s, t', g₁, g', rfl, rfl, ha, h⟩
    exact ⟨s, s :: g₁, t', g', rfl, rfl, ⟨g₁, rfl, ha⟩, h⟩

theorem matches_cat_ones {R : List Ranges} :
    Matches (cat (R.map one)) t g ↔ g = [] ∧ accepts (R.map .range) t := by
  induction R generalizing t g with
  | nil =>
    rw [map_nil, map_nil, matches_cat_nil, accepts_nil]
    exact And.comm
  | cons rs R ih =>
    rw [map_cons, map_cons, accepts_cons (by rintro ⟨⟩)]
    constructor
    · rintro ⟨-, -, t', g', rfl, rfl, ⟨ch, rfl, hch, rfl⟩, h⟩
      obtain ⟨rfl, hrest⟩ := ih.1 h
      exact ⟨rfl, ch, t', rfl, hch, hrest⟩
    · rintro ⟨rfl, ch, t', rfl, hch, h⟩
      exact ⟨[ch], [], t', [], rfl, rfl, ⟨ch, rfl, hch, rfl⟩, ih.2 ⟨rfl, h⟩⟩

theorem matches_rep_one {rs : Ranges} {n : ℕ} :
    Matches (rep n (one rs)) t g ↔ g = [] ∧ t.length = n ∧ ∀ ch ∈ t, rs.has ch := by
  rw [rep, ← map_replicate, matches_cat_ones, map_replicate, accepts_replicate]

end Regex
