import Mu300.Lib.Digits
import Mu300.Lib.Regex

/-!
# Release tags

vYYYY.MM.DD, and later vYYYY.MM.DD.N. Three programs read them: `mu300-update` in the shell (and,
word for word, `tools/releases.sh`), `tools/release_pick.py` and the web installer's `version.js`.
-/

namespace Mu300.Update

open Shell Digits Glob List Bool

/-! ## Tags -/

/-- A release tag; `n` is 0 where there is no fourth field. A day of a tag with four fields is a
real one. -/
@[ext]
structure Tag where
  year : ℕ
  month : ℕ
  day : ℕ
  n : ℕ
  year_lt : year < 10 ^ 4
  month_lt : month < 10 ^ 2
  day_lt : day < 10 ^ 2
  n_lt : n < 100
  dated : n ≠ 0 → (1 ≤ month ∧ month ≤ 12) ∧ 1 ≤ day ∧ day ≤ 31

/-- The fourth field, without a leading zero. -/
def counter (n : ℕ) : Text := if n < 10 then fixed 1 n else fixed 2 n

/-- vYYYY.MM.DD, of any three texts. -/
def dateText (y m d : Text) : Text := 'v' :: (y ++ '.' :: (m ++ '.' :: d))

variable (g : Tag) {s : Text} {ch : Char} {w : ℕ}

abbrev dateOf (y m d : ℕ) : Text := dateText (fixed 4 y) (fixed 2 m) (fixed 2 d)

def Tag.text : Text :=
  dateOf g.year g.month g.day ++ if g.n = 0 then [] else '.' :: counter g.n

def Tag.date : ℕ := (g.year * 100 + g.month) * 100 + g.day

/-- The kind of tag, the date and the number of the day. -/
def Tag.key : ℕ × ℕ × ℕ := (if g.n = 0 then 1 else 2, g.date, g.n)

/-! ## The shell -/

def threeFields : Pattern := glob "v[0-9][0-9][0-9][0-9].[0-9][0-9].[0-9][0-9]"

/-- The two patterns for four fields. -/
def fourFields : List Pattern :=
  [glob "v[0-9][0-9][0-9][0-9].[0-9][0-9].[0-9][0-9].[1-9]",
    glob "v[0-9][0-9][0-9][0-9].[0-9][0-9].[0-9][0-9].[1-9][0-9]"]

/-- `case TEXT in PATTERN|PATTERN...)`. -/
def oneOf (ps : List Pattern) (t : Text) : Bool := ps.any fun p => accepts p t

def tagOk (t : Text) : Bool :=
  if accepts threeFields t then true
  else if oneOf fourFields t then
    oneOf [glob "0[1-9].*", glob "1[0-2].*"] (cutFront (glob "v?????") t) &&
      oneOf [glob "0[1-9].*", glob "[12][0-9].*", glob "3[01].*"] (cutFront (glob "v????????") t)
  else false

def tagKey (t : Text) : Option Text :=
  if tagOk t then
    let (tn, tk, te) :=
      if accepts (glob "*.*.*.*") t then
        let tn := cutFrontLong (glob "*.") t
        (if tn.length = 2 then tn else '0' :: tn, cutBack (glob ".*") t, '2')
      else (['0', '0'], t, '1')
    let tk := cutFront (glob "v") tk
    let td := cutFront (glob "*.") tk
    some (te :: (cutBackLong (glob ".*") tk ++ cutBack (glob ".*") td ++ cutFront
      (glob "*.") td ++ tn))
  else none

/-- `newer`: the era and the date, then the number of the day. -/
def newer (a b : Text) : Bool :=
  match tagKey a, tagKey b with
  | some na, some nb =>
    if value (cutBack (glob "??") na) > value (cutBack (glob "??") nb) then true
    else if cutBack (glob "??") na ≠ cutBack (glob "??") nb then false
    else
      let na := cutFront (glob "?????????") na
      let nb := cutFront (glob "?????????") nb
      value (cutFront (glob "0") na) > value (cutFront (glob "0") nb)
  | _, _ => false

/-! ## Python and JavaScript -/

/-- `[0-9]`, and `\d`. -/
def digit : Ranges := [('0', '9')]

/-- `[1-9]`. -/
def positive : Ranges := [('1', '9')]

namespace Python

open Regex

/-- `v([0-9]{4})\.([0-9]{2})\.([0-9]{2})` -/
def oldTag : Regex :=
  cat [lit 'v', group (rep 4 (one digit)), lit '.', group (rep 2 (one digit)), lit '.',
    group (rep 2 (one digit))]

/-- `0[1-9]|1[0-2]` -/
def month : Regex := alt (cat [lit '0', one positive]) (cat [lit '1', one [('0', '2')]])

/-- `0[1-9]|[12][0-9]|3[01]` -/
def day : Regex :=
  alt (cat [lit '0', one positive])
    (alt (cat [one [('1', '1'), ('2', '2')], one digit])
      (cat [lit '3', one [('0', '0'), ('1', '1')]]))

/-- `v([0-9]{4})\.(0[1-9]|1[0-2])\.(0[1-9]|[12][0-9]|3[01])\.([1-9][0-9]?)` -/
def newTag : Regex :=
  cat [lit 'v', group (rep 4 (one digit)), lit '.', group month, lit '.', group day, lit '.',
    group (cat [one positive, opt (one digit)])]

/-- `tag_key` of a string. -/
def tagKey (t : Text) : Option (ℕ × ℕ × ℕ) :=
  match fullmatch oldTag t with
  | some groups => some (1, value groups.flatten, 0)
  | none =>
    match fullmatch newTag t with
    | some groups => some (2, value (groups.take 3).flatten, value (groups.getD 3 []))
    | none => none

def tagOk (t : Text) : Bool := (tagKey t).isSome

/-- `>` of two tuples. -/
def after (x y : ℕ × ℕ × ℕ) : Bool :=
  x.1 > y.1 || x.1 = y.1 && (x.2.1 > y.2.1 || x.2.1 = y.2.1 && x.2.2 > y.2.2)

def newer (a b : Text) : Bool :=
  match tagKey a, tagKey b with
  | some ka, some kb => after ka kb
  | _, _ => false

end Python

section JavaScript

open Regex

/-- `/^v(\d{4})\.(\d\d)\.(\d\d)$/` -/
def oldRelease : Regex :=
  cat [lit 'v', group (rep 4 (one digit)), lit '.', group (cat [one digit, one digit]), lit '.',
    group (cat [one digit, one digit])]

/-- `/^v(\d{4})\.(0[1-9]|1[0-2])\.(0[1-9]|[12]\d|3[01])\.([1-9]\d?)$/` -/
def newRelease : Regex :=
  cat [lit 'v', group (rep 4 (one digit)), lit '.',
    group (alt (cat [lit '0', one positive]) (cat [lit '1', one [('0', '2')]])), lit '.',
    group (alt (cat [lit '0', one positive]) (alt (cat [one [('1', '1'), ('2', '2')], one digit])
      (cat [lit '3', one [('0', '0'), ('1', '1')]]))), lit '.',
    group (cat [one positive, opt (one digit)])]

/-- `releaseKey` of a string. -/
def releaseKey (t : Text) : Option (ℕ × ℕ × ℕ) :=
  match fullmatch oldRelease t with
  | some m => some (1, value (m.getD 0 [] ++ m.getD 1 [] ++ m.getD 2 []), 0)
  | none =>
    match fullmatch newRelease t with
    | some m => some (2, value (m.getD 0 [] ++ m.getD 1 [] ++ m.getD 2 []), value (m.getD 3 []))
    | none => none

/-- The loop of `newerTag`: the first of the three that differs. -/
def firstDifference : List (ℕ × ℕ) → Bool
  | [] => false
  | (x, y) :: rest => if x ≠ y then x > y else firstDifference rest

def newerTag (a b : Text) : Bool :=
  match releaseKey a, releaseKey b with
  | some x, some y => firstDifference [(x.1, y.1), (x.2.1, y.2.1), (x.2.2, y.2.2)]
  | _, _ => false

end JavaScript

/-! ## Digits in patterns -/

theorem has_digit_iff : digit.has ch ↔ ch.isDigit := by
  rw [digit, Ranges.has_single]
  simp only [Char.isDigit, and_eq_true, decide_eq_true_eq]
  exact and_congr UInt32.le_iff_toNat_le.symm UInt32.le_iff_toNat_le.symm

theorem digits_iff : (s.length = w ∧ ∀ ch ∈ s, digit.has ch) ↔ ∃ n < 10 ^ w, s = fixed w n := by
  simp only [has_digit_iff]
  constructor
  · rintro ⟨rfl, hall⟩
    obtain ⟨hfixed, hlt⟩ := fixed_value hall
    exact ⟨value s, hlt, hfixed.symm⟩
  · rintro ⟨n, -, rfl⟩
    exact ⟨length_fixed w n, fun _ => isDigit_of_mem_fixed⟩

/-- The ranges of a pattern hold digits only. -/
def Numeric (R : List Ranges) : Prop := ∀ r ∈ R, ∀ p ∈ r, 48 ≤ p.1.toNat ∧ p.2.toNat ≤ 57

instance (R : List Ranges) : Decidable (Numeric R) := inferInstanceAs (Decidable (∀ r ∈ R, _))

theorem fixed_of_accepts {R : List Ranges} (hR : R.length = w ∧ Numeric R)
    (h : accepts (R.map .range) s) : ∃ n < 10 ^ w, s = fixed w n := by
  obtain ⟨rfl, hR⟩ := hR
  refine digits_iff.1 ?_
  induction R generalizing s with
  | nil =>
    rw [accepts_nil.1 h]
    exact ⟨rfl, nofun⟩
  | cons r R ih =>
    obtain ⟨hr, hR⟩ := forall_mem_cons.1 hR
    obtain ⟨a, t, rfl, ha, h⟩ := (accepts_cons (by rintro ⟨⟩)).1 h
    obtain ⟨hlen, hall⟩ := ih h hR
    obtain ⟨p, hp, hin⟩ := any_eq_true.1 ha
    rw [and_eq_true, decide_eq_true_eq, decide_eq_true_eq] at hin
    refine ⟨congrArg (· + 1) hlen, forall_mem_cons.2 ⟨Ranges.has_single.2 ?_, hall⟩⟩
    exact ⟨(hr p hp).1.trans hin.1, hin.2.trans (hr p hp).2⟩

/-! ## Months, days and counters -/

theorem oneOf_fields (Rs : List (List Ranges)) {last : ℕ}
    (hdigits : ∀ R ∈ Rs, R.length = 2 ∧ Numeric R)
    (hall : ∀ n < 100, oneOf (Rs.map (map .range)) (fixed 2 n) = decide (1 ≤ n ∧ n ≤ last))
    (hlast : last < 100) : oneOf (Rs.map (map .range)) s ↔
      ∃ n, 1 ≤ n ∧ n ≤ last ∧ s = fixed 2 n := by
  constructor
  · intro h
    obtain ⟨p, hp, haccepts⟩ := any_eq_true.1 h
    obtain ⟨R, hR, rfl⟩ := mem_map.1 hp
    obtain ⟨n, hn, rfl⟩ := fixed_of_accepts (hdigits R hR) haccepts
    rw [hall n hn, decide_eq_true_eq] at h
    exact ⟨n, h.1, h.2, rfl⟩
  · rintro ⟨n, hlow, hhigh, rfl⟩
    rw [hall n (by omega)]
    exact decide_eq_true ⟨hlow, hhigh⟩

theorem counter_iff : (accepts [.range positive] s ∨ accepts [.range positive, .range digit] s) ↔
      ∃ n, 1 ≤ n ∧ n < 100 ∧ s = counter n := by
  constructor
  · rintro (h | h)
    · obtain ⟨n, hn, rfl⟩ := fixed_of_accepts (w := 1) (R := [positive]) (by decide) h
      have hall : ∀ n < 10, accepts [.range positive] (fixed 1 n) = decide (1 ≤ n) := by decide
      rw [hall n hn, decide_eq_true_eq] at h
      exact ⟨n, h, by omega, (if_pos hn).symm⟩
    · obtain ⟨n, hn, rfl⟩ := fixed_of_accepts (w := 2) (R := [positive, digit]) (by decide) h
      have hall : ∀ n < 100, accepts [.range positive, .range digit] (fixed 2 n) =
          decide (10 ≤ n) := by
        decide +kernel
      rw [hall n hn, decide_eq_true_eq] at h
      exact ⟨n, by omega, hn, (if_neg (by omega)).symm⟩
  · rintro ⟨n, hpos, hlt, rfl⟩
    have hall : ∀ n < 100, 1 ≤ n → (accepts [.range positive] (counter n) ∨
        accepts [.range positive, .range digit] (counter n)) := by
      decide +kernel
    exact hall n hlt hpos

/-! ## What each program reads -/

open Regex

theorem Python.matches_month {g : List Text} :
    Matches month s g ↔ g = [] ∧ ∃ m, 1 ≤ m ∧ m ≤ 12 ∧ s = fixed 2 m := by
  rw [← oneOf_fields [[[('0', '0')], positive], [[('1', '1')], [('0', '2')]]] (by decide)
    (by decide +kernel) (by decide)]
  refine (or_congr (matches_cat_ones (R := [_, _])) (matches_cat_ones (R := [_, _]))).trans ?_
  simp [oneOf, and_or_left]

theorem Python.matches_day {g : List Text} :
    Matches day s g ↔ g = [] ∧ ∃ d, 1 ≤ d ∧ d ≤ 31 ∧ s = fixed 2 d := by
  rw [← oneOf_fields [[[('0', '0')], positive], [[('1', '1'), ('2', '2')], digit],
    [[('3', '3')], [('0', '0'), ('1', '1')]]] (by decide) (by decide +kernel) (by decide)]
  refine (or_congr (matches_cat_ones (R := [_, _])) (or_congr (matches_cat_ones (R := [_, _]))
    (matches_cat_ones (R := [_, _])))).trans ?_
  simp [oneOf, and_or_left]

theorem matches_counter {g : List Text} :
    Matches (cat [one positive, opt (one digit)]) s g ↔
      g = [] ∧ ∃ n, 1 ≤ n ∧ n < 100 ∧ s = counter n := by
  rw [← counter_iff, and_or_left]
  have h₁ := matches_cat_ones (R := [positive]) (t := s) (g := g)
  have h₂ := matches_cat_ones (R := [positive, digit]) (t := s) (g := g)
  refine .trans ?_ (or_congr h₁ h₂)
  constructor
  · rintro ⟨t₁, g₁, -, -, rfl, rfl, ha, t₂, g₂, -, -, rfl, rfl, hb | ⟨rfl, rfl⟩, rfl, rfl⟩
    · exact .inr ⟨t₁, g₁, _, _, rfl, rfl, ha, t₂, g₂, [], [], rfl, rfl, hb, rfl, rfl⟩
    · exact .inl ⟨t₁, g₁, [], [], rfl, rfl, ha, rfl, rfl⟩
  · rintro (⟨t₁, g₁, -, -, rfl, rfl, ha, rfl, rfl⟩ |
      ⟨t₁, g₁, -, -, rfl, rfl, ha, t₂, g₂, -, -, rfl, rfl, hb, rfl, rfl⟩)
    · exact ⟨t₁, g₁, [], [], rfl, rfl, ha, [], [], [], [], rfl, rfl, .inr ⟨rfl, rfl⟩, rfl, rfl⟩
    · exact ⟨t₁, g₁, _, _, rfl, rfl, ha, t₂, g₂, [], [], rfl, rfl, .inl hb, rfl, rfl⟩

/-- The first three groups of a match. -/
def Tag.groups : List Text := [fixed 4 g.year, fixed 2 g.month, fixed 2 g.day]

theorem matches_digits {g : List Text} :
    Matches (rep w (one digit)) s g ↔ g = [] ∧ ∃ n < 10 ^ w, s = fixed w n := by
  rw [matches_rep_one, digits_iff]

variable {t y a m : Text} {gs : List Text} {k : ℕ × ℕ × ℕ} {n : ℕ} (h : Tag)

theorem Python.matches_oldTag :
    Matches oldTag t gs ↔ ∃ g : Tag, g.n = 0 ∧ t = g.text ∧ gs = g.groups := by
  simp only [oldTag, matches_cat_lit, matches_cat_group, matches_cat_nil, matches_digits]
  constructor
  · rintro ⟨-, rfl, -, -, -, -, rfl, rfl, ⟨rfl, y, hy, rfl⟩, -, rfl, -, -, -, -, rfl, rfl,
      ⟨rfl, m, hm, rfl⟩, -, rfl, -, -, -, -, rfl, rfl, ⟨rfl, d, hd, rfl⟩, rfl, rfl⟩
    refine ⟨⟨y, m, d, 0, hy, hm, hd, by decide, fun h => absurd rfl h⟩, rfl, ?_, rfl⟩
    simp [Tag.text, dateText]
  · rintro ⟨g, hn, rfl, rfl⟩
    refine ⟨_, ?_, fixed 4 g.year, _, _, _, rfl, rfl, ⟨rfl, _, g.year_lt, rfl⟩, _, rfl,
      fixed 2 g.month, _,
      _, _, rfl, rfl, ⟨rfl, _, g.month_lt, rfl⟩, _, rfl, fixed 2 g.day, [], [], [], rfl, rfl,
      ⟨rfl, _, g.day_lt, rfl⟩, rfl, rfl⟩
    simp [Tag.text, dateText, hn]

theorem Python.matches_newTag :
    Matches newTag t gs ↔ ∃ g : Tag, g.n ≠ 0 ∧ t = g.text ∧ gs = g.groups ++ [counter g.n] := by
  simp only [newTag, matches_cat_lit, matches_cat_group, matches_cat_nil, matches_digits,
    matches_month, matches_day, matches_counter]
  constructor
  · rintro ⟨-, rfl, -, -, -, -, rfl, rfl, ⟨rfl, y, hy, rfl⟩, -, rfl, -, -, -, -, rfl, rfl,
      ⟨rfl, m, hm, hm', rfl⟩, -, rfl, -, -, -, -, rfl, rfl, ⟨rfl, d, hd, hd', rfl⟩, -,
        rfl, -, -, -, -,
      rfl, rfl, ⟨rfl, n, hn, hn', rfl⟩, rfl, rfl⟩
    have hpos : n ≠ 0 := by omega
    refine ⟨⟨y, m, d, n, hy, by omega, by omega, hn', fun _ => ⟨⟨hm, hm'⟩, hd, hd'⟩⟩, hpos, ?_, rfl⟩
    simp [Tag.text, dateText, hpos]
  · rintro ⟨g, hn, rfl, rfl⟩
    obtain ⟨⟨hm, hm'⟩, hd, hd'⟩ := g.dated hn
    refine ⟨_, ?_, fixed 4 g.year, _, [], _, rfl, rfl, ⟨rfl, _, g.year_lt, rfl⟩, _, rfl,
      fixed 2 g.month, _,
      [], _, rfl, rfl, ⟨rfl, _, hm, hm', rfl⟩, _, rfl, fixed 2 g.day, _, [], _, rfl, rfl,
      ⟨rfl, _, hd, hd', rfl⟩, _, rfl, counter g.n, [], [], [], rfl, rfl,
      ⟨rfl, _, Nat.one_le_iff_ne_zero.2 hn, g.n_lt, rfl⟩, rfl, rfl⟩
    simp [Tag.text, dateText, hn]

/-! ## Texts of tags -/

theorem value_counter (h : n < 100) : value (counter n) = n := by
  rw [counter]
  split_ifs with hlt
  · exact value_fixed hlt
  · exact value_fixed h

theorem Tag.text_inj {g h : Tag} (heq : g.text = h.text) : g = h := by
  have hlen : ∀ g : Tag, (dateOf g.year g.month g.day).length = 11 := by
    intro g
    simp [dateText]
  obtain ⟨hdate, hrest⟩ := append_inj heq ((hlen g).trans (hlen h).symm)
  obtain ⟨hyear, hdate⟩ := append_inj (List.cons.inj hdate).2 (by simp)
  obtain ⟨hmonth, hdate⟩ := append_inj (List.cons.inj hdate).2 (by simp)
  have hday := (List.cons.inj hdate).2
  refine Tag.ext ((fixed_inj g.year_lt h.year_lt).1 hyear)
    ((fixed_inj g.month_lt h.month_lt).1 hmonth) ((fixed_inj g.day_lt h.day_lt).1 hday) ?_
  have hn : ∀ g : Tag, value ((if g.n = 0 then [] else '.' :: counter g.n).drop 1) = g.n := by
    intro g
    split_ifs with hn
    · exact hn.symm
    · exact value_counter g.n_lt
  rw [← hn g, hrest, hn h]

theorem Tag.value_groups : value g.groups.flatten = g.date := by
  simp only [Tag.groups, flatten_cons, flatten_nil, append_nil, value_append, value_fixed g.year_lt,
    value_fixed g.month_lt, value_fixed g.day_lt, length_fixed, length_append, Tag.date]
  omega

/-! ## Python reads tags -/

theorem Python.fullmatch_oldTag_text :
    fullmatch oldTag g.text = if g.n = 0 then some g.groups else none := by
  rcases fullmatch_cases oldTag g.text with ⟨gs, hfull, h⟩ | ⟨hfull, hnone⟩
  · obtain ⟨h', hn, heq, rfl⟩ := matches_oldTag.1 h
    obtain rfl := Tag.text_inj heq
    rw [hfull, if_pos hn]
  · rw [hfull, if_neg fun hn => hnone _ (matches_oldTag.2 ⟨g, hn, rfl, rfl⟩)]

theorem Python.fullmatch_newTag_text :
    fullmatch newTag g.text = if g.n = 0 then none else some (g.groups ++ [counter g.n]) := by
  rcases fullmatch_cases newTag g.text with ⟨gs, hfull, h⟩ | ⟨hfull, hnone⟩
  · obtain ⟨h', hn, heq, rfl⟩ := matches_newTag.1 h
    obtain rfl := Tag.text_inj heq
    rw [hfull, if_neg hn]
  · have hn : g.n = 0 := by
      by_contra hn
      exact hnone _ (matches_newTag.2 ⟨g, hn, rfl, rfl⟩)
    rw [hfull, if_pos hn]

theorem Python.tagKey_text : tagKey g.text = some g.key := by
  rw [tagKey, fullmatch_oldTag_text, fullmatch_newTag_text, Tag.key]
  by_cases hn : g.n = 0
  · rw [if_pos hn, if_pos hn, ← g.value_groups, hn]
    rfl
  · rw [if_neg hn, if_neg hn, if_neg hn]
    have htake : (g.groups ++ [counter g.n]).take 3 = g.groups := rfl
    have hlast : (g.groups ++ [counter g.n]).getD 3 [] = counter g.n := rfl
    dsimp only
    rw [htake, hlast, g.value_groups, value_counter g.n_lt]

theorem Python.exists_tag (h : tagKey t = some k) : ∃ g : Tag, t = g.text := by
  rcases fullmatch_cases oldTag t with ⟨gs, hfull, hgs⟩ | ⟨hfull, -⟩
  · obtain ⟨g, -, heq, -⟩ := matches_oldTag.1 hgs
    exact ⟨g, heq⟩
  · rcases fullmatch_cases newTag t with ⟨gs, hfull', hgs⟩ | ⟨hfull', -⟩
    · obtain ⟨g, -, heq, -⟩ := matches_newTag.1 hgs
      exact ⟨g, heq⟩
    · rw [tagKey, hfull, hfull'] at h
      cases h

/-! ## JavaScript is Python here -/

theorem releaseKey_eq (t : Text) : releaseKey t = Python.tagKey t := by
  have hold : oldRelease = Python.oldTag := rfl
  have hnew : newRelease = Python.newTag := rfl
  rw [releaseKey, Python.tagKey, hold, hnew]
  rcases fullmatch_cases Python.oldTag t with ⟨gs, hfull, hgs⟩ | ⟨hfull, -⟩
  · obtain ⟨g, -, -, rfl⟩ := Python.matches_oldTag.1 hgs
    rw [hfull]
    simp [Tag.groups]
  · rcases fullmatch_cases Python.newTag t with ⟨gs, hfull', hgs⟩ | ⟨hfull', -⟩
    · obtain ⟨g, -, -, rfl⟩ := Python.matches_newTag.1 hgs
      rw [hfull, hfull']
      simp [Tag.groups]
    · rw [hfull, hfull']

theorem newerTag_eq (a b : Text) : newerTag a b = Python.newer a b := by
  have hloop : ∀ x y : ℕ × ℕ × ℕ,
      firstDifference [(x.1, y.1), (x.2.1, y.2.1), (x.2.2, y.2.2)] = Python.after x y := by
    rintro ⟨x, x', x''⟩ ⟨y, y', y''⟩
    simp only [firstDifference, Python.after]
    by_cases h : x = y
    · by_cases h' : x' = y'
      · by_cases h'' : x'' = y'' <;> simp [h, h', h'']
      · simp [h, h']
    · simp [h]
  rw [newerTag, Python.newer, releaseKey_eq, releaseKey_eq]
  cases Python.tagKey a with
  | none => rfl
  | some x =>
    cases Python.tagKey b with
    | none => rfl
    | some y => exact hloop x y

/-! ## The shell reads tags -/

theorem accepts_threeFields :
    accepts threeFields t ↔ ∃ y m d, y < 10 ^ 4 ∧ m < 10 ^ 2 ∧ d < 10 ^ 2 ∧
      t = dateOf y m d := by
  have hpieces : threeFields = .lit 'v' :: (replicate 4 (.range digit) ++ .lit '.' ::
      (replicate 2 (.range digit) ++ .lit '.' :: replicate 2 (.range digit))) := by decide
  simp only [hpieces, accepts_lit, accepts_append, accepts_replicate, digits_iff]
  constructor
  · rintro ⟨-, rfl, -, -, rfl, ⟨y, hy, rfl⟩, -, rfl, -, -, rfl, ⟨m, hm, rfl⟩, -, rfl, d, hd, rfl⟩
    exact ⟨y, m, d, hy, hm, hd, rfl⟩
  · rintro ⟨y, m, d, hy, hm, hd, rfl⟩
    exact ⟨_, rfl, _, _, rfl, ⟨y, hy, rfl⟩, _, rfl, _, _, rfl, ⟨m, hm, rfl⟩, _, rfl, d, hd, rfl⟩

theorem oneOf_fourFields :
    oneOf fourFields t ↔ ∃ y m d n, y < 10 ^ 4 ∧ m < 10 ^ 2 ∧ d < 10 ^ 2 ∧ (1 ≤ n ∧ n < 100) ∧
      t = dateOf y m d ++ '.' :: counter n := by
  have hpieces : fourFields = [threeFields ++ .lit '.' :: [.range positive],
      threeFields ++ .lit '.' :: [.range positive, .range digit]] := by
    simp [fourFields, threeFields, glob, parse, positive, digit]
  have hsplit : oneOf fourFields t ↔ ∃ a s, t = a ++ '.' :: s ∧ accepts threeFields a ∧
      (accepts [.range positive] s ∨ accepts [.range positive, .range digit] s) := by
    rw [hpieces, oneOf, any_cons, any_cons, any_nil, Bool.or_false, or_eq_true, accepts_append,
      accepts_append]
    simp only [accepts_lit]
    constructor
    · rintro (⟨a, -, rfl, ha, s, rfl, hs⟩ | ⟨a, -, rfl, ha, s, rfl, hs⟩)
      · exact ⟨a, s, rfl, ha, .inl hs⟩
      · exact ⟨a, s, rfl, ha, .inr hs⟩
    · rintro ⟨a, s, rfl, ha, hs | hs⟩
      · exact .inl ⟨a, _, rfl, ha, s, rfl, hs⟩
      · exact .inr ⟨a, _, rfl, ha, s, rfl, hs⟩
  simp only [hsplit, counter_iff, accepts_threeFields]
  constructor
  · rintro ⟨-, -, rfl, ⟨y, m, d, hy, hm, hd, rfl⟩, n, hn, hn', rfl⟩
    exact ⟨y, m, d, n, hy, hm, hd, ⟨hn, hn'⟩, rfl⟩
  · rintro ⟨y, m, d, n, hy, hm, hd, ⟨hn, hn'⟩, rfl⟩
    exact ⟨_, _, rfl, ⟨y, m, d, hy, hm, hd, rfl⟩, n, hn, hn', rfl⟩

theorem oneOf_append {ps : List Pattern} (hps : ∀ p ∈ ps, .star ∉ p ∧ p.length = s.length)
    (rest : Text) : oneOf (ps.map (· ++ [.lit '.', .star])) (s ++ '.' :: rest) = oneOf ps s := by
  induction ps with
  | nil => rfl
  | cons p ps ih =>
    obtain ⟨⟨hstar, hlen⟩, hps⟩ := forall_mem_cons.1 hps
    have hrest := ih hps
    rw [oneOf] at hrest ⊢
    rw [map_cons, any_cons, hrest, accepts_lit_star_append hstar hlen.symm, oneOf, oneOf, any_cons]

theorem oneOf_field {p q : List Pattern} {last : ℕ} (hq : q = p.map (· ++ [.lit '.', .star]))
    (hp : ∀ r ∈ p, .star ∉ r ∧ r.length = 2)
    (hall : ∀ n < 100, oneOf p (fixed 2 n) = decide (1 ≤ n ∧ n ≤ last))
    (hn : n < 10 ^ 2) (rest : Text) :
    oneOf q (fixed 2 n ++ '.' :: rest) = decide (1 ≤ n ∧ n ≤ last) := by
  rw [hq, oneOf_append (by rwa [length_fixed]), hall n hn]

theorem oneOf_month {m : ℕ} (hm : m < 10 ^ 2) (rest : Text) :
    oneOf [glob "0[1-9].*", glob "1[0-2].*"] (fixed 2 m ++ '.' :: rest) = decide (1 ≤ m ∧ m ≤ 12) :=
  oneOf_field (p := [glob "0[1-9]", glob "1[0-2]"]) (by decide) (by decide)
    (by decide +kernel) hm rest

theorem oneOf_day {d : ℕ} (hd : d < 10 ^ 2) (rest : Text) :
    oneOf [glob "0[1-9].*", glob "[12][0-9].*", glob "3[01].*"] (fixed 2 d ++ '.' :: rest) =
      decide (1 ≤ d ∧ d ≤ 31) :=
  oneOf_field (p := [glob "0[1-9]", glob "[12][0-9]", glob "3[01]"]) (by decide) (by decide)
    (by decide +kernel) hd rest

theorem cutFront_v {p : List Piece} (hp : p = .lit 'v' :: replicate n .any) (ha : a.length = n)
    (b : Text) : cutFront p ('v' :: a ++ b) = b := by
  subst hp
  refine cutFront_fixed ?_ (accepts_lit.2 ⟨a, rfl, accepts_any.2 ha⟩)
  rw [mem_cons, mem_replicate]
  rintro (h | ⟨-, h⟩)
  · cases h
  · cases h

theorem cutFront_to_month (hy : y.length = 4) (m d rest : Text) :
    cutFront (glob "v?????") (dateText y m d ++ rest) = m ++ '.' :: (d ++ rest) := by
  have hcut := cutFront_v (p := glob "v?????") (n := 5) (a := y ++ ['.']) (by decide) (by simp [hy])
    (m ++ '.' :: (d ++ rest))
  simpa [dateText] using hcut

theorem cutFront_to_day (hy : y.length = 4) (hm : m.length = 2) (d rest : Text) :
    cutFront (glob "v????????") (dateText y m d ++ rest) = d ++ rest := by
  have hcut := cutFront_v (p := glob "v????????") (n := 8) (a := y ++ '.' :: (m ++ ['.']))
    (by decide) (by simp [hy, hm]) (d ++ rest)
  simpa [dateText] using hcut

theorem tagOk_iff : tagOk t ↔ ∃ g : Tag, t = g.text := by
  have hfour : ∀ {y m d n : ℕ}, m < 10 ^ 2 → d < 10 ^ 2 →
      (oneOf [glob "0[1-9].*", glob "1[0-2].*"]
        (cutFront (glob "v?????") (dateOf y m d ++ '.' :: counter n)) &&
        oneOf [glob "0[1-9].*", glob "[12][0-9].*", glob "3[01].*"]
          (cutFront (glob "v????????") (dateOf y m d ++ '.' :: counter n))) =
        (decide (1 ≤ m ∧ m ≤ 12) && decide (1 ≤ d ∧ d ≤ 31)) := by
    intro y m d n hm hd
    rw [cutFront_to_month (length_fixed 4 y), cutFront_to_day (length_fixed 4 y) (length_fixed 2 m),
      oneOf_month hm, oneOf_day hd]
  rw [tagOk]
  constructor
  · intro h
    split_ifs at h with hthree hfields
    · obtain ⟨y, m, d, hy, hm, hd, rfl⟩ := accepts_threeFields.1 hthree
      refine ⟨⟨y, m, d, 0, hy, hm, hd, by decide, fun hn => absurd rfl hn⟩, ?_⟩
      exact (append_nil _).symm
    · obtain ⟨y, m, d, n, hy, hm, hd, ⟨hn, hn'⟩, rfl⟩ := oneOf_fourFields.1 hfields
      rw [hfour hm hd, and_eq_true, decide_eq_true_eq, decide_eq_true_eq] at h
      have hpos : n ≠ 0 := by omega
      refine ⟨⟨y, m, d, n, hy, hm, hd, hn', fun _ => h⟩, ?_⟩
      rw [Tag.text, if_neg hpos]
  · rintro ⟨g, rfl⟩
    by_cases hn : g.n = 0
    · have hthree : accepts threeFields g.text := by
        rw [accepts_threeFields, Tag.text, if_pos hn, append_nil]
        exact ⟨g.year, g.month, g.day, g.year_lt, g.month_lt, g.day_lt, rfl⟩
      rw [if_pos hthree]
    · by_cases hthree : accepts threeFields g.text
      · rw [if_pos hthree]
      · have hfields : oneOf fourFields g.text := by
          rw [oneOf_fourFields, Tag.text, if_neg hn]
          exact ⟨g.year, g.month, g.day, g.n, g.year_lt, g.month_lt, g.day_lt,
            ⟨Nat.one_le_iff_ne_zero.2 hn, g.n_lt⟩, rfl⟩
        obtain ⟨hm, hd⟩ := g.dated hn
        rw [if_neg hthree, if_pos hfields, Tag.text, if_neg hn, hfour g.month_lt g.day_lt,
          decide_eq_true hm, decide_eq_true hd]
        rfl

theorem dot_not_mem_fixed (w n : ℕ) : '.' ∉ fixed w n := fun h =>
  absurd (isDigit_of_mem_fixed h) (by decide)

theorem dot_not_mem_counter (n : ℕ) : '.' ∉ counter n := by
  rw [counter]
  split_ifs
  · exact dot_not_mem_fixed 1 n
  · exact dot_not_mem_fixed 2 n

theorem accepts_dots : accepts (glob "*.*.*.*") g.text = decide (g.n ≠ 0) := by
  have hpieces : glob "*.*.*.*" =
      [.star, .lit '.', .star, .lit '.', .star, .lit '.', .star] := by decide
  by_cases hn : g.n = 0
  · rw [decide_eq_false fun h => h hn, eq_false_iff]
    intro haccepts
    have hcount := count_le_of_accepts haccepts '.'
    have hdots : g.text.count '.' = 2 := by
      have hzero : ∀ w n, (fixed w n).count '.' = 0 := fun w n =>
        count_eq_zero.2 (dot_not_mem_fixed w n)
      simp [Tag.text, dateText, hn, hzero]
    have hthree : (glob "*.*.*.*").count (.lit '.') = 3 := by decide
    omega
  · have htext : g.text = ('v' :: fixed 4 g.year) ++ '.' :: (fixed 2 g.month ++ '.' ::
        (fixed 2 g.day ++ '.' :: counter g.n)) := by
      simp [Tag.text, dateText, hn]
    rw [decide_eq_true hn, hpieces, htext, accepts_star]
    refine ⟨_, _, rfl, accepts_lit.2
      ⟨_, rfl, accepts_star.2 ⟨_, _, rfl, accepts_lit.2 ⟨_, rfl, ?_⟩⟩⟩⟩
    refine accepts_star.2
      ⟨_, _, rfl, accepts_lit.2 ⟨_, rfl, accepts_star.2 ⟨counter g.n, [], ?_, rfl⟩⟩⟩
    exact (append_nil _).symm

/-- The era and the date, nine digits. -/
def Tag.nine : Text :=
  (if g.n = 0 then '1' else '2') :: (fixed 4 g.year ++ fixed 2 g.month ++ fixed 2 g.day)

/-- What the shell makes of a tag: 1YYYYMMDD00 or 2YYYYMMDDNN. -/
def Tag.shellKey : Text := g.nine ++ fixed 2 g.n

theorem two_of_counter (h : n < 100) :
    (if (counter n).length = 2 then counter n else '0' :: counter n) = fixed 2 n := by
  revert n
  decide +kernel

theorem cut_dateText (hy : '.' ∉ y) (hm : '.' ∉ m) {d : Text} (hd : '.' ∉ d) :
    cutFront (glob "v") (dateText y m d) = y ++ '.' :: (m ++ '.' :: d) ∧
      cutFront (glob "*.") (y ++ '.' :: (m ++ '.' :: d)) = m ++ '.' :: d ∧
      cutBackLong (glob ".*") (y ++ '.' :: (m ++ '.' :: d)) = y ∧
      cutBack (glob ".*") (m ++ '.' :: d) = m ∧ cutFront (glob "*.") (m ++ '.' :: d) = d := by
  refine ⟨?_, cutFront_star_lit hy, cutBackLong_lit_star hy, cutBack_lit_star hd,
    cutFront_star_lit hm⟩
  exact cutFront_fixed (a := ['v']) (by decide) (by decide)

theorem tagKey_text : tagKey g.text = some g.shellKey := by
  have hfront : glob "*." = [.star, .lit '.'] := by decide
  have hback : glob ".*" = [.lit '.', .star] := by decide
  obtain ⟨hv, htd, hyear, hmonth, hday⟩ := cut_dateText (dot_not_mem_fixed 4 g.year)
    (dot_not_mem_fixed 2 g.month) (dot_not_mem_fixed 2 g.day)
  rw [tagKey, if_pos (tagOk_iff.2 ⟨g, rfl⟩), accepts_dots, Tag.shellKey, Tag.nine, cons_append]
  by_cases hn : g.n = 0
  · have htext : g.text = dateOf g.year g.month g.day := by
      rw [Tag.text, if_pos hn, append_nil]
    have hzero : fixed 2 0 = ['0', '0'] := by decide
    simp only [hn, ne_eq, not_true_eq_false, decide_false, false_eq_true, if_false, if_true, htext,
      hv, htd, hyear, hmonth, hday, hzero]
  · have htext : g.text = dateOf g.year g.month g.day ++ '.' :: counter g.n := by
      rw [Tag.text, if_neg hn]
    have htn : cutFrontLong (glob "*.") g.text = counter g.n := by
      rw [htext, hfront, cutFrontLong_star_lit (dot_not_mem_counter g.n)]
    have htk : cutBack (glob ".*") g.text = dateOf g.year g.month g.day := by
      rw [htext, hback, cutBack_lit_star (dot_not_mem_counter g.n)]
    simp only [hn, ne_eq, not_false_eq_true, decide_true, if_true, if_false, htn, htk,
      two_of_counter g.n_lt, hv, htd, hyear, hmonth, hday]

theorem tagKey_eq_some_iff {key : Text} :
    tagKey t = some key ↔ ∃ g : Tag, t = g.text ∧ key = g.shellKey := by
  constructor
  · intro h
    have hok : tagOk t := by
      by_contra hno
      rw [tagKey, if_neg hno] at h
      cases h
    obtain ⟨g, rfl⟩ := tagOk_iff.1 hok
    rw [tagKey_text] at h
    exact ⟨g, rfl, (Option.some.inj h).symm⟩
  · rintro ⟨g, rfl, rfl⟩
    exact tagKey_text g

/-! ## The order -/

theorem Tag.date_lt : g.date < 10 ^ 8 := by
  have hy := g.year_lt
  have hm := g.month_lt
  have hd := g.day_lt
  rw [Tag.date]
  omega

theorem Tag.cut_shellKey :
    cutBack (glob "??") g.shellKey = g.nine ∧ cutFront (glob "?????????") g.shellKey =
      fixed 2 g.n := by
  have htwo : glob "??" = replicate 2 .any := by decide
  have hnine : glob "?????????" = replicate 9 .any := by decide
  have hstar : ∀ n, Piece.star ∉ replicate n Piece.any := by
    intro n h
    cases (mem_replicate.1 h).2
  rw [htwo, hnine, Tag.shellKey]
  constructor
  · exact cutBack_fixed (hstar 2) (accepts_any.2 (length_fixed 2 g.n))
  · exact cutFront_fixed (hstar 9) (accepts_any.2 (by simp [Tag.nine]))

theorem Tag.nine_eq :
    g.nine = fixed 9 (g.key.1 * 10 ^ 8 + g.date) ∧ value g.nine = g.key.1 * 10 ^ 8 + g.date := by
  have hdate : value (fixed 4 g.year ++ fixed 2 g.month ++ fixed 2 g.day) = g.date := by
    rw [← g.value_groups]
    simp [Tag.groups]
  have hera : value [if g.n = 0 then '1' else '2'] = g.key.1 := by
    rw [Tag.key]
    split_ifs <;> rfl
  have hvalue : value g.nine = g.key.1 * 10 ^ 8 + g.date := by
    have hsplit := value_append [if g.n = 0 then '1' else '2']
      (fixed 4 g.year ++ fixed 2 g.month ++ fixed 2 g.day)
    rw [hdate, hera] at hsplit
    simpa [Tag.nine] using hsplit
  have hdigits : ∀ ch ∈ g.nine, ch.isDigit := by
    have hfixed : ∀ w n, ∀ ch ∈ fixed w n, ch.isDigit := fun _ _ _ => isDigit_of_mem_fixed
    refine forall_mem_cons.2 ⟨by split_ifs <;> rfl, forall_mem_append.2 ⟨?_, hfixed _ _⟩⟩
    exact forall_mem_append.2 ⟨hfixed _ _, hfixed _ _⟩
  have hlength : g.nine.length = 9 := by simp [Tag.nine]
  have hfixed := (fixed_value hdigits).1
  rw [hlength, hvalue] at hfixed
  exact ⟨hfixed.symm, hvalue⟩

theorem Tag.era_cases : g.key.1 = 1 ∨ g.key.1 = 2 := by
  rw [Tag.key]
  split_ifs
  · exact .inl rfl
  · exact .inr rfl

theorem newer_text : newer g.text h.text = Python.after g.key h.key := by
  have hzero : ∀ n < 100, value (cutFront (glob "0") (fixed 2 n)) = n := by decide +kernel
  obtain ⟨hnine, htwo⟩ := g.cut_shellKey
  obtain ⟨hnine', htwo'⟩ := h.cut_shellKey
  have hdate := g.date_lt
  have hdate' := h.date_lt
  have hera := g.era_cases
  have hera' := h.era_cases
  have hsame : g.nine = h.nine ↔ g.key.1 * 10 ^ 8 + g.date = h.key.1 * 10 ^ 8 + h.date := by
    rw [g.nine_eq.1, h.nine_eq.1, fixed_inj (by omega) (by omega)]
  have hkey : ∀ k : Tag, k.key.2.1 = k.date ∧ k.key.2.2 = k.n := fun _ => ⟨rfl, rfl⟩
  simp only [newer, tagKey_text, hnine, hnine', htwo, htwo', hzero _ g.n_lt, hzero _ h.n_lt,
    g.nine_eq.2, h.nine_eq.2, ne_eq, hsame, Python.after, (hkey g).1, (hkey g).2,
      (hkey h).1, (hkey h).2]
  split_ifs with hgt hne
  · rw [eq_comm, or_eq_true, and_eq_true, or_eq_true, decide_eq_true_eq, decide_eq_true_eq,
      decide_eq_true_eq]
    omega
  · have hera_eq : g.key.1 = h.key.1 := by omega
    have hdate_eq : g.date = h.date := by omega
    simp [hera_eq, hdate_eq]
  · rw [eq_comm, or_eq_false_iff, and_eq_false_iff, or_eq_false_iff, and_eq_false_iff,
      decide_eq_false_iff_not, decide_eq_false_iff_not, decide_eq_false_iff_not,
        decide_eq_false_iff_not]
    omega

theorem Python.newer_text : newer g.text h.text = after g.key h.key := by
  rw [newer, tagKey_text, tagKey_text]

/-! ## One relation -/

theorem tagOk_eq (t : Text) : tagOk t = Python.tagOk t := by
  rw [Bool.eq_iff_iff, tagOk_iff, Python.tagOk, Option.isSome_iff_exists]
  constructor
  · rintro ⟨g, rfl⟩
    exact ⟨g.key, Python.tagKey_text g⟩
  · rintro ⟨k, hk⟩
    exact Python.exists_tag hk

theorem tagKey_eq_none (h : ¬ ∃ g : Tag, t = g.text) :
    tagKey t = none ∧ Python.tagKey t = none := by
  constructor
  · rw [Option.eq_none_iff_forall_ne_some]
    intro key hkey
    obtain ⟨g, heq, -⟩ := tagKey_eq_some_iff.1 hkey
    exact h ⟨g, heq⟩
  · rw [Option.eq_none_iff_forall_ne_some]
    exact fun k hk => h (Python.exists_tag hk)

theorem newer_eq (a b : Text) : newer a b = Python.newer a b := by
  by_cases ha : ∃ g : Tag, a = g.text
  · obtain ⟨g, rfl⟩ := ha
    by_cases hb : ∃ h : Tag, b = h.text
    · obtain ⟨h, rfl⟩ := hb
      rw [newer_text, Python.newer_text]
    · obtain ⟨hsh, hpy⟩ := tagKey_eq_none hb
      rw [newer, Python.newer, tagKey_text, Python.tagKey_text, hsh, hpy]
  · obtain ⟨hsh, hpy⟩ := tagKey_eq_none ha
    rw [newer, Python.newer, hsh, hpy]

theorem Python.after_iff {x y : ℕ × ℕ × ℕ} :
    after x y ↔ y.1 < x.1 ∨ x.1 = y.1 ∧ (y.2.1 < x.2.1 ∨ x.2.1 = y.2.1 ∧ y.2.2 < x.2.2) := by
  simp [after]

theorem Tag.key_inj {g h : Tag} (heq : g.key = h.key) : g = h := by
  have hn : g.n = h.n := congrArg (fun k => k.2.2) heq
  have hdate : g.date = h.date := congrArg (fun k => k.2.1) heq
  have hm := g.month_lt
  have hd := g.day_lt
  have hm' := h.month_lt
  have hd' := h.day_lt
  rw [Tag.date, Tag.date] at hdate
  exact Tag.ext (by omega) (by omega) (by omega) hn

theorem newer_total {g h : Tag} (hne : g.text ≠ h.text) :
    newer g.text h.text = !newer h.text g.text := by
  have hkey : g.key ≠ h.key := fun heq => hne (congrArg Tag.text (Tag.key_inj heq))
  have hparts : ¬ (g.key.1 = h.key.1 ∧ g.key.2.1 = h.key.2.1 ∧ g.key.2.2 = h.key.2.2) := fun hall =>
    hkey (Prod.ext hall.1 (Prod.ext hall.2.1 hall.2.2))
  rw [newer_text, newer_text, Bool.eq_iff_iff, not_eq_true', ← not_eq_true, Python.after_iff,
    Python.after_iff]
  omega

theorem newer_irrefl (a : Text) : newer a a = false := by
  by_cases ha : ∃ g : Tag, a = g.text
  · obtain ⟨g, rfl⟩ := ha
    rw [newer_text, eq_false_iff, ne_eq, Python.after_iff]
    omega
  · rw [newer, (tagKey_eq_none ha).1]

theorem newer_trans {b c : Text} (hab : newer a b) (hbc : newer b c) : newer a c := by
  have hread : ∀ {a b : Text}, newer a b → ∃ g h : Tag, a = g.text ∧ b = h.text := by
    intro a b hnewer
    rw [newer] at hnewer
    split at hnewer
    · rename_i na nb ha hb
      obtain ⟨g, hg, -⟩ := tagKey_eq_some_iff.1 ha
      obtain ⟨h, hh, -⟩ := tagKey_eq_some_iff.1 hb
      exact ⟨g, h, hg, hh⟩
    · cases hnewer
  obtain ⟨g, h, rfl, rfl⟩ := hread hab
  obtain ⟨-, k, -, rfl⟩ := hread hbc
  rw [newer_text, Python.after_iff] at hab hbc ⊢
  omega

end Mu300.Update
