import Mathlib.Data.List.Infix
import Mathlib.Data.List.Pairwise
import Mu300.Lib.Bitmask
import Mu300.Lib.Shell

/-!
# Band locks

How `lock` of `unisoc-modem` turns a list of bands into the masks of `AT+SPLBAND`, and reads masks
back.

An entry that comes twice is added twice, so its bit is carried into the next one, which is that of
another band. `bands_sent_iff` says when the masks that are sent stand for the right bands: when
nothing is sent, or no band comes twice and none is written in another way than the modem's list
has it. A band that comes three times can be right again by its carries.
-/

namespace Mu300.Lock

open Shell Bitmask List

inductive Rat : Type where
  | lte
  | nr
  deriving DecidableEq

/-! ## Lists of bands -/

/-- `valid_value lte VALUE`, `valid_value nr VALUE`. -/
def validValue (v : Text) : Bool :=
  v.all (fun ch => ch.isDigit || ch = ',') && v.head? ≠ some ',' && v.getLast? ≠ some ',' &&
    !decide ([',', ','] <:+: v) && v.length ≤ 127

/-- The words of a list, as `for b in $(... | tr ',' ' ')` has them. -/
def words (v : Text) : List Text := (v.splitOn ',').filter (· ≠ [])

/-- `$i + 0` of digits. -/
def number (w : Text) : ℕ := w.foldl (fun n ch => n * 10 + (ch.toNat - '0'.toNat)) 0

variable (r : Rat) (v sup : Text)

/-- The entries of a list that another one has (`case ",$2," in *",$b,"*`). -/
def kept : List Text := (words v).filter fun b => b ∈ sup.splitOn ','

def filterBands : Text := [','].intercalate (kept v sup)

/-! ## Masks -/

/-- The first bands of the five LTE masks, in the order of the modem. -/
def lteBases : List ℕ := [49, 33, 17, 1, 65]

/-- The tables of the three NR masks, the lowest bit first. -/
def nrTables : List (List ℕ) :=
  [[1, 2, 3, 5, 7, 8, 12, 20, 25, 28, 66, 70, 71, 74],
   [34, 38, 39, 40, 41, 50, 51, 77, 78, 79],
   [75, 76, 80, 81, 82, 83, 84, 86]]

/-- The fields of a list, as numbers above 0. -/
def fieldNumbers (v : Text) : List ℕ := ((v.splitOn ',').map number).filter (0 < ·)

/-- What a band adds to the LTE mask with a base. -/
def lteBit (off b : ℕ) : ℕ := if off ≤ b ∧ b - off ≤ 15 then 2 ^ (b - off) else 0

def lteMasks (v : Text) : List ℕ := lteBases.map fun off => ((fieldNumbers v).map (lteBit off)).sum

def lteBands (ms : List ℕ) : List ℕ :=
  (zipWith (fun off m => unmask (range' off 16) m) lteBases ms).flatten

def nrMasks (v : Text) : List ℕ := nrTables.map fun t => mask t (fieldNumbers v)

def nrBands (ms : List ℕ) : List ℕ := (zipWith unmask nrTables ms).flatten

/-! ## What is sent -/

/-- The fields behind `AT+SPLBAND=1,` or `AT+SPLBAND=2,` for what the filter left; nothing is
automatic. -/
def written (r : Rat) (val : Text) : List ℕ :=
  match r with
  | .lte => if val = [] then [0, 0, 0, 0, 0] else lteMasks val
  | .nr =>
    if val = [] then [0, 0, 0, 0]
    else match nrMasks val with
      -- the modem has a field of its own between the first and the second mask
      | m :: ms => m :: 0 :: ms
      | [] => []

/-- `do_apply`: nothing when the value is refused, or none of its bands is supported. -/
def applied : Option (List ℕ) :=
  if ¬ validValue v then none
  else if v ≠ [] ∧ filterBands v sup = [] then none
  else some (written r (filterBands v sup))

/-- What the replay sends for a saved value. -/
def replayed : List ℕ := written r (filterBands v sup)

/-- The bands that fields stand for. -/
def decoded (r : Rat) (ms : List ℕ) : List ℕ :=
  match r with
  | .lte => lteBands ms
  | .nr =>
    match ms with
    | m :: _ :: ms => nrBands (m :: ms)
    | ms => nrBands ms

/-! ## The right bands -/

/-- The bands that can be encoded, by mask. -/
def tables : Rat → List (List ℕ)
  | .lte => lteBases.map fun off => range' off 16
  | .nr => nrTables

/-- A band is in a list of numbers. -/
def named (v : Text) : List ℕ := ((words v).filter (·.all Char.isDigit)).map number

/-- A band is requested and supported. -/
def wanted (b : ℕ) : Bool := b ∈ named v && b ∈ named sup

/-- The fields stand for the bands that are requested, supported and encodable. -/
def Exact (ms : List ℕ) : Prop :=
  ∀ b, b ∈ decoded r ms ↔ (∃ t ∈ tables r, b ∈ t) ∧ wanted v sup b

/-- The bands of the entries the filter keeps, as often as they are there. -/
def keptNumbers : List ℕ := (kept v sup).map number

/-- A band is requested and supported, but not in the same spelling. -/
def misspelled (b : ℕ) : Bool := wanted v sup b && b ∉ keptNumbers v sup

/-- None of the bands is supported, and nothing is sent. -/
def Refused : Prop := v ≠ [] ∧ ∀ w ∈ words v, w ∉ sup.splitOn ','

/-- No band of the tables is kept twice, and none is lost for its spelling. -/
def Once : Prop :=
  ∀ t ∈ tables r, ∀ b ∈ t, (keptNumbers v sup).count b ≤ 1 ∧ misspelled v sup b = false

instance : Decidable (Once r v sup) :=
  inferInstanceAs (Decidable (∀ t ∈ tables r, ∀ b ∈ t, _ ∧ _))

/-- In every mask, what the repeated entries add is what the misspelled ones lack. -/
def Balanced : Prop :=
  ∀ t ∈ tables r,
    mask t (again (keptNumbers v sup)) ≡ flags t (misspelled v sup) [MOD 2 ^ t.length]

/-! ## Tables -/

theorem flatten_tables_nodup (r : Rat) : (tables r).flatten.Nodup := by
  cases r with
  | lte | nr => decide

variable {t : List ℕ}

theorem pos_of_mem_tables {r : Rat} {b : ℕ} (ht : t ∈ tables r) (hb : b ∈ t) : 0 < b := by
  have hall : ∀ b ∈ (tables r).flatten, 0 < b := by
    cases r with
    | lte | nr => decide
  exact hall b (mem_flatten.2 ⟨t, ht, hb⟩)

theorem place_range' (off n b : ℕ) :
    place (range' off n) b = if off ≤ b ∧ b < off + n then 2 ^ (b - off) else 0 := by
  induction n generalizing off with
  | zero =>
    rw [if_neg (by omega)]
    rfl
  | succ n ih =>
    rw [range'_succ, place, ih]
    rcases Nat.lt_trichotomy b off with hlt | rfl | hgt
    · rw [if_neg (by omega), if_neg (by omega), if_neg (by omega)]
    · rw [if_pos rfl, if_neg (by omega), if_pos (by omega), Nat.sub_self]
      rfl
    · have hsub : b - off = b - (off + 1) + 1 := by omega
      by_cases hn : b < off + (n + 1)
      · rw [if_neg (by omega), if_pos (by omega), if_pos (by omega), hsub, Nat.pow_succ']
        omega
      · rw [if_neg (by omega), if_neg (by omega), if_neg (by omega)]

theorem lteBit_eq_place (off b : ℕ) : lteBit off b = place (range' off 16) b := by
  rw [lteBit, place_range']
  by_cases h : off ≤ b ∧ b - off ≤ 15
  · rw [if_pos h, if_pos (by omega)]
  · rw [if_neg h, if_neg (by omega)]

theorem mask_filter_pos (ht : ∀ b ∈ t, 0 < b) (ws : List ℕ) :
    mask t (ws.filter (0 < ·)) = mask t ws := by
  induction ws with
  | nil => rfl
  | cons w ws ih =>
    by_cases hw : 0 < w
    · rw [filter_cons_of_pos (by simpa using hw), mask_cons, mask_cons, ih]
    · have hzero : place t w = 0 := place_eq_zero fun hmem => hw (ht w hmem)
      rw [filter_cons_of_neg (by simpa using hw), mask_cons, hzero, ih, Nat.zero_add]

/-! ## Spelling -/

section

variable {r : Rat} {v sup w : Text}

theorem mem_words_iff : w ∈ words v ↔ w ∈ v.splitOn ',' ∧ w ≠ [] := by
  simp [words]

theorem isDigit_of_mem_words (hv : validValue v) (hw : w ∈ words v) : w.all Char.isDigit := by
  simp only [validValue, Bool.and_eq_true] at hv
  obtain ⟨⟨⟨⟨hall, _⟩, _⟩, _⟩, _⟩ := hv
  refine all_eq_true.2 fun ch hch => ?_
  have hword := (mem_words_iff.1 hw).1
  have hcomma : ch ≠ ',' := fun he => (of_mem_splitOn hword).1 (he ▸ hch)
  have hmem : ch ∈ v := (of_mem_splitOn hword).2 ch hch
  simpa [hcomma] using all_eq_true.1 hall ch hmem

theorem splitOn_filterBands (h : kept v sup ≠ []) :
    (filterBands v sup).splitOn ',' = kept v sup := by
  refine splitOn_intercalate ',' ?_ h
  intro w hw hcomma
  have hword := (mem_words_iff.1 (mem_filter.1 hw).1).1
  exact (of_mem_splitOn hword).1 hcomma

theorem filterBands_eq_nil_iff : filterBands v sup = [] ↔ kept v sup = [] := by
  refine ⟨fun h => ?_, fun h => by rw [filterBands, h]; rfl⟩
  by_contra hne
  obtain ⟨w, hw⟩ := exists_mem_of_ne_nil _ hne
  have hsplit := splitOn_filterBands hne
  rw [h, splitOn_nil] at hsplit
  rw [← hsplit, mem_singleton] at hw
  have hword : w ∈ words v := (mem_filter.1 (hsplit ▸ mem_singleton.2 hw)).1
  exact (mem_words_iff.1 hword).2 hw

theorem wanted_of_kept (hv : validValue v) {b : ℕ} (hb : b ∈ keptNumbers v sup) :
    wanted v sup b := by
  obtain ⟨w, hw, rfl⟩ := mem_map.1 hb
  obtain ⟨hword, hsup⟩ := mem_filter.1 hw
  have hdigits := isDigit_of_mem_words hv hword
  have hsupword : w ∈ words sup :=
    mem_words_iff.2 ⟨of_decide_eq_true hsup, (mem_words_iff.1 hword).2⟩
  rw [wanted, Bool.and_eq_true, decide_eq_true_eq, decide_eq_true_eq]
  exact ⟨mem_map_of_mem (mem_filter.2 ⟨hword, hdigits⟩),
    mem_map_of_mem (mem_filter.2 ⟨hsupword, hdigits⟩)⟩

/-! ## Masks that are right -/

theorem fieldNumbers_filterBands (h : kept v sup ≠ []) :
    fieldNumbers (filterBands v sup) = (keptNumbers v sup).filter (0 < ·) := by
  rw [fieldNumbers, splitOn_filterBands h, keptNumbers]

theorem lteMasks_eq (h : kept v sup ≠ []) : lteMasks (filterBands v sup) =
      lteBases.map fun off => mask (range' off 16) (keptNumbers v sup) := by
  refine map_congr_left fun off hoff => ?_
  have hpos : ∀ b ∈ range' off 16, 0 < b := fun b hb =>
    pos_of_mem_tables (r := .lte) (mem_map_of_mem hoff) hb
  have hbit : lteBit off = place (range' off 16) := funext (lteBit_eq_place off)
  rw [fieldNumbers_filterBands h, hbit]
  exact mask_filter_pos hpos _

theorem nrMasks_eq (h : kept v sup ≠ []) :
    nrMasks (filterBands v sup) = nrTables.map fun t => mask t (keptNumbers v sup) := by
  refine map_congr_left fun t ht => ?_
  rw [fieldNumbers_filterBands h]
  exact mask_filter_pos (fun b hb => pos_of_mem_tables (r := .nr) ht hb) _

theorem decoded_written (r : Rat) (v sup : Text) : decoded r (written r (filterBands v sup)) =
      ((tables r).map fun t => unmask t (mask t (keptNumbers v sup))).flatten := by
  by_cases h : kept v sup = []
  · have hnil : filterBands v sup = [] := filterBands_eq_nil_iff.2 h
    have hnums : keptNumbers v sup = [] := by rw [keptNumbers, h, map_nil]
    cases r with
    | lte => simp [written, hnil, hnums, decoded, lteBands, lteBases, mask]
    | nr => simp [written, hnil, hnums, decoded, nrBands, nrTables, mask]
  · have hne : filterBands v sup ≠ [] := fun hnil => h (filterBands_eq_nil_iff.1 hnil)
    cases r with
    | lte =>
      rw [written, if_neg hne, decoded, lteBands, lteMasks_eq h, zipWith_map_right, zipWith_self,
        tables, map_map]
      rfl
    | nr =>
      have hfields : decoded .nr (written .nr (filterBands v sup)) =
          nrBands (nrMasks (filterBands v sup)) := by
        rw [written, if_neg hne]
        rfl
      rw [hfields, nrBands, nrMasks_eq h, zipWith_map_right, zipWith_self, tables]

theorem table_exact_iff (hv : validValue v) (ht : t.Nodup) :
    (∀ b, b ∈ unmask t (mask t (keptNumbers v sup)) ↔ b ∈ t ∧ wanted v sup b) ↔
      mask t (again (keptNumbers v sup)) ≡ flags t (misspelled v sup) [MOD 2 ^ t.length] := by
  have hsplit : flags t (wanted v sup) =
      flags t (· ∈ keptNumbers v sup) + flags t (misspelled v sup) := by
    refine flags_add fun b _ => ?_
    by_cases hb : b ∈ keptNumbers v sup
    · simp [misspelled, hb, wanted_of_kept hv hb]
    · simp [misspelled, hb]
  rw [forall_mem_unmask_iff ht, mask_eq_flags_add, hsplit]
  exact Nat.ModEq.add_iff_left rfl

theorem exact_iff_tables (r : Rat) (P : ℕ → Prop) (m : List ℕ → ℕ) :
    (∀ b, b ∈ ((tables r).map fun t => unmask t (m t)).flatten ↔ (∃ t ∈ tables r, b ∈ t) ∧ P b) ↔
      ∀ t ∈ tables r, ∀ b, b ∈ unmask t (m t) ↔ b ∈ t ∧ P b := by
  have hmem : ∀ b, b ∈ ((tables r).map fun t => unmask t (m t)).flatten ↔
      ∃ t ∈ tables r, b ∈ unmask t (m t) := by
    simp
  have hin : ∀ {t b}, b ∈ unmask t (m t) → b ∈ t := by
    intro t b hb
    obtain ⟨i, hi, _⟩ := mem_unmask.1 hb
    exact mem_of_getElem? hi
  have hone : ∀ {t u b}, t ∈ tables r → u ∈ tables r → b ∈ t → b ∈ u → t = u := by
    intro t u b ht hu hbt hbu
    by_contra hne
    have hdisjoint := (nodup_flatten.1 (flatten_tables_nodup r)).2
    have hsymm : Std.Symm (@List.Disjoint ℕ) := ⟨fun _ _ h => h.symm⟩
    exact hdisjoint.forall ht hu hne hbt hbu
  simp only [hmem]
  constructor
  · intro h t ht b
    constructor
    · intro hb
      exact ⟨hin hb, ((h b).1 ⟨t, ht, hb⟩).2⟩
    · rintro ⟨hbt, hP⟩
      obtain ⟨u, hu, hb⟩ := (h b).2 ⟨⟨t, ht, hbt⟩, hP⟩
      obtain rfl := hone ht hu hbt (hin hb)
      exact hb
  · intro h b
    constructor
    · rintro ⟨t, ht, hb⟩
      obtain ⟨hbt, hP⟩ := (h t ht b).1 hb
      exact ⟨⟨t, ht, hbt⟩, hP⟩
    · rintro ⟨⟨t, ht, hbt⟩, hP⟩
      exact ⟨t, ht, (h t ht b).2 ⟨hbt, hP⟩⟩

theorem exact_written_iff (r : Rat) (sup : Text) (hv : validValue v) :
    Exact r v sup (written r (filterBands v sup)) ↔ Balanced r v sup := by
  have htables := exact_iff_tables r (fun b => wanted v sup b) fun t => mask t (keptNumbers v sup)
  rw [Exact, decoded_written, htables, Balanced]
  refine forall₂_congr fun t ht => ?_
  exact table_exact_iff hv ((nodup_flatten.1 (flatten_tables_nodup r)).1 t ht)

/-- What was saved goes through the filter as it is. -/
theorem filterBands_filterBands (v sup : Text) :
    filterBands (filterBands v sup) sup = filterBands v sup := by
  by_cases h : kept v sup = []
  · rw [filterBands_eq_nil_iff.2 h]
    rfl
  · have hwords : words (filterBands v sup) = kept v sup := by
      rw [words, splitOn_filterBands h, filter_eq_self]
      exact fun w hw => decide_eq_true (mem_words_iff.1 (mem_filter.1 hw).1).2
    have hkept : kept (filterBands v sup) sup = kept v sup := by
      rw [kept, hwords, filter_eq_self]
      exact fun w hw => (mem_filter.1 hw).2
    rw [filterBands, hkept, ← filterBands]

/-- Where no band is there three times nothing is carried twice, and the balance is empty. -/
theorem balanced_iff_once (h : ∀ b, (keptNumbers v sup).count b ≤ 2) :
    Balanced r v sup ↔ Once r v sup := by
  have hagain : (again (keptNumbers v sup)).Nodup := by
    refine nodup_iff_count_le_one.2 fun b => ?_
    rw [count_again]
    exact Nat.sub_le_sub_right (h b) 1
  refine forall₂_congr fun t ht => ?_
  rw [mask_eq_flags t hagain,
    flags_modEq_iff ((nodup_flatten.1 (flatten_tables_nodup r)).1 t ht)]
  refine forall₂_congr fun b _ => ?_
  have hmem : b ∈ again (keptNumbers v sup) ↔ 1 < (keptNumbers v sup).count b := by
    rw [← count_pos_iff, count_again, Nat.sub_pos_iff_lt]
  by_cases hb : b ∈ keptNumbers v sup
  · have hnot : misspelled v sup b = false := by simp [misspelled, hb]
    rw [hnot, decide_eq_false_iff_not, hmem, Nat.not_lt, and_iff_left rfl]
  · have hzero := count_eq_zero_of_not_mem hb
    rw [decide_eq_false (by rw [hmem, hzero]; decide), hzero, eq_comm,
      and_iff_right (Nat.zero_le 1)]

/-- **The masks that are sent** by an apply, and by the replay of what it saved, stand for the
bands that are requested, supported and encodable, exactly when the apply is refused or in every
mask the repeated entries add what the misspelled ones lack. Where no band is there three times,
that is: none is there twice, and none is misspelled. -/
theorem bands_sent_iff (r : Rat) (sup : Text) (hv : validValue v) :
    ((∀ ms, applied r v sup = some ms →
        Exact r v sup ms ∧ Exact r v sup (replayed r (filterBands v sup) sup)) ↔
      Refused v sup ∨ Balanced r v sup) ∧
    ((∀ b, (keptNumbers v sup).count b ≤ 2) → (Balanced r v sup ↔ Once r v sup)) := by
  refine ⟨?_, balanced_iff_once⟩
  have hwritten := exact_written_iff r sup hv
  have hrefused : v ≠ [] ∧ filterBands v sup = [] ↔ Refused v sup := by
    simp [filterBands_eq_nil_iff, kept, filter_eq_nil_iff, Refused]
  rw [applied, if_neg (not_not_intro hv), replayed, filterBands_filterBands]
  by_cases hr : Refused v sup
  · rw [if_pos (hrefused.2 hr)]
    simp [hr]
  · rw [if_neg (mt hrefused.1 hr)]
    simp [hr, hwritten]

end

/-- B3 and B1 on a board that has them. -/
theorem bands_sent_plain :
    validValue "3,1" ∧ ∀ ms, applied .lte "3,1" "1,3,5" = some ms →
      Exact .lte "3,1" "1,3,5" ms ∧ Exact .lte "3,1" "1,3,5"
        (replayed .lte (filterBands "3,1" "1,3,5") "1,3,5") := by
  have hv : validValue "3,1" := by decide
  obtain ⟨hsent, honce⟩ := bands_sent_iff .lte "1,3,5" hv
  refine ⟨hv, hsent.2 (.inr ((honce fun b => ?_).2 (by decide)))⟩
  exact (nodup_iff_count_le_one.1 (by decide) b).trans (by decide)

/-- B1 twice: the mask of B2 is sent, which nobody asked for. -/
theorem band_requested_twice :
    validValue "1,1" ∧ applied .lte "1,1" "1,3" = some [0, 0, 0, 2, 0] ∧
      decoded .lte [0, 0, 0, 2, 0] = [2] ∧
      ¬ Exact .lte "1,1" "1,3" [0, 0, 0, 2, 0] := by
  refine ⟨by decide, by decide, by decide, fun h => ?_⟩
  have hnot : ¬ wanted "1,1" "1,3" 2 := by decide
  exact hnot ((h 2).1 (by decide)).2

end Mu300.Lock
