import Mathlib.Data.List.DropRight

/-!
# Texts of shell scripts

* `lines`, `fields` — how awk cuts its input into records and fields.

A text is a list of characters; where the script counts bytes, one character is one byte.
-/

namespace Shell

open List Bool

/-- The content of a text file, or the value of a variable. -/
abbrev Text := List Char

/-- A literal stands for its characters. -/
instance : Coe String Text := ⟨String.toList⟩

instance : LawfulBEq Text := inferInstance

/-- `$(cat file)`: the text without its last newlines. -/
def captured (t : Text) : Text := (t.reverse.dropWhile (· = '\n')).reverse

/-- What `echo word` writes. -/
def line (word : Text) : Text := word ++ ['\n']

def lines (t : Text) : List Text := t.splitOn '\n'

/-- The fields of a record, between blanks and tabs. -/
def fields (l : Text) : List Text := (l.splitOnP fun ch => ch = ' ' || ch = '\t').filter (· ≠ [])

/-- `$i`, counted from 1; empty behind the last field. -/
def field (l : Text) (i : ℕ) : Text := (fields l).getD (i - 1) []

/-- `IFS=TAB read -r` with so many variables; the last one gets the rest of the line. -/
def readTabs : ℕ → Text → List Text
  | 0, _ => []
  | 1, t => [(t.dropWhile (· = '\t')).rdropWhile (· = '\t')]
  | n + 2, t =>
    let t := t.dropWhile (· = '\t')
    t.takeWhile (· ≠ '\t') :: readTabs (n + 1) (t.dropWhile (· ≠ '\t'))

/-- `a < b` for two texts. -/
def before : Text → Text → Bool
  | _, [] => false
  | [], _ :: _ => true
  | x :: a, y :: b => x.toNat < y.toNat || x.toNat = y.toNat && before a b

theorem captured_concat (t : Text) (ch : Char) :
    captured (t ++ [ch]) = if ch = '\n' then captured t else t ++ [ch] := by
  have hdrop := rdropWhile_concat (fun ch => decide (ch = '\n')) t ch
  simp only [decide_eq_true_eq] at hdrop
  exact hdrop

/-- The pieces of a text are made of its characters, and the separator is in none of them. -/
theorem of_mem_splitOn {sep : Char} {t piece : Text} (h : piece ∈ t.splitOn sep) :
    sep ∉ piece ∧ ∀ ch ∈ piece, ch ∈ t := by
  by_cases hsep : sep ∈ t
  · obtain ⟨a, b, rfl, ha⟩ := eq_append_cons_of_mem hsep
    rw [splitOn_append_cons_self_of_not_mem ha] at h
    rcases mem_cons.1 h with rfl | h
    · exact ⟨ha, fun _ => mem_append_left _⟩
    · exact (of_mem_splitOn h).imp_right fun hb ch hch => by simp [hb ch hch]
  · rw [splitOn_eq_singleton hsep, mem_singleton] at h
    exact ⟨h ▸ hsep, fun _ hch => h ▸ hch⟩
termination_by t.length
decreasing_by grind

theorem mem_intercalate {sep ch : Char} {fs : List Text} (h : ch ∈ [sep].intercalate fs) :
    ch = sep ∨ ∃ f ∈ fs, ch ∈ f := by
  fun_induction intersperse [sep] fs with
  | case1 => cases h
  | case2 f => exact .inr ⟨f, mem_cons_self, by simpa using h⟩
  | case3 f fs hne ih =>
    rw [intercalate_cons_of_ne_nil hne, mem_append, mem_append, mem_singleton] at h
    obtain (h | h) | h := h
    · exact .inr ⟨f, mem_cons_self, h⟩
    · exact .inl h
    · exact (ih h).imp_right fun ⟨f, hf, hch⟩ => ⟨f, mem_cons_of_mem _ hf, hch⟩

/-- The last separator of a text is in one place. -/
theorem eq_of_append_cons {sep : Char} {a b w w' : Text} (hw : sep ∉ w) (hw' : sep ∉ w')
    (h : a ++ sep :: w = b ++ sep :: w') : a = b ∧ w = w' := by
  rcases append_eq_append_iff.1 h with ⟨d, rfl, hd⟩ | ⟨d, rfl, hd⟩
  · cases d with
    | nil => simpa using hd
    | cons x d => exact absurd (by rw [(List.cons.inj hd).2]; simp) hw
  · cases d with
    | nil => simpa using hd.symm
    | cons x d => exact absurd (by rw [(List.cons.inj hd).2]; simp) hw'

theorem lines_flatMap_line {ls : List Text} (h : ∀ l ∈ ls, '\n' ∉ l) :
    lines (ls.flatMap line) = ls ++ [[]] := by
  induction ls with
  | nil =>
    rfl
  | cons l ls ih =>
    obtain ⟨hl, hls⟩ := forall_mem_cons.1 h
    rw [lines, flatMap_cons, line, append_assoc, singleton_append,
      splitOn_append_cons_self_of_not_mem hl]
    exact congrArg (l :: ·) (ih hls)

theorem readTabs_tab (n : ℕ) (t : Text) : readTabs n ('\t' :: t) = readTabs n t := by
  match n with
  | 0 | 1 => rfl
  | n + 2 => rfl

theorem readTabs_nil (n : ℕ) : readTabs n [] = replicate n [] := by
  match n with
  | 0 | 1 => rfl
  | n + 2 =>
    exact congrArg _ (readTabs_nil (n + 1))

variable {f : Text}

theorem dropWhile_tab (hf : '\t' ∉ f) (hne : f ≠ []) (t : Text) :
    (f ++ t).dropWhile (· = '\t') = f ++ t := by
  obtain ⟨ch, f, rfl⟩ := exists_cons_of_ne_nil hne
  rw [cons_append, dropWhile_cons_of_neg]
  rw [decide_eq_true_eq]
  rintro rfl
  exact hf mem_cons_self

theorem readTabs_single (n : ℕ) (hf : '\t' ∉ f) (hne : f ≠ []) :
    readTabs (n + 1) f = f :: replicate n [] := by
  have hall : ∀ ch ∈ f, decide (ch ≠ '\t') := fun ch hch =>
    decide_eq_true fun h => hf (h ▸ hch)
  have hdrop : f.dropWhile (· = '\t') = f := by simpa using dropWhile_tab hf hne []
  rcases n with _ | n
  · rw [readTabs, hdrop, rdropWhile_eq_self_iff.2]
    · rfl
    · intro hl h
      exact hf (of_decide_eq_true h ▸ getLast_mem hl)
  · rw [readTabs, hdrop, takeWhile_eq_self_iff.2 hall, dropWhile_eq_nil_iff.2 hall, readTabs_nil]

theorem readTabs_cons (n : ℕ) (hf : '\t' ∉ f) (hne : f ≠ []) (t : Text) :
    readTabs (n + 2) (f ++ '\t' :: t) = f :: readTabs (n + 1) t := by
  have hall : ∀ ch ∈ f, decide (ch ≠ '\t') := fun ch hch =>
    decide_eq_true fun h => hf (h ▸ hch)
  rw [readTabs, dropWhile_tab hf hne, takeWhile_append_of_pos hall, dropWhile_append_of_pos hall,
    takeWhile_cons_of_neg (by simp), dropWhile_cons_of_neg (by simp), append_nil, readTabs_tab]

/-- **Fields and variables**: empty fields are passed over, and variables left over are empty. -/
theorem readTabs_intercalate {fs : List Text} (hfs : ∀ f ∈ fs, '\t' ∉ f) {n : ℕ}
    (hn : fs.length ≤ n) : readTabs n (['\t'].intercalate fs) =
      fs.filter (· ≠ []) ++ replicate (n - (fs.filter (· ≠ [])).length) [] := by
  induction fs generalizing n with
  | nil => exact readTabs_nil n
  | cons f fs ih =>
    have hf := hfs f mem_cons_self
    have hrest : ∀ g ∈ fs, '\t' ∉ g := fun g hg => hfs g (.tail _ hg)
    rw [length_cons] at hn
    rcases fs with _ | ⟨g, fs⟩
    · rw [intercalate_singleton]
      by_cases hne : f = []
      · rw [hne, readTabs_nil]
        rfl
      · obtain ⟨n, rfl⟩ : ∃ k, n = k + 1 := ⟨n - 1, by omega⟩
        rw [readTabs_single n hf hne, filter_cons_of_pos (by simpa using hne)]
        rfl
    · rw [intercalate_cons_cons, append_assoc, singleton_append]
      by_cases hne : f = []
      · have hskip : (f :: g :: fs).filter (· ≠ []) = (g :: fs).filter (· ≠ []) :=
          filter_cons_of_neg (by simpa using hne)
        rw [hskip, hne, nil_append, readTabs_tab, ih hrest (by omega)]
      · obtain ⟨n, rfl⟩ : ∃ k, n = k + 2 := ⟨n - 2, by rw [length_cons] at hn; omega⟩
        have hkeep : (f :: g :: fs).filter (· ≠ []) = f :: (g :: fs).filter (· ≠ []) :=
          filter_cons_of_pos (by simpa using hne)
        rw [hkeep, readTabs_cons n hf hne, ih hrest (by omega), cons_append, length_cons,
          Nat.succ_sub_succ (n + 1)]

theorem before_iff {a b : Text} : before a b ↔ a < b := by
  fun_induction before a b with
  | case1 => simp
  | case2 => simp
  | case3 x a y b ih =>
    rw [cons_lt_cons_iff, or_eq_true, and_eq_true, ih, decide_eq_true_iff, decide_eq_true_iff,
      Char.toNat_inj]
    rfl

theorem not_before_self (a : Text) : before a a = false :=
  eq_false_iff.2 fun h => List.lt_irrefl a (before_iff.1 h)

theorem not_before_of_before {a b : Text} (h : before a b) : before b a = false :=
  eq_false_iff.2 fun h' => List.lt_asymm (before_iff.1 h) (before_iff.1 h')

theorem before_append_left (l a b : Text) : before (l ++ a) (l ++ b) = before a b := by
  induction l with
  | nil => rfl
  | cons x l ih => simp [before, ih]

theorem before_append_iff {a b : Text} (hl : a.length = b.length) (a' b' : Text) :
    before (a ++ a') (b ++ b') ↔ before a b ∨ a = b ∧ before a' b' := by
  induction a generalizing b with
  | nil =>
    obtain rfl : b = [] := eq_nil_of_length_eq_zero hl.symm
    simp [before]
  | cons x a ih =>
    cases b with
    | nil => simp at hl
    | cons y b =>
      have ih := ih (b := b) (by simpa using hl)
      simp only [cons_append, before, or_eq_true, and_eq_true, decide_eq_true_eq,
        List.cons.injEq, ih, ← Char.toNat_inj]
      tauto

end Shell
