import Mu300.Json.Control

/-!
# The lines of the reader

A tab or a line end in a string is written as an escape, so that a line has three fields and ends
where its member does.

* `Says` — a line says a member.
* `one_line_each` — the output has one such line for each member.
-/

namespace Mu300.FlatJson

open Shell List

variable {anykey : Bool} {seen : List Text} {c : Char}

/-! ## Escapes -/

/-- What `\\\\`, `\\n`, `\\t` and `\\r` stand for. -/
def unescape : Text → Text
  | '\\' :: '\\' :: t => '\\' :: unescape t
  | '\\' :: 'n' :: t => '\n' :: unescape t
  | '\\' :: 't' :: t => '\t' :: unescape t
  | '\\' :: 'r' :: t => '\r' :: unescape t
  | c :: t => c :: unescape t
  | [] => []

theorem esc_cons (c : Char) (t : Text) : esc (c :: t) = esc [c] ++ esc t := by
  simp [esc, rep]

theorem unescape_esc_cons (c : Char) (t : Text) :
    unescape (esc [c] ++ t) = c :: unescape t ∧ ∀ ch ∈ esc [c], ch ≠ '\t' ∧ ch ≠ '\n' := by
  by_cases h₁ : c = '\\'
  · subst h₁
    exact ⟨rfl, by simp [esc, rep]⟩
  by_cases h₂ : c = '\n'
  · subst h₂
    exact ⟨rfl, by simp [esc, rep]⟩
  by_cases h₃ : c = '\t'
  · subst h₃
    exact ⟨rfl, by simp [esc, rep]⟩
  by_cases h₄ : c = '\r'
  · subst h₄
    exact ⟨rfl, by simp [esc, rep]⟩
  · have hself : esc [c] = [c] := by simp [esc, rep, h₁, h₂, h₃, h₄]
    rw [hself, singleton_append]
    exact ⟨by rw [unescape] <;> simp [h₁], by simp [h₂, h₃]⟩

theorem unescape_esc (t : Text) : unescape (esc t) = t := by
  induction t with
  | nil => rfl
  | cons c t ih => rw [esc_cons, (unescape_esc_cons c _).1, ih]

theorem of_mem_esc {t : Text} (h : c ∈ esc t) : c ≠ '\t' ∧ c ≠ '\n' := by
  induction t with
  | nil => cases h
  | cons a t ih =>
    rw [esc_cons, mem_append] at h
    exact h.elim ((unescape_esc_cons a []).2 c) ih

/-! ## Lines -/

/-- The value of a member as it is meant, without the bytes 1 and 2. -/
def meant : Json.Value → Text
  | .str s => name s
  | .num n => n.1
  | .word w => w.text
  | _ => []

/-- A line of the output says a member: its name, a type and its value. -/
def Says (anykey : Bool) (m : Json.Member Json.Value) (l : Text) : Prop :=
  (isKey anykey (name m.key) ∧ (name m.key).length ≤ 32) ∧
    ∃ type field, l.splitOn '\t' = [name m.key, [type], field] ∧ unescape field = meant m.value

theorem value_of_scalarOf {v : Json.Value} {y : Scalar} (h : scalarOf v = some y) :
    y.value = meant v ∧ y.type ≠ '\t' ∧ y.type ≠ '\n' := by
  cases v with
  | str s =>
    rw [scalarOf] at h
    split at h
    · cases h
    · next v hv =>
      split at h <;> cases h
      exact ⟨name_of_withMarks hv, by simp, by simp⟩
  | num n =>
    rw [scalarOf] at h
    split at h <;> cases h
    exact ⟨rfl, by simp, by simp⟩
  | word w =>
    cases h
    refine ⟨rfl, ?_⟩
    cases w <;> decide
  | arr | obj => cases h

theorem says_line {m : Json.Member Json.Value} {x : Text × Text}
    (h : entry anykey seen m = some x) : ∃ l, x.2 = l ++ ['\n'] ∧ '\n' ∉ l ∧ Says anykey m l := by
  have hkey := ((entry_isSome anykey seen m).1 (by rw [h]; rfl)).1.named
  obtain ⟨y, hy, rfl⟩ := exists_of_entry h
  obtain ⟨hvalue, htab, hline⟩ := value_of_scalarOf hy
  have hname : ∀ ch : Char, ch.toNat < 48 → ch ∉ name m.key := fun ch hch hm => by
    have := le_of_isKey hkey.1 hm
    omega
  have hesc : ∀ {ch}, ch ∈ esc y.value → ch ≠ '\t' ∧ ch ≠ '\n' := of_mem_esc
  refine ⟨['\t'].intercalate [name m.key, [y.type], esc y.value],
    by simp [line, intercalate], ?_, hkey, y.type,
    esc y.value, splitOn_intercalate '\t' ?_ (cons_ne_nil _ _), hvalue ▸ unescape_esc _⟩
  · have := hname '\n' (by decide)
    simp [intercalate]
    grind
  · have := hname '\t' (by decide)
    simp
    grind

theorem says_lines {ms : List (Json.Member Json.Value)} {xs : List (Text × Text)}
    (h : entries anykey seen ms = some xs) :
    ∃ ls, linesOf xs = ['\n'].intercalate (ls ++ [[]]) ∧ (∀ l ∈ ls, '\n' ∉ l) ∧
      Forall₂ (Says anykey) ms ls := by
  induction ms generalizing seen xs with
  | nil =>
    cases h
    exact ⟨[], rfl, by simp, .nil⟩
  | cons m ms ih =>
    rw [entries] at h
    split at h
    · cases h
    · next x hx =>
      obtain ⟨xs, hxs, rfl⟩ := Option.map_eq_some_iff.1 h
      obtain ⟨l, hl, hn, hsays⟩ := says_line hx
      obtain ⟨ls, hls, hns, hall⟩ := ih hxs
      refine ⟨l :: ls, ?_, forall_mem_cons.2 ⟨hn, hns⟩, .cons hsays hall⟩
      rw [linesOf, flatMap_cons, hl, ← linesOf, hls]
      cases ls <;> simp [intercalate]

/-- **One line for each member**, whatever the strings in the object are: what is read is an object,
its names are keys and differ, and each member has a line of its own, of three fields. -/
theorem one_line_each {input out : Text} (h : run anykey input = ⟨out, 0⟩) :
    ∃ d : Json.Document, slurp input = d.text ∧ (d.members.map fun m => name m.key).Nodup ∧
      ∃ ls, out.splitOn '\n' = ls ++ [[]] ∧ Forall₂ (Says anykey) d.members ls := by
  rw [run] at h
  split at h
  · cases h
  · next hflat =>
    cases h
    obtain ⟨d, hd⟩ := exists_of_flat hflat
    rw [hd, flat_text] at hflat
    obtain ⟨xs, hxs, rfl⟩ := Option.map_eq_some_iff.1 hflat
    have hok := (entries_isSome anykey [] d.members).1 (by rw [hxs]; rfl)
    obtain ⟨ls, hls, hns, hall⟩ := says_lines hxs
    refine ⟨d, hd, hok.2.1, ls, ?_, hall⟩
    rw [hls]
    exact splitOn_intercalate '\n' (by simpa [or_imp, forall_and] using hns) (by simp)

/-- A tab and a newline in a value. -/
theorem one_line_each_blanks :
    ∃ d : Json.Document, slurp (Sample.object [Sample.letterA] [.short .t, .short .n]).text =
      d.text ∧ (d.members.map fun m => name m.key).Nodup ∧
        ∃ ls, "a\ts\t\\t\\n\n".toList.splitOn '\n' = ls ++ [[]] ∧
          Forall₂ (Says false) d.members ls :=
  one_line_each (by decide +kernel)

end Mu300.FlatJson
