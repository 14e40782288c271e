import Mathlib.Data.List.Sort
import Mu300.Lib.Digits
import Mu300.Lock.Bands

/-!
# Automatic NR bands

The two read-backs of `AT+SPLBAND=3` in `lock` of `unisoc-modem`: a reset takes an answer for
automatic when it has no band, or those of the supported list that the masks can carry; the replay
of a saved empty list, when it has no band, or all of the supported list.
-/

namespace Mu300.Lock

open Shell Bitmask List Char

/-! ## Lists as texts -/

/-- Numbers with commas between them. -/
def listed (ns : List ℕ) : Text := [','].intercalate (ns.map (Nat.toDigits 10))

/-- A line comes to its place by the number, if none with that number is there. -/
def insertLine {α : Type} (key : α → ℕ) (w : α) : List α → List α
  | [] => [w]
  | x :: xs => if key w < key x then w :: x :: xs
    else if key w = key x then x :: xs else x :: insertLine key w xs

/-- `sort -n -u`. -/
def sortLines {α : Type} (key : α → ℕ) (ws : List α) : List α :=
  ws.foldl (fun acc w => insertLine key w acc) []

def canonicalBands (v : Text) : Text :=
  [','].intercalate (sortLines number ((v.splitOn ',').filter fun w => w ≠ [] && w.all isDigit))

/-! ## The verifiers -/

def blank (ch : Char) : Bool := ch = ' ' || ch = '\t'

/-- `$i + 0`. -/
def fieldNumber (w : Text) : ℕ := number ((w.dropWhile blank).takeWhile isDigit)

/-- The three masks of an answer, without the modem's own field. -/
def nrAnswer : List Text → Option (List ℕ)
  | [a, _, b] => some [fieldNumber a, fieldNumber b, 0]
  | a :: _ :: b :: s :: _ => some [fieldNumber a, fieldNumber b, fieldNumber s]
  | _ => none

def bandsText (ms : List ℕ) : Text := canonicalBands (listed (nrBands ms))

/-- `verify_automatic`, the NR bands: blanks are removed, and there are three or four numbers. -/
def automaticNr (sup raw : Text) : Bool :=
  let fs := (raw.filter (!blank ·)).splitOn ','
  (fs.length = 3 || fs.length = 4) && fs.all (fun f => f ≠ [] && f.all isDigit) &&
    match nrAnswer fs with
    | some nr3 => bandsText nr3 = [] || bandsText nr3 = bandsText (nrMasks sup)
    | none => false

/-- `verify_replay`, the NR bands: for a saved list. -/
def replayNr (sup val raw : Text) : Bool :=
  let want := bandsText (nrMasks (filterBands val sup))
  match nrAnswer (raw.splitOn ',') with
  | some nr3 => bandsText nr3 = want || want = [] && bandsText nr3 = canonicalBands sup
  | none => false

/-- No blank stands in or behind a number that awk would read to its end. -/
def Spaced (raw : Text) : Prop :=
  ∀ f ∈ raw.splitOn ',', (f.dropWhile blank).takeWhile isDigit = f.filter (!blank ·)

/-! ## Comparing lists -/

section

variable {ns ms : List ℕ} {ch : Char} {n : ℕ}

theorem number_toDigits (n : ℕ) : number (Nat.toDigits 10 n) = n := Digits.value_toDigits n

theorem isDigit_toDigits (h : ch ∈ Nat.toDigits 10 n) : ch.isDigit :=
  Nat.isDigit_of_mem_toDigits (by decide) (by decide) h

theorem splitOn_listed (h : ns ≠ []) : (listed ns).splitOn ',' = ns.map (Nat.toDigits 10) := by
  refine splitOn_intercalate ',' ?_ (by simpa using h)
  intro w hw
  obtain ⟨n, -, rfl⟩ := mem_map.1 hw
  exact fun hcomma => absurd (isDigit_toDigits hcomma) (by decide)

theorem numbers_listed (ns : List ℕ) :
    ((listed ns).splitOn ',').filter (fun w => w ≠ [] && w.all isDigit) =
    ns.map (Nat.toDigits 10) := by
  cases ns with
  | nil => decide
  | cons n ns =>
    rw [splitOn_listed (cons_ne_nil n ns), filter_eq_self]
    intro w hw
    obtain ⟨n, -, rfl⟩ := mem_map.1 hw
    simpa using fun ch => isDigit_toDigits

theorem listed_inj : listed ns = listed ms ↔ ns = ms := by
  refine ⟨fun h => ?_, fun h => h ▸ rfl⟩
  have hmap := numbers_listed ns
  rw [h, numbers_listed] at hmap
  refine (map_injective_iff.2 ?_ hmap).symm
  exact fun a b hab => by rw [← number_toDigits a, hab, number_toDigits]

theorem insertLine_map (n : ℕ) (ns : List ℕ) :
    insertLine number (Nat.toDigits 10 n) (ns.map (Nat.toDigits 10)) =
    (insertLine id n ns).map (Nat.toDigits 10) := by
  induction ns with
  | nil => rfl
  | cons m ns ih =>
    simp only [map_cons, insertLine, number_toDigits, id, ih]
    split_ifs <;> simp

theorem mem_insertLine {m : ℕ} : m ∈ insertLine id n ns ↔ m = n ∨ m ∈ ns := by
  induction ns with
  | nil => simp [insertLine]
  | cons x ns ih => grind [insertLine]

theorem pairwise_insertLine (h : ns.Pairwise (· < ·)) : (insertLine id n ns).Pairwise (· < ·) := by
  induction ns with
  | nil => simp [insertLine]
  | cons x ns ih =>
    obtain ⟨hx, hns⟩ := pairwise_cons.1 h
    rw [insertLine]
    split_ifs with hlt heq
    · exact pairwise_cons.2 ⟨forall_mem_cons.2 ⟨hlt, fun m hm => Nat.lt_trans hlt (hx m hm)⟩, h⟩
    · exact h
    · refine pairwise_cons.2 ⟨fun m hm => ?_, ih hns⟩
      simp only [id] at hlt heq
      rcases mem_insertLine.1 hm with rfl | hm
      · omega
      · exact hx m hm

theorem canonicalBands_listed (ns : List ℕ) :
    ∃ ms : List ℕ, canonicalBands (listed ns) = listed ms ∧
    ms.Pairwise (· < ·) ∧ ∀ b, b ∈ ms ↔ b ∈ ns := by
  have hrun : ∀ (ns acc : List ℕ), acc.Pairwise (· < ·) → ∃ ms : List ℕ,
      (ns.map (Nat.toDigits 10)).foldl (fun acc w => insertLine number w acc)
        (acc.map (Nat.toDigits 10)) =
        ms.map (Nat.toDigits 10) ∧ ms.Pairwise (· < ·) ∧ ∀ b, b ∈ ms ↔ b ∈ acc ∨ b ∈ ns := by
    intro ns
    induction ns with
    | nil => exact fun acc hacc => ⟨acc, rfl, hacc, by simp⟩
    | cons n ns ih =>
      intro acc hacc
      obtain ⟨ms, hms, hsorted, hmem⟩ := ih (insertLine id n acc) (pairwise_insertLine hacc)
      refine ⟨ms, ?_, hsorted, fun b => ?_⟩
      · rw [map_cons, foldl_cons, insertLine_map, hms]
      · rw [hmem, mem_insertLine, mem_cons]
        tauto
  obtain ⟨ms, hms, hsorted, hmem⟩ := hrun ns [] List.Pairwise.nil
  refine ⟨ms, ?_, hsorted, by simpa using hmem⟩
  rw [canonicalBands, numbers_listed, sortLines]
  exact congrArg _ hms

theorem canonicalBands_eq_iff :
    canonicalBands (listed ns) = canonicalBands (listed ms) ↔ ∀ b, b ∈ ns ↔ b ∈ ms := by
  obtain ⟨ns', hns, hsorted, hmem⟩ := canonicalBands_listed ns
  obtain ⟨ms', hms, hsorted', hmem'⟩ := canonicalBands_listed ms
  rw [hns, hms, listed_inj]
  simp only [← hmem, ← hmem']
  exact ⟨fun h b => by rw [h], fun h => hsorted.eq_of_mem_iff hsorted' h⟩

theorem canonicalBands_eq_nil_iff : canonicalBands (listed ns) = [] ↔ ns = [] := by
  have hnil : canonicalBands (listed []) = [] := by decide
  rw [← hnil, canonicalBands_eq_iff, eq_nil_iff_forall_not_mem]
  simp

/-! ## What is carried -/

/-- The masks carry the list: all its bands, and none of them twice but for what is carried over the
end of a mask. -/
def Carried (ns : List ℕ) : Prop :=
  (∀ b ∈ ns, ∃ t ∈ nrTables, b ∈ t) ∧ ∀ t ∈ nrTables, mask t (again ns) ≡ 0 [MOD 2 ^ t.length]

def Uncarried (ns : List ℕ) : Prop := ∀ t ∈ nrTables, mask t ns ≡ 0 [MOD 2 ^ t.length]

theorem nrBands_nrMasks (ns : List ℕ) :
    nrBands (nrMasks (listed ns)) = ((tables .nr).map fun t => unmask t (mask t ns)).flatten := by
  have hfields : fieldNumbers (listed ns) = ns.filter (0 < ·) := by
    cases ns with
    | nil => decide
    | cons n ns =>
      have hid : number ∘ Nat.toDigits 10 = id := funext number_toDigits
      rw [fieldNumbers, splitOn_listed (cons_ne_nil n ns), map_map, hid, map_id]
  have hmasks : nrMasks (listed ns) = nrTables.map fun t => mask t ns := by
    refine map_congr_left fun t ht => ?_
    rw [hfields]
    exact mask_filter_pos (fun b hb => pos_of_mem_tables (r := .nr) ht hb) _
  rw [nrBands, hmasks, zipWith_map_right, zipWith_self]
  rfl

theorem nodup_nrTable {t : List ℕ} (ht : t ∈ nrTables) : t.Nodup :=
  (nodup_flatten.1 (flatten_tables_nodup .nr)).1 t ht

theorem carried_iff : Carried ns ↔ ∀ b, b ∈ nrBands (nrMasks (listed ns)) ↔ b ∈ ns := by
  have htables := exact_iff_tables .nr (· ∈ ns) fun t => mask t ns
  have hagain : (∀ t ∈ tables .nr, ∀ b, b ∈ unmask t (mask t ns) ↔ b ∈ t ∧ b ∈ ns) ↔
      ∀ t ∈ nrTables, mask t (again ns) ≡ 0 [MOD 2 ^ t.length] := by
    refine forall₂_congr fun t ht => ?_
    have hbits := forall_mem_unmask_iff (P := (decide <| · ∈ ns)) (nodup_nrTable ht)
      (m := mask t ns)
    simp only [decide_eq_true_eq] at hbits
    rw [hbits, mask_eq_flags_add]
    exact Nat.ModEq.add_iff_left (a := flags t (· ∈ ns)) (b := flags t (· ∈ ns)) (d := 0) rfl
  rw [nrBands_nrMasks, Carried, ← hagain, ← htables]
  constructor
  · rintro ⟨hin, h⟩ b
    exact (h b).trans (and_iff_right_of_imp (hin b))
  · intro h
    have hin : ∀ b ∈ ns, ∃ t ∈ tables .nr, b ∈ t := by
      intro b hb
      obtain ⟨l, hl, hbl⟩ := mem_flatten.1 ((h b).2 hb)
      obtain ⟨t, ht, rfl⟩ := mem_map.1 hl
      obtain ⟨i, hi, -⟩ := mem_unmask.1 hbl
      exact ⟨t, ht, mem_of_getElem? hi⟩
    exact ⟨hin, fun b => by rw [h b, and_iff_right_of_imp (hin b)]⟩

theorem uncarried_iff : Uncarried ns ↔ nrBands (nrMasks (listed ns)) = [] := by
  have htables := exact_iff_tables .nr (fun _ => False) fun t => mask t ns
  rw [nrBands_nrMasks, eq_nil_iff_forall_not_mem]
  simp only [and_false, iff_false] at htables
  rw [htables]
  refine forall₂_congr fun t ht => ?_
  have hbits := forall_mem_unmask_iff (P := fun _ => false) (nodup_nrTable ht) (m := mask t ns)
  rw [flags_eq_zero fun _ _ => rfl] at hbits
  simpa [Nat.ModEq] using hbits.symm

/-! ## Answers -/

theorem splitOn_filter_blank (raw : Text) :
    (raw.filter (!blank ·)).splitOn ',' = (raw.splitOn ',').map (·.filter (!blank ·)) := by
  have hfilter : ∀ fs : List Text, ([','].intercalate fs).filter (!blank ·) =
      [','].intercalate (fs.map (·.filter (!blank ·))) := by
    intro fs
    induction fs with
    | nil => rfl
    | cons f fs ih =>
      cases fs with
      | nil => simp
      | cons g fs =>
        rw [intercalate_cons_cons, filter_append, filter_append, ih]
        simp [blank]
  have hsplit := hfilter (raw.splitOn ',')
  rw [intercalate_splitOn] at hsplit
  rw [hsplit]
  refine splitOn_intercalate ',' ?_ (by simp)
  intro w hw hcomma
  obtain ⟨f, hf, rfl⟩ := mem_map.1 hw
  exact (of_mem_splitOn hf).1 (mem_of_mem_filter hcomma)

theorem not_blank (h : ch.isDigit) : blank ch = false := by
  by_contra hb
  simp only [blank, Bool.or_eq_true, decide_eq_true_eq, Bool.not_eq_false] at hb
  rcases hb with rfl | rfl <;> exact absurd h (by decide)

theorem digits_read {f : Text} (h : ∀ ch ∈ f, ch.isDigit) :
    (f.dropWhile blank).takeWhile isDigit = f := by
  rw [dropWhile_eq_self_iff.2 fun hpos => by simpa using not_blank (h _ (getElem_mem hpos)),
    takeWhile_eq_self_iff.2 h]

theorem nrAnswer_spaced {raw : Text} (h : Spaced raw)
    (hdigits : ∀ f ∈ (raw.filter (!blank ·)).splitOn ',', ∀ ch ∈ f, ch.isDigit) :
    nrAnswer ((raw.filter (!blank ·)).splitOn ',') = nrAnswer (raw.splitOn ',') := by
  rw [splitOn_filter_blank] at hdigits
  have hnumber : ∀ f ∈ raw.splitOn ',', fieldNumber (f.filter (!blank ·)) = fieldNumber f := by
    intro f hf
    rw [fieldNumber, fieldNumber, h f hf, digits_read (hdigits _ (mem_map_of_mem hf))]
  rw [splitOn_filter_blank]
  generalize raw.splitOn ',' = fs at hnumber
  rcases fs with _ | ⟨a, _ | ⟨b, _ | ⟨c, _ | ⟨d, fs⟩⟩⟩⟩
  · rfl
  · rfl
  · rfl
  · simp_all [nrAnswer]
  · simp_all [nrAnswer]

theorem listed_spaced (h : ns ≠ []) :
    Spaced (listed ns) ∧ ((listed ns).filter (!blank ·)).splitOn ',' =
      ns.map (Nat.toDigits 10) := by
  have hstrip : ∀ n : ℕ, (Nat.toDigits 10 n).filter (!blank ·) = Nat.toDigits 10 n := fun n =>
    filter_eq_self.2 fun ch hch => by simp [not_blank (isDigit_toDigits hch)]
  constructor
  · intro f hf
    rw [splitOn_listed h] at hf
    obtain ⟨n, -, rfl⟩ := mem_map.1 hf
    rw [hstrip, digits_read fun _ => isDigit_toDigits]
  · rw [splitOn_filter_blank, splitOn_listed h, map_map]
    exact map_congr_left fun n _ => hstrip n

theorem replayNr_nil_iff (sup raw : Text) : replayNr sup [] raw ↔
    ∃ nr3, nrAnswer (raw.splitOn ',') = some nr3 ∧
      (bandsText nr3 = [] ∨ bandsText nr3 = canonicalBands sup) := by
  have hwant : bandsText (nrMasks (filterBands [] sup)) = [] := by
    have hnil : filterBands [] sup = [] := by simp [filterBands, kept, words]
    rw [hnil]
    decide
  rw [replayNr, hwant]
  cases nrAnswer (raw.splitOn ',') <;> simp

/-- **A saved empty list verifies** in every answer that a reset takes for automatic, exactly when
the masks carry all of the supported list, or nothing of it: the replay compares with the list
itself and not with what the masks carry of it. -/
theorem automatic_replays_iff (ns : List ℕ) :
    (∀ raw, Spaced raw → automaticNr (listed ns) raw → replayNr (listed ns) [] raw) ↔ Carried ns ∨
    Uncarried ns := by
  have hfull : bandsText (nrMasks (listed ns)) = canonicalBands (listed ns) ↔ Carried ns := by
    rw [bandsText, canonicalBands_eq_iff, carried_iff]
  have hnone : bandsText (nrMasks (listed ns)) = [] ↔ Uncarried ns := by
    rw [bandsText, canonicalBands_eq_nil_iff, uncarried_iff]
  rw [← hfull, ← hnone]
  constructor
  · intro h
    -- the supported list is answered as the masks carry it
    obtain ⟨a, b, s, hmasks⟩ : ∃ a b s, nrMasks (listed ns) = [a, b, s] := ⟨_, _, _, rfl⟩
    obtain ⟨hspaced, hfields⟩ := listed_spaced (cons_ne_nil a [0, b, s])
    have hanswer : nrAnswer ([a, 0, b, s].map (Nat.toDigits 10)) = some [a, b, s] := by
      simp [nrAnswer, fieldNumber, digits_read fun _ => isDigit_toDigits, number_toDigits]
    have hauto : automaticNr (listed ns) (listed [a, 0, b, s]) := by
      rw [automaticNr, hfields, hanswer, hmasks]
      simpa using ⟨fun _ => isDigit_toDigits, fun _ => isDigit_toDigits, fun _ => isDigit_toDigits⟩
    obtain ⟨nr3, hnr3, hor⟩ := (replayNr_nil_iff _ _).1 (h _ hspaced hauto)
    rw [splitOn_listed (cons_ne_nil _ _), hanswer] at hnr3
    cases hnr3
    rw [hmasks]
    exact hor.symm
  · intro h raw hspaced hauto
    simp only [automaticNr, Bool.and_eq_true, all_eq_true, decide_eq_true_eq] at hauto
    obtain ⟨⟨-, hdigits⟩, hbands⟩ := hauto
    rw [nrAnswer_spaced hspaced fun f hf => by simpa using (hdigits f hf).2] at hbands
    rw [replayNr_nil_iff]
    cases hanswer : nrAnswer (raw.splitOn ',') with
    | none => simp [hanswer] at hbands
    | some nr3 =>
      refine ⟨nr3, rfl, ?_⟩
      simp only [hanswer, Bool.or_eq_true, decide_eq_true_eq] at hbands
      rcases hbands with hnil | hsup
      · exact .inl hnil
      · rw [hsup]
        exact h.symm

end

/-- A board with n6: the masks do not carry it, and what a reset takes for automatic is refused at
the next boot. -/
theorem automatic_refused :
    Spaced "553,0,272" ∧ automaticNr (listed [1, 5, 6, 8, 28, 41, 78]) "553,0,272" ∧
      ¬ replayNr (listed [1, 5, 6, 8, 28, 41, 78]) [] "553,0,272" := by
  refine ⟨?_, by decide +kernel, by decide +kernel⟩
  exact (listed_spaced (cons_ne_nil 553 [0, 272])).1

end Mu300.Lock
