import Mu300.Traffic.Bytes
import Mathlib.Data.List.Chain

/-!
# Every byte counts once

Over every sequence of readings, the ledger holds what the interface has carried since the
first of them: bytes wait, are dated, are split at midnights and merged, and none is lost or
counted twice. What was given up on purpose is not in it: days are kept for 800 days.
-/

namespace Mu300.Traffic

open Shell List

/-! ## What the interface carried -/

/-- What a reading shows of the counters: the boot they are of, and their values. -/
def Reading.seen (r : Reading) : Option (Word × Counters) :=
  match r.boot, r.counters with
  | some boot, some cs => some (boot, cs)
  | _, _ => none

/-- The counters of one life: no new boot, no new interface. -/
def SameLife (p q : Word × Counters) : Prop := p.1 = q.1 ∧ p.2.idx = q.2.idx

instance (p q : Word × Counters) : Decidable (SameLife p q) := inferInstanceAs (Decidable (_ ∧ _))

/-- Counters only grow in their life. -/
def Grows (p q : Word × Counters) : Prop := SameLife p q → p.2.rx ≤ q.2.rx ∧ p.2.tx ≤ q.2.tx

instance (p q : Word × Counters) : Decidable (Grows p q) :=
  inferInstanceAs (Decidable (SameLife p q → _))

def Counters.bytes (w : Way) (cs : Counters) : ℤ := w.of (cs.rx : ℤ) cs.tx

/-- The last readings of all lives, from the one of `p` on, added up. -/
def lives (w : Way) (p : Word × Counters) : List (Word × Counters) → ℤ
  | [] => p.2.bytes w
  | q :: qs => (if SameLife p q then 0 else p.2.bytes w) + lives w q qs

/-- What was carried since the first reading. -/
def carried (w : Way) : List (Word × Counters) → ℤ
  | [] => 0
  | p :: qs => lives w p qs - p.2.bytes w

/-- What one more reading shows to have been carried since the one before. -/
def carriedSince (w : Way) (last : Option (Word × Counters)) (q : Word × Counters) : ℤ :=
  match last with
  | none => 0
  | some p => if SameLife p q then q.2.bytes w - p.2.bytes w else q.2.bytes w

theorem lives_append (w : Way) (p : Word × Counters) (qs : List (Word × Counters))
    (q : Word × Counters) :
    lives w p (qs ++ [q]) = lives w p qs + carriedSince w ((p :: qs).getLast?) q := by
  induction qs generalizing p with
  | nil =>
    simp only [lives, nil_append, carriedSince, getLast?_singleton]
    split
    · ring
    · ring
  | cons q' qs ih =>
    rw [cons_append, lives, lives, ih, getLast?_cons_cons]
    ring

theorem carried_append (w : Way) (qs : List (Word × Counters)) (q : Word × Counters) :
    carried w (qs ++ [q]) = carried w qs + carriedSince w qs.getLast? q := by
  cases qs with
  | nil => simp [carried, lives, carriedSince]
  | cons p qs =>
    rw [cons_append, carried, carried, lives_append]
    ring

/-! ## The days on record -/

/-- A local day from the instant `lo` on. -/
def DayFrom (lo : ℤ) (k : Text) : Prop :=
  ∃ off t, Dated (t + off) ∧ lo ≤ t + off ∧ k = civil off t

/-- What holds of a ledger whose readings began at `lo`. -/
structure Kept (lo : ℤ) (l : Ledger) : Prop where
  days : ∀ e ∈ l.days, DayFrom lo e.key
  pend : ∀ p ∈ l.pend, 0 ≤ p.up ∧ 0 ≤ p.rx ∧ 0 ≤ p.tx
  base : ∀ b, l.base = some b → 0 ≤ b.up

theorem mem_insertDay {e e' : Day} {es : List Day} (h : e' ∈ insertDay e es) :
    e' = e ∨ e' ∈ es := by
  simp only [insertDay, mem_append, mem_reverse, mem_cons] at h
  rcases h with h | rfl | h
  · exact .inr (mem_reverse.1 ((dropWhile_sublist _).mem h))
  · exact .inl rfl
  · exact .inr (mem_reverse.1 ((takeWhile_sublist _).mem h))

theorem forall_addday {P : Text → Prop} {es : List Day} {k : Text} (hes : ∀ e ∈ es, P e.key)
    (hk : P k) (rx tx : ℤ) : ∀ e ∈ addday es k rx tx, P e.key := by
  intro e he
  rw [addday] at he
  cases hb : bumpDay k rx tx es with
  | none =>
    rw [hb] at he
    rcases mem_insertDay he with rfl | he
    · exact hk
    · exact hes e he
  | some es' =>
    rw [hb] at he
    obtain ⟨done, d, rest, rfl, rfl⟩ := bumpDay_eq_some hb
    rw [forall_mem_append, forall_mem_cons] at hes
    rcases mem_append.1 he with he | he
    · exact hes.1 e he
    · exact (forall_mem_cons (p := fun e => P e.key)).2 hes.2 e he

theorem mem_addpend {ps : List Pend} {boot : Word} {up rx tx : ℤ}
    (h : ∀ p ∈ ps, 0 ≤ p.up ∧ 0 ≤ p.rx ∧ 0 ≤ p.tx) (hup : 0 ≤ up) (hrx : 0 ≤ rx) (htx : 0 ≤ tx) :
    ∀ p ∈ addpend ps boot up rx tx, 0 ≤ p.up ∧ 0 ≤ p.rx ∧ 0 ≤ p.tx := by
  have hnew : ∀ p ∈ ps ++ [(⟨boot, up.tdiv 900 * 900, rx, tx⟩ : Pend)],
      0 ≤ p.up ∧ 0 ≤ p.rx ∧ 0 ≤ p.tx := by
    intro p hp
    rcases mem_append.1 hp with hp | hp
    · exact h p hp
    · rw [mem_singleton.1 hp]
      exact ⟨Int.mul_nonneg (Int.tdiv_nonneg hup (by decide)) (by decide), hrx, htx⟩
  simp only [addpend]
  split
  · next q hq =>
    split
    · intro p hp
      rcases mem_append.1 hp with hp | hp
      · exact h p (dropLast_subset ps hp)
      · obtain ⟨hqup, hqrx, hqtx⟩ := h q (mem_of_getLast? hq)
        rw [mem_singleton.1 hp]
        exact ⟨hqup, Int.add_nonneg hqrx hrx, Int.add_nonneg hqtx htx⟩
    · exact hnew
  · exact hnew

namespace Kept

variable {lo : ℤ} {l : Ledger}

theorem reread (h : Kept lo l) : Kept lo l.reread := by
  refine ⟨?_, h.pend, h.base⟩
  exact foldlRecOn (motive := fun es : List Day => ∀ e ∈ es, DayFrom lo e.key) _ _ nofun
    fun es hes f hf =>
    forall_addday hes (h.days f (mem_of_mem_filter hf)) _ _

theorem dateShape (h : Kept lo l) : ∀ e ∈ l.days, dateShape e.key := by
  intro e he
  obtain ⟨off, t, hd, -, hk⟩ := h.days e he
  exact hk ▸ dateShape_civil hd

theorem foldl_add {off a b : ℤ} {as : List Addition} (h : Kept lo l) (has : DaysWithin off a b as)
    (hlo : lo ≤ a + off) (hdated : ∀ t, a ≤ t → t ≤ b → Dated (t + off)) :
    Kept lo (as.foldl Ledger.add l) := by
  refine foldlRecOn (motive := Kept lo) as _ h fun l hl x hx => ?_
  obtain ⟨t, rx, tx, rfl, hat, htb, -⟩ := has x hx
  exact ⟨forall_addday hl.days ⟨off, t, hdated t hat htb, by omega, rfl⟩ _ _, hl.pend, hl.base⟩

end Kept

/-! ## One reading -/

/-- The reading's local time is within 800 days of `lo`, and with a right clock the boot it is
of began after it. -/
def Covered (lo : ℤ) (r : Reading) : Prop :=
  r.clock.now + r.clock.off < lo + 800 * 86400 ∧ (r.trusted → lo ≤ r.clock.now - r.up + r.clock.off)

instance (lo : ℤ) (r : Reading) : Decidable (Covered lo r) := inferInstanceAs (Decidable (_ ∧ _))

/-- All that a reading adds to days and to the pending bytes. -/
def additions (l : Ledger) (r : Reading) : List Addition :=
  sampleAdditions l.reread r ++ if r.trusted then (sample l.reread r).pend.flatMap
    (dateAdditions r) else []

section OneReading

variable {lo : ℤ} {l : Ledger} {r : Reading} {w : Way}

theorem Covered.dated (h : Covered lo r) (ht : r.trusted) :
    ∀ t, r.clock.now - r.up ≤ t → t ≤ r.clock.now → Dated (t + r.clock.off) := by
  intro t hlow hhigh
  have hlo := h.2 ht
  have hwin := h.1
  have hoff := r.clock.off_bounds
  have hnow := r.clock.now_le
  have hpos := r.clock.now_nonneg
  refine ⟨?_, ?_⟩
  · omega
  · omega

theorem delta_bounds {b : Base} {boot : Word} {cs : Counters} {up : ℤ} (hb : 0 ≤ b.up)
    (hup : 0 ≤ up) :
    0 ≤ (delta b boot cs up).rx ∧ 0 ≤ (delta b boot cs up).tx ∧ 0 ≤ (delta b boot cs up).span ∧
      (delta b boot cs up).span ≤ up := by
  simp only [delta]
  all_goals split_ifs <;> simp only [] at * <;> omega

theorem newBytes_bounds (h : Kept lo l) (r : Reading) :
    0 ≤ (newBytes l r).rx ∧ 0 ≤ (newBytes l r).tx ∧ 0 ≤ (newBytes l r).span ∧
      (newBytes l r).span ≤ r.up := by
  simp only [newBytes]
  split
  · next boot cs b _ _ hb =>
    split
    · exact delta_bounds (h.base b hb) (by omega)
    · simp
  · simp

theorem sum_sampleAdditions (h : Kept lo l) (r : Reading) :
    ((sampleAdditions l r).map (Addition.bytes w)).sum =
      w.of (newBytes l r).rx (newBytes l r).tx := by
  obtain ⟨hrx, htx, -⟩ := newBytes_bounds h r
  cases hboot : r.boot with
  | none =>
    have hzero : newBytes l r = ⟨0, 0, 0⟩ := by simp [newBytes, hboot]
    simp only [sampleAdditions, hboot, hzero]
    cases w with
    | rx | tx => rfl
  | some boot =>
    simp only [sampleAdditions, hboot]
    split
    · next hsum =>
      -- two amounts that are not negative and make nothing are nothing
      have hrx0 : (newBytes l r).rx = 0 := by omega
      have htx0 : (newBytes l r).tx = 0 := by omega
      rw [hrx0, htx0]
      cases w with
      | rx | tx => rfl
    · split
      · exact sum_addspan ..
      · simp [Addition.bytes]

theorem daysWithin_sampleAdditions (h : Kept lo l) (ht : r.trusted) :
    DaysWithin r.clock.off (r.clock.now - r.up) r.clock.now (sampleAdditions l r) := by
  obtain ⟨hrx, htx, hspan, hspan'⟩ := newBytes_bounds h r
  simp only [sampleAdditions]
  split
  · split
    · rintro a ⟨⟩
    · exact (daysWithin_addspan (by omega) hrx htx).mono (by omega) le_rfl
  · rintro a ⟨⟩

theorem sampleAdditions_untrusted (h : Kept lo l) (ht : ¬ r.trusted) :
    ∀ a ∈ sampleAdditions l r, ∃ boot rx tx, a = .pend boot r.up rx tx ∧ 0 ≤ rx ∧ 0 ≤ tx := by
  obtain ⟨hrx, htx, -⟩ := newBytes_bounds h r
  simp only [sampleAdditions]
  split
  · next boot _ =>
    split
    · rintro a ⟨⟩
    · intro a ha
      exact ⟨boot, _, _, mem_singleton.1 ha, hrx, htx⟩
  · rintro a ⟨⟩

theorem Kept.pend_foldl_add {as : List Addition} (h : Kept lo l)
    (has : ∀ a ∈ as, ∃ boot rx tx, a = .pend boot r.up rx tx ∧ 0 ≤ rx ∧ 0 ≤ tx) :
    Kept lo (as.foldl Ledger.add l) := by
  refine foldlRecOn (motive := Kept lo) as _ h fun l hl a ha => ?_
  obtain ⟨boot, rx, tx, rfl, hrx, htx⟩ := has a ha
  exact ⟨hl.days, mem_addpend hl.pend (by omega) hrx htx, hl.base⟩

theorem Kept.sample (h : Kept lo l) (hc : Covered lo r) : Kept lo (sample l r) := by
  have hfold : Kept lo ((sampleAdditions l r).foldl .add l) := by
    by_cases ht : r.trusted
    · exact h.foldl_add (daysWithin_sampleAdditions h ht) (hc.2 ht) (hc.dated ht)
    · exact h.pend_foldl_add (sampleAdditions_untrusted h ht)
  simp only [Traffic.sample]
  split
  · refine ⟨hfold.days, hfold.pend, ?_⟩
    rintro b ⟨⟩
    simp [Reading.base]
  · exact hfold

theorem total_sample (h : Kept lo l) (r : Reading) :
    (sample l r).total w = l.total w + w.of (newBytes l r).rx (newBytes l r).tx := by
  rw [← sum_sampleAdditions h, ← total_foldl_add]
  simp only [sample]
  split <;> rfl

section

variable (h : Kept lo l) (hc : Covered lo r)

include h hc

theorem Kept.datepend (ht : r.trusted) : Kept lo (datepend l r) := by
  have hfold := h.foldl_add (daysWithin_flatMap h.pend) (hc.2 ht) (hc.dated ht)
  exact ⟨hfold.days, nofun, hfold.base⟩

/-- **A reading keeps the ledger in order.** -/
theorem Kept.count : Kept lo (l.count r) := by
  have hs := h.reread.sample hc
  simp only [Ledger.count]
  by_cases ht : r.trusted
  · have hd := hs.datepend hc ht
    rw [if_pos ht]
    split
    · exact ⟨hd.days, hd.pend, hd.base⟩
    · exact hd
  · rw [if_neg ht, if_neg fun hs => ht hs.1]
    exact hs

/-- **A reading adds its bytes**, wherever they go. -/
theorem total_count : (l.count r).total w =
      l.total w + w.of (newBytes l.reread r).rx (newBytes l.reread r).tx := by
  have hs := h.reread.sample hc
  have htotal : (sample l.reread r).total w =
      l.total w + w.of (newBytes l.reread r).rx (newBytes l.reread r).tx := by
    rw [total_sample h.reread, total_reread h.dateShape]
  simp only [Ledger.count]
  by_cases ht : r.trusted
  · have hd := total_datepend (w := w) (r := r) hs.pend
    rw [if_pos ht]
    split
    · exact hd.trans htotal
    · exact hd.trans htotal
  · rw [if_neg ht, if_neg fun hs => ht hs.1]
    exact htotal

theorem additions_nonneg : ∀ a ∈ additions l r, 0 ≤ a.bytes w := by
  intro a ha
  rcases mem_append.1 ha with ha | ha
  · by_cases ht : r.trusted
    · exact (daysWithin_sampleAdditions h.reread ht).nonneg ha
    · obtain ⟨boot, rx, tx, rfl, hrx, htx⟩ := sampleAdditions_untrusted h.reread ht a ha
      cases w with
      | rx => exact hrx
      | tx => exact htx
  · split at ha
    · exact (daysWithin_flatMap (h.reread.sample hc).pend).nonneg ha
    · simp at ha

theorem Kept.not_before_old :
    ∀ e ∈ l.days, before e.key (civil r.clock.off (r.clock.now - 800 * 86400)) = false := by
  intro e he
  obtain ⟨off, t, hd, hlo, hk⟩ := h.days e he
  have hwin := hc.1
  have hoff := r.clock.off_bounds
  have hnow := r.clock.now_le
  have hpos := r.clock.now_nonneg
  rw [hk]
  refine not_before_civil ⟨?_, ?_⟩ hd ?_
  · omega
  · omega
  · omega

end

end OneReading

/-! ## Every sequence of readings -/

/-- One run of the program: its settings, what it is for, and the reading. -/
structure Entry where
  settings : Settings
  op : Op
  reading : Reading

/-- The ledger behind a sequence of runs, from none on. -/
def ledgerAfter (es : List Entry) : Ledger :=
  es.foldl (fun l e => (ledgerRun e.settings e.op e.reading l).1) Ledger.empty

/-- What the readings show of the counters. -/
def seen (es : List Entry) : List (Word × Counters) := es.filterMap fun e => e.reading.seen

theorem seen_concat (es : List Entry) (e : Entry) :
    seen (es ++ [e]) = seen es ++ e.reading.seen.toList := by
  cases hs : e.reading.seen with
  | none => simp [seen, hs]
  | some q => simp [seen, hs]

section Runs

variable {lo : ℤ} {l : Ledger} {w : Way}

/-- But for forgetting everything, a run keeps what the reading was counted into: no day on
record is too old. -/
theorem ledgerRun_counted (st : Settings) {op : Op} {r : Reading} (hop : op ≠ .clear)
    (h : Kept lo (l.count r)) (hc : Covered lo r) :
    (ledgerRun st op r l).1.days = (l.count r).days ∧ (ledgerRun st op r l).1.pend =
    (l.count r).pend ∧
        (ledgerRun st op r l).1.base = (l.count r).base := by
  cases op with
  | sample =>
    refine ⟨?_, rfl, rfl⟩
    refine filter_eq_self.2 fun e he => ?_
    simpa using h.not_before_old hc e he
  | used bytes => exact ⟨rfl, rfl, rfl⟩
  | clear => exact absurd rfl hop

theorem base_foldl_add (as : List Addition) (l : Ledger) :
    (as.foldl Ledger.add l).base = l.base := by
  refine foldlRecOn (motive := (Ledger.base · = l.base)) as _ rfl fun l' hl a _ => ?_
  cases a <;> exact hl

theorem base_count (l : Ledger) (r : Reading) : (l.count r).base = match r.seen with
      | some (boot, cs) => some (r.base boot cs)
      | none => l.base := by
  have hsample : (sample l.reread r).base = match r.seen with
      | some (boot, cs) => some (r.base boot cs)
      | none => l.base := by
    rw [sample, Reading.seen]
    cases r.boot with
    | none => exact base_foldl_add ..
    | some boot =>
      cases r.counters with
      | none => exact base_foldl_add ..
      | some cs => rfl
  have hdate : ∀ l' : Ledger, (datepend l' r).base = l'.base := fun l' => base_foldl_add ..
  rw [Ledger.count, ← hsample]
  by_cases ht : r.trusted
  · simp only [ht, if_true]
    split
    · exact hdate _
    · exact hdate _
  · simp [ht]

theorem newBytes_eq {dev : Word} {r : Reading} {boot : Word} {cs : Counters} {b : Base}
    {p : Word × Counters} (hr : r.seen = some (boot, cs)) (hdev : r.dev = dev)
    (hb : l.base = some b)
    (hbase : b.boot = p.1 ∧ b.idx = p.2.idx ∧ b.dev = dev ∧ b.rx = p.2.rx ∧ b.tx = p.2.tx)
    (hgrows : Grows p (boot, cs)) :
    w.of (newBytes l r).rx (newBytes l r).tx = carriedSince w (some p) (boot, cs) := by
  obtain ⟨hboot, hidx, hbdev, hrx, htx⟩ := hbase
  have hseen : r.boot = some boot ∧ r.counters = some cs := by
    simp only [Reading.seen] at hr
    split at hr
    · next hb' hc' =>
      cases hr
      exact ⟨hb', hc'⟩
    · simp at hr
  simp only [newBytes, hseen, hb, hbdev, hdev, if_true, delta, carriedSince, hboot, hidx, hrx, htx]
  by_cases hlife : SameLife p (boot, cs)
  · obtain ⟨hgrx, hgtx⟩ := hgrows hlife
    have hcond : p.1 = boot ∧ p.2.idx = cs.idx := hlife
    rw [if_pos hcond, if_pos hlife]
    simp only [Nat.cast_le, hgrx, hgtx, if_true, Counters.bytes]
    exact Way.of_sub ..
  · have hcond : ¬ (p.1 = boot ∧ p.2.idx = cs.idx) := hlife
    rw [if_neg hcond, if_neg hlife]
    rfl

end Runs

/-- What holds of a ledger behind runs over one interface, and of its bytes. -/
structure Counted (lo : ℤ) (dev : Word) (es : List Entry) (l : Ledger) : Prop where
  kept : Kept lo l
  total : ∀ w, l.total w = carried w (seen es)
  fresh : (seen es).getLast? = none → l.base = none
  base : ∀ p, (seen es).getLast? = some p → ∃ b, l.base = some b ∧ b.boot = p.1 ∧
    b.idx = p.2.idx ∧ b.dev = dev ∧ b.rx = p.2.rx ∧ b.tx = p.2.tx

theorem Counted.step {lo : ℤ} {dev : Word} {es : List Entry} {e : Entry} {l : Ledger}
    (h : Counted lo dev es l) (hop : e.op ≠ .clear) (hdev : e.reading.dev = dev)
    (hgrows : ∀ p ∈ (seen es).getLast?, ∀ q ∈ e.reading.seen, Grows p q)
    (hc : Covered lo e.reading) :
    Counted lo dev (es ++ [e]) (ledgerRun e.settings e.op e.reading l).1 := by
  have hkept := h.kept.count hc
  obtain ⟨hdays, hpend, hbase⟩ := ledgerRun_counted e.settings hop hkept hc
  have hkept' : Kept lo (ledgerRun e.settings e.op e.reading l).1 :=
    ⟨hdays ▸ hkept.days, hpend ▸ hkept.pend, hbase ▸ hkept.base⟩
  have htotal : ∀ w, (ledgerRun e.settings e.op e.reading l).1.total w = carried w (seen es) +
      w.of (newBytes l.reread e.reading).rx (newBytes l.reread e.reading).tx := by
    intro w
    rw [Ledger.total, hdays, hpend, ← h.total w, ← total_count h.kept hc]
    rfl
  rw [base_count] at hbase
  have hseen := seen_concat es e
  cases hs : e.reading.seen with
  | none =>
    -- no counters: no bytes, and the base stays
    have hzero : newBytes l.reread e.reading = ⟨0, 0, 0⟩ := by
      simp only [Reading.seen] at hs
      simp only [newBytes]
      split
      · next hb' hc' _ => simp [hb', hc'] at hs
      · rfl
    rw [hs] at hbase hseen
    rw [Option.toList_none, append_nil] at hseen
    refine ⟨hkept', fun w => ?_, ?_, ?_⟩
    · rw [htotal, hzero, hseen]
      cases w with
      | rx | tx => exact add_zero _
    · rw [hseen, hbase]
      exact h.fresh
    · rw [hseen, hbase]
      exact h.base
  | some q =>
    obtain ⟨boot, cs⟩ := q
    rw [hs] at hbase hseen hgrows
    rw [Option.toList_some] at hseen
    refine ⟨hkept', fun w => ?_, ?_, ?_⟩
    · rw [htotal, hseen, carried_append]
      congr 1
      cases hlast : (seen es).getLast? with
      | none =>
        -- the first reading is only a base
        have hnone : l.reread.base = none := h.fresh hlast
        have hzero : newBytes l.reread e.reading = ⟨0, 0, 0⟩ := by simp [newBytes, hnone]
        rw [hzero]
        cases w with
        | rx | tx => rfl
      | some p =>
        obtain ⟨b, hb, hbp⟩ := h.base p hlast
        exact newBytes_eq (l := l.reread) hs hdev hb hbp
          (hgrows p (by simp [hlast]) (boot, cs) rfl)
    · rw [hseen]
      simp
    · rw [hseen]
      intro p hp
      obtain rfl : (boot, cs) = p := by simpa using hp
      exact ⟨_, hbase, rfl, rfl, hdev, rfl, rfl⟩

theorem counted_ledgerAfter {lo : ℤ} {dev : Word} {es : List Entry}
    (hop : ∀ e ∈ es, e.op ≠ .clear) (hdev : ∀ e ∈ es, e.reading.dev = dev)
    (hgrows : (seen es).IsChain Grows) (hc : ∀ e ∈ es, Covered lo e.reading) {done : List Entry}
    (hdone : done <+: es) : Counted lo dev done (ledgerAfter done) := by
  induction done using reverseRecOn with
  | nil => exact ⟨⟨nofun, nofun, nofun⟩, fun w => by cases w <;> rfl, fun _ => rfl, nofun⟩
  | append_singleton done e ih =>
    have hmem : e ∈ es := hdone.subset (mem_append_right _ mem_cons_self)
    have hchain := hgrows.prefix (hdone.filterMap _)
    rw [← seen, seen_concat, isChain_append] at hchain
    rw [ledgerAfter, foldl_append]
    refine (ih ((prefix_append done [e]).trans hdone)).step (hop e hmem) (hdev e hmem)
      (fun p hp q hq => ?_) (hc e hmem)
    exact hchain.2.2 p hp q (by simpa using hq)

/-- **Every byte counts once.** Over every sequence of readings of one interface, with every
restart of the counters in a new boot or interface and fewer than 800 days covered, the days
and the pending bytes of the ledger are what the interface carried since the first reading;
and no amount that was added on the way is negative. -/
theorem ledger_counts_every_byte_once (lo : ℤ) (dev : Word) (es : List Entry)
    (hop : ∀ e ∈ es, e.op ≠ .clear) (hdev : ∀ e ∈ es, e.reading.dev = dev)
    (hgrows : (seen es).IsChain Grows) (hc : ∀ e ∈ es, Covered lo e.reading) :
    (∀ w, (ledgerAfter es).total w = carried w (seen es)) ∧ ∀ done e rest, es = done ++ e :: rest →
        ∀ a ∈ additions (ledgerAfter done) e.reading, ∀ w, 0 ≤ a.bytes w := by
  refine ⟨(counted_ledgerAfter hop hdev hgrows hc prefix_rfl).total, ?_⟩
  rintro done e rest rfl a ha w
  have hdone := counted_ledgerAfter hop hdev hgrows hc (prefix_append done _)
  exact additions_nonneg hdone.kept (hc e (by simp)) a ha

/-- A reading of interface 5, for a sample without limits. -/
def sampleEntry (boot : Word) (rx tx up : ℕ) (trusted : Bool) : Entry where
  settings := ⟨1, 0, 90, false, 0, false, .total⟩
  op := .sample
  reading :=
    { clock := sampleClock, up := up, trusted := trusted, boot := some boot, dev := sampleDev
      counters := some ⟨5, rx, tx⟩, dataup := true }

/-- Two readings before the clock is right, and one in the next boot, with a right clock. -/
def sampleRuns : List Entry :=
  [sampleEntry sampleBoot 100 50 60 false, sampleEntry sampleBoot 300 80 1200 false,
    sampleEntry ⟨['b'], by decide, by simp⟩ 40 10 100 true]

/-- Every byte of the three readings is counted once. -/
theorem sampleRuns_counted : carried .rx (seen sampleRuns) = 240 ∧
    (ledgerAfter sampleRuns).total .rx = 240 := by
  have hcarried : carried .rx (seen sampleRuns) = 240 := by decide
  refine ⟨hcarried, ?_⟩
  rw [(ledger_counts_every_byte_once 0 sampleDev sampleRuns (by decide) (by decide)
    (by decide) (by decide)).1, hcarried]

end Mu300.Traffic
