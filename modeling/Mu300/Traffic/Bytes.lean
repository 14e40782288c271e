import Mu300.Traffic.Ledger
import Mathlib.Algebra.BigOperators.Group.List.Basic
import Mathlib.Algebra.Order.Ring.Int
import Mathlib.Tactic.Ring

/-!
# The bytes in a ledger

Both ways are counted alike, so each fact here is about one of them.

* `Ledger.total` — the bytes of all days, and those that are pending.
-/

namespace Mu300.Traffic

open Shell List Addition Int

inductive Way : Type where
  | rx
  | tx

def Way.of {α : Type} (w : Way) (rx tx : α) : α :=
  match w with
  | .rx => rx
  | .tx => tx

def Day.bytes (w : Way) (e : Day) : ℤ := w.of e.rx e.tx

def Pend.bytes (w : Way) (p : Pend) : ℤ := w.of p.rx p.tx

def Addition.bytes (w : Way) : Addition → ℤ
  | day _ rx tx => w.of rx tx
  | pend _ _ rx tx => w.of rx tx

def dayTotal (w : Way) (es : List Day) : ℤ := (es.map (Day.bytes w)).sum

def pendTotal (w : Way) (ps : List Pend) : ℤ := (ps.map (Pend.bytes w)).sum

def Ledger.total (w : Way) (l : Ledger) : ℤ := dayTotal w l.days + pendTotal w l.pend

variable {w : Way} {as : List Addition} {off rx tx t1 lo hi a : ℤ} {r : Reading} {l : Ledger}

theorem Way.of_add (w : Way) (a b c d : ℤ) : w.of (a + b) (c + d) = w.of a c + w.of b d := by
  cases w with
  | rx | tx => rfl

theorem Way.of_sub (w : Way) (a b c d : ℤ) : w.of (a - b) (c - d) = w.of a c - w.of b d := by
  cases w with
  | rx | tx => rfl

/-! ## One addition -/

theorem bumpDay_eq_some {k : Text} {es es' : List Day} (h : bumpDay k rx tx es = some es') :
    ∃ done e rest, es = done ++ e :: rest ∧
      es' = done ++ { e with rx := e.rx + rx, tx := e.tx + tx } :: rest := by
  induction es generalizing es' with
  | nil => cases h
  | cons e es ih =>
    rw [bumpDay] at h
    split at h
    · exact ⟨[], e, es, rfl, (Option.some.inj h).symm⟩
    · obtain ⟨es'', hes, rfl⟩ := Option.map_eq_some_iff.1 h
      obtain ⟨done, e', rest, rfl, rfl⟩ := ih hes
      exact ⟨e :: done, e', rest, rfl, rfl⟩

theorem dayTotal_insertDay (e : Day) (es : List Day) :
    dayTotal w (insertDay e es) = dayTotal w es + e.bytes w := by
  have hsplit := takeWhile_append_dropWhile (p := fun e' : Day => before e.key e'.key)
    (l := es.reverse)
  have hsum : dayTotal w es = ((es.reverse.takeWhile (before e.key ·.key)).map (Day.bytes w)).sum +
      ((es.reverse.dropWhile (before e.key ·.key)).map (Day.bytes w)).sum := by
    rw [← sum_append, ← map_append, hsplit, map_reverse, sum_reverse, dayTotal]
  rw [hsum, dayTotal, insertDay]
  simp only [map_append, map_cons, map_reverse, sum_append, sum_cons, sum_reverse]
  ring

theorem dayTotal_addday (es : List Day) (k : Text) (rx tx : ℤ) :
    dayTotal w (addday es k rx tx) = dayTotal w es + w.of rx tx := by
  rw [addday]
  cases h : bumpDay k rx tx es with
  | none => exact dayTotal_insertDay ⟨k, rx, tx⟩ es
  | some es' =>
    obtain ⟨done, e, rest, rfl, rfl⟩ := bumpDay_eq_some h
    simp only [Option.getD_some, dayTotal, map_append, map_cons, sum_append, sum_cons,
      Day.bytes, Way.of_add]
    ring

theorem pendTotal_append (ps qs : List Pend) :
    pendTotal w (ps ++ qs) = pendTotal w ps + pendTotal w qs := by
  simp [pendTotal]

theorem pendTotal_addpend (ps : List Pend) (boot : Word) (up rx tx : ℤ) :
    pendTotal w (addpend ps boot up rx tx) = pendTotal w ps + w.of rx tx := by
  simp only [addpend]
  split
  · next p hp =>
    split
    · -- the last entry takes the bytes
      obtain ⟨qs, rfl⟩ := getLast?_eq_some_iff.1 hp
      rw [dropLast_concat, pendTotal_append, pendTotal_append]
      simp only [pendTotal, map_cons, map_nil, sum_cons, sum_nil, Pend.bytes, Way.of_add]
      ring
    · simp [pendTotal, Pend.bytes]
  · simp [pendTotal, Pend.bytes]

/-- **An addition** adds its bytes. -/
theorem total_add (l : Ledger) (a : Addition) : (l.add a).total w = l.total w + a.bytes w := by
  cases a with
  | day k rx tx =>
    simp only [Ledger.add, Ledger.total, dayTotal_addday, bytes]
    ring
  | pend boot up rx tx =>
    simp only [Ledger.add, Ledger.total, pendTotal_addpend, bytes]
    ring

theorem total_foldl_add (as : List Addition) (l : Ledger) :
    (as.foldl Ledger.add l).total w = l.total w + (as.map (bytes w)).sum := by
  induction as generalizing l with
  | nil => simp
  | cons a as ih =>
    rw [foldl_cons, ih, total_add, map_cons, sum_cons]
    ring

/-! ## A time's share -/

theorem sum_spanShares (off a t1 rx tx : ℤ) :
    ((spanShares off a t1 rx tx).map (bytes w)).sum = w.of rx tx := by
  fun_induction spanShares off a t1 rx tx with
  | case1 a rx tx h b prx ptx ih =>
    rw [map_cons, sum_cons, ih, Way.of_sub, bytes]
    ring
  | case2 a rx tx h => simp [bytes]

theorem share_bounds {x b : ℤ} (hx : 0 ≤ x) (hab : a < b) (hb : b < t1) :
    0 ≤ (x * (b - a)).tdiv (t1 - a) ∧ (x * (b - a)).tdiv (t1 - a) ≤ x := by
  have hnum : 0 ≤ x * (b - a) := mul_nonneg hx (by omega)
  rw [tdiv_eq_ediv_of_nonneg hnum]
  refine ⟨ediv_nonneg hnum (by omega), ?_⟩
  calc x * (b - a) / (t1 - a)
      ≤ x * (t1 - a) / (t1 - a) :=
        Int.ediv_le_ediv (by omega) (Int.mul_le_mul_of_nonneg_left (by omega) hx)
    _ = x := mul_ediv_cancel x (by omega)

/-- What a list of additions is made of, when it is about days between two instants. -/
def DaysWithin (off lo hi : ℤ) (as : List Addition) : Prop :=
  ∀ x ∈ as, ∃ t rx tx, x = .day (civil off t) rx tx ∧ lo ≤ t ∧ t ≤ hi ∧ 0 ≤ rx ∧ 0 ≤ tx

theorem daysWithin_spanShares (ha : a ≤ t1) (hrx : 0 ≤ rx) (htx : 0 ≤ tx) :
    DaysWithin off a t1 (spanShares off a t1 rx tx) := by
  fun_induction spanShares off a t1 rx tx with
  | case1 a rx tx h b prx ptx ih =>
    have hab : a < b := nextmid_gt off a
    obtain ⟨hprx, hprx'⟩ := share_bounds hrx hab h.2
    obtain ⟨hptx, hptx'⟩ := share_bounds htx hab h.2
    intro x hx
    rcases mem_cons.1 hx with rfl | hx
    · exact ⟨a, prx, ptx, rfl, le_rfl, ha, hprx, hptx⟩
    · have hrest := ih h.2.le (sub_nonneg.2 hprx') (sub_nonneg.2 hptx')
      obtain ⟨t, rx', tx', rfl, hle, hrest'⟩ := hrest x hx
      exact ⟨t, rx', tx', rfl, hab.le.trans hle, hrest'⟩
  | case2 a rx tx h =>
    intro x hx
    rw [mem_singleton.1 hx]
    exact ⟨a, rx, tx, rfl, le_rfl, ha, hrx, htx⟩

theorem sum_addspan (off t0 t1 rx tx : ℤ) :
    ((addspan off t0 t1 rx tx).map (bytes w)).sum = w.of rx tx := sum_spanShares ..

theorem daysWithin_addspan {t0 : ℤ} (ht : t0 ≤ t1) (hrx : 0 ≤ rx) (htx : 0 ≤ tx) :
    DaysWithin off t0 t1 (addspan off t0 t1 rx tx) := by
  have hclamp : t0 ≤ (if t1 - t0 > 800 * 86400 then t1 - 800 * 86400 else t0) ∧
      (if t1 - t0 > 800 * 86400 then t1 - 800 * 86400 else t0) ≤ t1 := by
    split
    · omega
    · omega
  intro x hx
  obtain ⟨t, rx', tx', rfl, hle, hrest⟩ := daysWithin_spanShares hclamp.2 hrx htx x hx
  exact ⟨t, rx', tx', rfl, hclamp.1.trans hle, hrest⟩

/-! ## Dating, printing and reading back -/

theorem DaysWithin.mono {lo' hi' : ℤ} (h : DaysWithin off lo hi as)
    (hlo : lo' ≤ lo) (hhi : hi ≤ hi') : DaysWithin off lo' hi' as := by
  intro x hx
  obtain ⟨t, rx, tx, rfl, hlot, hthi, hpos⟩ := h x hx
  exact ⟨t, rx, tx, rfl, hlo.trans hlot, hthi.trans hhi, hpos⟩

theorem DaysWithin.nonneg (h : DaysWithin off lo hi as) {x : Addition} (hx : x ∈ as) :
    0 ≤ x.bytes w := by
  obtain ⟨t, rx, tx, rfl, -, -, hrx, htx⟩ := h x hx
  cases w with
  | rx => exact hrx
  | tx => exact htx

theorem pend_foldl_add (h : DaysWithin off lo hi as) (l : Ledger) :
    (as.foldl Ledger.add l).pend = l.pend := by
  refine foldlRecOn (motive := (Ledger.pend · = l.pend)) as _ rfl fun l' hl a ha => ?_
  obtain ⟨t, rx, tx, rfl, -⟩ := h a ha
  exact hl

theorem daysWithin_dateAdditions {p : Pend} (hup : 0 ≤ p.up) (hrx : 0 ≤ p.rx) (htx : 0 ≤ p.tx) :
    DaysWithin r.clock.off (r.clock.now - r.up) r.clock.now (dateAdditions r p) := by
  simp only [dateAdditions]
  split
  · next h =>
    refine (daysWithin_addspan ?_ hrx htx).mono ?_ ?_
    · split
      · omega
      · omega
    · omega
    · split
      · exact le_rfl
      · omega
  · intro x hx
    rw [mem_singleton.1 hx]
    exact ⟨r.clock.now, p.rx, p.tx, rfl, by omega, le_rfl, hrx, htx⟩

theorem sum_dateAdditions (r : Reading) (p : Pend) :
    ((dateAdditions r p).map (bytes w)).sum = p.bytes w := by
  simp only [dateAdditions]
  split
  · exact sum_addspan ..
  · simp [bytes, Pend.bytes]

theorem sum_flatMap_dateAdditions (r : Reading) (ps : List Pend) :
    ((ps.flatMap (dateAdditions r)).map (bytes w)).sum = pendTotal w ps := by
  induction ps with
  | nil => rfl
  | cons p ps ih =>
    rw [flatMap_cons, map_append, sum_append, sum_dateAdditions, ih, pendTotal, pendTotal,
      map_cons, sum_cons]

theorem daysWithin_flatMap (h : ∀ p ∈ l.pend, 0 ≤ p.up ∧ 0 ≤ p.rx ∧ 0 ≤ p.tx) :
    DaysWithin r.clock.off (r.clock.now - r.up) r.clock.now (l.pend.flatMap (dateAdditions r)) := by
  intro x hx
  obtain ⟨p, hp, hx⟩ := mem_flatMap.1 hx
  obtain ⟨hup, hrx, htx⟩ := h p hp
  exact daysWithin_dateAdditions hup hrx htx x hx

/-- **Dating** moves the pending bytes to days. -/
theorem total_datepend
    (h : ∀ p ∈ l.pend, 0 ≤ p.up ∧ 0 ≤ p.rx ∧ 0 ≤ p.tx) : (datepend l r).total w = l.total w := by
  have htotal := total_foldl_add (w := w) (l.pend.flatMap (dateAdditions r)) l
  rw [sum_flatMap_dateAdditions, Ledger.total, pend_foldl_add (daysWithin_flatMap h)] at htotal
  simp only [datepend, Ledger.total, pendTotal, map_nil, sum_nil] at htotal ⊢
  omega

theorem dayTotal_foldl_addday (es fs : List Day) :
    dayTotal w (fs.foldl (fun es e => addday es e.key e.rx e.tx) es) =
      dayTotal w es + dayTotal w fs := by
  induction fs generalizing es with
  | nil => simp [dayTotal]
  | cons e fs ih =>
    rw [foldl_cons, ih, dayTotal_addday, dayTotal, dayTotal, dayTotal, map_cons,
      sum_cons, Day.bytes]
    ring

/-- **Printing and reading back** keeps every byte whose day is a date. -/
theorem total_reread (h : ∀ e ∈ l.days, dateShape e.key) : l.reread.total w = l.total w := by
  have hfilter : l.days.filter (dateShape ·.key) = l.days := filter_eq_self.2 h
  have hdays : dayTotal w l.reread.days = dayTotal w l.days := by
    change dayTotal w ((l.days.filter (dateShape ·.key)).foldl _ []) = _
    rw [dayTotal_foldl_addday, hfilter]
    simp [dayTotal]
  rw [Ledger.total, Ledger.total, hdays]
  rfl

/-! ## New counters -/

/-- The bytes of a ledger, both ways. -/
def Ledger.bytes (l : Ledger) : ℤ := l.total .rx + l.total .tx

theorem bytes_sampleAdditions (l : Ledger) (r : Reading) :
    ((sampleAdditions l r).map (bytes .rx)).sum + ((sampleAdditions l r).map (bytes .tx)).sum =
      (newBytes l r).rx + (newBytes l r).tx := by
  cases hboot : r.boot with
  | none => simp [sampleAdditions, newBytes, hboot]
  | some boot =>
    simp only [sampleAdditions, hboot]
    split_ifs with hzero htrusted
    · simpa using hzero.symm
    · rw [sum_addspan, sum_addspan]
      rfl
    · simp [bytes, Way.of]

/-- **What a reading adds**, both ways together. -/
theorem bytes_sample (l : Ledger) (r : Reading) :
    (sample l r).bytes = l.bytes + ((newBytes l r).rx + (newBytes l r).tx) := by
  have htotal : ∀ w, (sample l r).total w = ((sampleAdditions l r).foldl .add l).total w := by
    intro w
    rw [sample]
    split <;> rfl
  rw [Ledger.bytes, htotal, htotal, total_foldl_add, total_foldl_add, ← bytes_sampleAdditions,
    Ledger.bytes]
  ring

/-- **New counters**: the interface, the boot and the ifindex are those of the base and a counter
is lower, so both began again at 0. All they show is added exactly if each is still below its old
value, or began there at 0. -/
theorem restart_counted_iff {l : Ledger} {r : Reading} {b : Base} {cs : Counters}
    (hbase : l.base = some b) (hcounters : r.counters = some cs) (hdev : b.dev = r.dev)
    (hboot : r.boot = some b.boot) (hidx : b.idx = cs.idx)
    (hlower : (cs.rx : ℤ) < b.rx ∨ (cs.tx : ℤ) < b.tx) :
    (sample l r).bytes = l.bytes + (cs.rx + cs.tx) ↔
      ((cs.rx : ℤ) < b.rx ∨ b.rx = 0) ∧ ((cs.tx : ℤ) < b.tx ∨ b.tx = 0) := by
  have hnew : newBytes l r = delta b b.boot cs r.up := by
    simp [newBytes, hboot, hcounters, hbase, if_pos hdev]
  have hrx : (delta b b.boot cs r.up).rx = if b.rx ≤ cs.rx then cs.rx - b.rx else (cs.rx : ℤ) := by
    simp [delta, hidx]
  have htx : (delta b b.boot cs r.up).tx = if b.tx ≤ cs.tx then cs.tx - b.tx else (cs.tx : ℤ) := by
    simp [delta, hidx]
  rw [bytes_sample, hnew, hrx, htx]
  split_ifs <;> omega

/-- A ledger whose base has 1000 bytes down and 10 up. -/
def sampleBase : Base := ⟨sampleBoot, 5, sampleDev, 1000, 10, 60⟩

/-- A later reading of the same counters. -/
def sampleReading (rx tx : ℕ) : Reading where
  clock := sampleClock
  up := 120
  trusted := false
  boot := some sampleBoot
  dev := sampleDev
  counters := some ⟨5, rx, tx⟩
  dataup := true

/-- Both counters are below their old values. -/
theorem restart_counted_both :
    (sample { Ledger.empty with base := some sampleBase } (sampleReading 500 3)).bytes =
      Ledger.bytes { Ledger.empty with base := some sampleBase } + (500 + 3) :=
  (restart_counted_iff rfl
    (show (sampleReading 500 3).counters = some ⟨5, 500, 3⟩ from rfl) rfl rfl rfl
    (.inl (by decide))).2
    ⟨.inl (by decide), .inl (by decide)⟩

/-- Up has passed its old value: of 20 bytes, 10 are counted. -/
theorem restart_undercounted :
    (sample { Ledger.empty with base := some sampleBase } (sampleReading 500 20)).bytes =
        Ledger.bytes { Ledger.empty with base := some sampleBase } + (500 + 10) ∧
      (sample { Ledger.empty with base := some sampleBase } (sampleReading 500 20)).bytes ≠
        Ledger.bytes { Ledger.empty with base := some sampleBase } + (500 + 20) := by
  decide

end Mu300.Traffic
