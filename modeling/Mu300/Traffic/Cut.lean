import Mu300.Traffic.Ledger

/-!
# Who turned mobile data off

The service's rounds over the ledger, with mobile data switched by the limits and by the user.
The tool says that data comes back on by itself "if this tool was what turned it off". A limit's
mark only says that the limit wanted data off: it is also set when the user had turned it off
before.

* `Device.run` — rounds, changes, reboots and the user's switch, in any order.
-/

namespace Mu300.Traffic

open Shell

/-! ## The device -/

/-- What can be seen from outside. -/
inductive Event : Type where
  /-- a sample, and whether it reported `cut=1` and `restore=1` -/
  | sampled (cut restore : Bool)
  | userOn
  | userOff
  | reboot
  deriving DecidableEq

/-- The ledger in memory and on the disk, mobile data, and what happened, newest first. -/
structure Device where
  live : Ledger
  disk : Ledger
  dataup : Bool
  log : List Event

inductive Action : Type where
  /-- `round`: a sample, and what its summary says -/
  | round (st : Settings) (r : Reading)
  /-- `used` and `clear`: a change that is kept at once -/
  | used (st : Settings) (bytes : ℤ) (r : Reading)
  | clear (st : Settings) (r : Reading)
  /-- `checkpoint` -/
  | save
  | userOn
  | userOff
  /-- the count of the disk, and mobile data is not down on purpose -/
  | reboot

/-- A reading that finds mobile data as it is. -/
def Device.reads (d : Device) (r : Reading) : Reading := { r with dataup := d.dataup }

/-- A round: a sample, and the service acts on its summary. -/
def Device.round (d : Device) (st : Settings) (r : Reading) : Device :=
  let (l, s) := sampleRun st (d.reads r) d.live
  { d with
    live := l
    dataup := if s.cut.isSome then false else if s.restore then true else d.dataup
    log := .sampled s.cut.isSome s.restore :: d.log }

def Device.change (d : Device) (st : Settings) (op : Op) (r : Reading) : Device :=
  let l := (ledgerRun st op (d.reads r) d.live).1
  { d with live := l, disk := l }

def Device.step (d : Device) : Action → Device
  | .round st r => d.round st r
  | .used st bytes r => d.change st (.used bytes) r
  | .clear st r => d.change st .clear r
  | .save => { d with disk := d.live }
  | .userOn => { d with dataup := true, log := .userOn :: d.log }
  | .userOff => { d with dataup := false, log := .userOff :: d.log }
  | .reboot => { d with live := d.disk, dataup := true, log := .reboot :: d.log }

/-- A device that has counted nothing. -/
def Device.new : Device := ⟨Ledger.empty, Ledger.empty, true, []⟩

def Device.run (as : List Action) : Device := as.foldl Device.step Device.new

/-- Mobile data has been down ever since a sample reported a cut. -/
def downSinceCut : List Event → Bool
  | [] => false
  | .sampled cut restore :: l => cut || !restore && downSinceCut l
  | .userOff :: l => downSinceCut l
  | .userOn :: _ | .reboot :: _ => false

def OwnRestores (log : List Event) : Prop :=
  ∀ cut l, .sampled cut true :: l <:+ log → downSinceCut l

/-! ## One limit -/

/-- The limit wants data off, and its mark does not say that someone turned it on again. -/
def presses (key : Text) (want : Bool) (m : Option Mark) : Bool :=
  want && match m with
    | some m => !(m.override && m.key = key)
    | none => true

section Limit

variable (i : Limit) (key : Text) (want : Bool) (r : Reading) (w : Switch) {m : Option Mark}

theorem Switch.off_rest (dataup : Bool) : (w.off i dataup).rest = w.rest := by
  simp only [Switch.off]
  split
  · rfl
  · rfl

theorem holdMark_rest {m : Mark} (h : (holdMark i key want r m w).2.rest) :
    w.rest ∨ ¬ m.override ∧ ¬ r.dataup := by
  simp only [holdMark] at h
  split at h
  · split at h
    · next hback => exact .inr hback
    · exact .inl h
  · split at h
    · split at h
      · exact .inl h
      · exact .inl (by rwa [Switch.off_rest] at h)
    · exact .inl h

theorem holds_holdMark {m : Mark} (h : holds (holdMark i key want r m w).1) : ¬ m.override := by
  simp only [holdMark] at h
  split at h
  · simp [holds] at h
  · split at h
    · next hover => exact hover
    · next hover => simp_all [holds]

theorem holdMark_none {m : Mark} (h : (holdMark i key want r m w).1 = none) :
    m.key ≠ key ∨ ¬ want := by
  simp only [holdMark] at h
  split at h
  · next hend => exact hend
  · split at h
    · split at h
      · simp at h
      · simp at h
    · simp at h

theorem newMark_rest (h : (newMark i key want r m w).2.rest) : w.rest := by
  cases m with
  | some m => exact h
  | none =>
    simp only [newMark] at h
    split at h
    · rwa [Switch.off_rest] at h
    · exact h

theorem holds_newMark (h : holds (newMark i key want r m w).1) : holds m ∨ m = none ∧ want := by
  cases m with
  | some m => exact .inl h
  | none =>
    simp only [newMark] at h
    split at h
    · next hwant => exact .inr ⟨rfl, hwant⟩
    · exact .inl h

/-- **A limit asks for data back** only at the end of a mark that holds, with data down. -/
theorem cutstep_rest (h : (cutstep i key want r m w).2.rest) : w.rest ∨ holds m ∧ ¬ r.dataup := by
  cases m with
  | none => exact .inl (newMark_rest i key want r w h)
  | some m =>
    have hhold := newMark_rest i key want r _ h
    exact (holdMark_rest i key want r w hhold).imp_right fun hm =>
      ⟨by simpa [holds] using hm.1, hm.2⟩

/-- **Its mark holds** behind a step if it held before, or the limit presses. -/
theorem holds_cutstep (h : holds (cutstep i key want r m w).1) : holds m ∨ presses key want m := by
  cases m with
  | none =>
    rcases holds_newMark i key want r w h with h | ⟨-, hwant⟩
    · exact .inl h
    · exact .inr (by simp [presses, hwant])
  | some m =>
    rcases holds_newMark i key want r _ h with h | ⟨hnone, hwant⟩
    · exact .inl (by simpa [holds] using holds_holdMark i key want r w h)
    · have hkey := (holdMark_none i key want r w hnone).resolve_right (not_not.2 hwant)
      exact .inr (by simp [presses, hwant, hkey])

end Limit

/-! ## One sample -/

def Ledger.holdsOff (l : Ledger) : Bool := holds l.cut || holds l.dcut

/-- A limit presses, going by what is counted. -/
def pressed (st : Settings) (r : Reading) (l : Ledger) : Bool :=
  let u := usage st l r
  presses u.cycle (capWants st u) l.cut || presses u.today (dailyWants st u) l.dcut

section Sample

variable {st : Settings} {r : Reading} {l : Ledger} {n : ℤ}

theorem sampleEnd_restore (h : (sampleEnd st r n l).2.restore) : l.holdsOff ∧ ¬ r.dataup := by
  simp only [sampleEnd, Bool.and_eq_true] at h
  obtain ⟨⟨⟨hrest, -⟩, -⟩, -⟩ := h
  rcases cutstep_rest _ _ _ _ _ hrest with hcap | ⟨hdaily, hdown⟩
  · rcases cutstep_rest _ _ _ _ _ hcap with hfalse | ⟨hcap, hdown⟩
    · simp at hfalse
    · exact ⟨by simp [Ledger.holdsOff, hcap], hdown⟩
  · exact ⟨by simp [Ledger.holdsOff, hdaily], hdown⟩

theorem holdsOff_sampleEnd (h : (sampleEnd st r n l).1.holdsOff) : l.holdsOff ∨ pressed st r l := by
  simp only [sampleEnd, Ledger.holdsOff, Bool.or_eq_true] at h
  rcases h with hcap | hdaily
  · rcases holds_cutstep _ _ _ _ _ hcap with hold | hpress
    · exact .inl (by simp [Ledger.holdsOff, hold])
    · exact .inr (by simp [pressed, hpress])
  · rcases holds_cutstep _ _ _ _ _ hdaily with hold | hpress
    · exact .inl (by simp [Ledger.holdsOff, hold])
    · exact .inr (by simp [pressed, hpress])

theorem holdsOff_foldl_add (as : List Addition) (l : Ledger) :
    (as.foldl Ledger.add l).holdsOff = l.holdsOff := by
  refine List.foldlRecOn (motive := (Ledger.holdsOff · = l.holdsOff)) as _ rfl fun l' hl a _ => ?_
  cases a <;> exact hl

theorem holds_filter {m : Option Mark} {p : Mark → Bool} (h : holds (m.filter p)) : holds m := by
  cases m with
  | none => simp [holds] at h
  | some m =>
    simp only [Option.filter] at h
    split at h
    · exact h
    · simp [holds] at h

theorem holdsOff_count (h : (l.count r).holdsOff) : l.holdsOff := by
  have hreread : l.reread.holdsOff → l.holdsOff := by
    simp only [Ledger.holdsOff, Ledger.reread, Bool.or_eq_true]
    exact fun h => h.imp holds_filter holds_filter
  have hsample : (sample l.reread r).holdsOff = l.reread.holdsOff := by
    simp only [sample]
    split
    · exact holdsOff_foldl_add ..
    · exact holdsOff_foldl_add ..
  have hdate : ∀ l' : Ledger, (datepend l' r).holdsOff =
    l'.holdsOff := fun l' => holdsOff_foldl_add ..
  refine hreread ?_
  rw [← hsample]
  simp only [Ledger.count] at h
  by_cases ht : r.trusted
  · rw [← hdate]
    simp only [ht, if_true] at h
    split at h
    · exact h
    · exact h
  · simpa [ht] using h

end Sample

/-! ## Every sequence of actions -/

/-- The user does not turn data off while a limit holds it off, and no limit comes to press
at a round that finds it turned off by the user. -/
def Device.careful (d : Device) : Action → Prop
  | .round st r => ¬ d.dataup → ¬ downSinceCut d.log →
    ¬ pressed st (d.reads r) (d.live.count (d.reads r))
  | .userOff => ¬ d.live.holdsOff
  | _ => True

instance (d : Device) : (a : Action) → Decidable (d.careful a)
  | .round _ _ => inferInstanceAs (Decidable (¬ _ → ¬ _ → ¬ _))
  | .userOff => inferInstanceAs (Decidable (¬ _))
  | .used _ _ _ | .clear _ _ | .save | .userOn | .reboot => inferInstanceAs (Decidable True)

/-- Every action of a sequence is. -/
def Device.allCareful : Device → List Action → Prop
  | _, [] => True
  | d, a :: as => d.careful a ∧ (d.step a).allCareful as

instance Device.decidableAllCareful :
    (d : Device) → (as : List Action) → Decidable (d.allCareful as)
  | _, [] => inferInstanceAs (Decidable True)
  | d, a :: as =>
    have := Device.decidableAllCareful (d.step a) as
    inferInstanceAs (Decidable (_ ∧ _))

/-- What holds of a device: its restores are of its cuts, and data that is down under a limit
has been since one. -/
structure Fair (d : Device) : Prop where
  own : OwnRestores d.log
  held : ¬ d.dataup → d.live.holdsOff → downSinceCut d.log

theorem OwnRestores.cons {e : Event} {log : List Event} (h : OwnRestores log)
    (he : ∀ cut, e = .sampled cut true → downSinceCut log) : OwnRestores (e :: log) := by
  intro cut l hs
  rcases List.suffix_cons_iff.1 hs with heq | hs
  · cases heq
    exact he cut rfl
  · exact h cut l hs

variable {d : Device}

theorem Fair.round (h : Fair d) {st : Settings} {r : Reading}
    (hc : d.careful (.round st r)) : Fair (d.round st r) := by
  have hback : (sampleRun st (d.reads r) d.live).2.restore → downSinceCut d.log := by
    intro hr
    obtain ⟨hhold, hdown⟩ := sampleEnd_restore hr
    exact h.held hdown (holdsOff_count hhold)
  refine ⟨h.own.cons fun cut he => hback (Event.sampled.inj he).2, fun hdown hhold => ?_⟩
  simp only [Device.round] at hdown hhold ⊢
  cases hcut : (sampleRun st (d.reads r) d.live).2.cut with
  | some i => simp [downSinceCut]
  | none =>
    -- nothing was switched: data was down before
    simp only [hcut, Option.isSome_none, Bool.false_eq_true, if_false] at hdown
    have hrestore : (sampleRun st (d.reads r) d.live).2.restore = false := by
      by_contra hr
      simp [Bool.not_eq_false _ ▸ hr] at hdown
    rw [hrestore, if_neg (by simp)] at hdown
    have hlog : downSinceCut d.log := by
      rcases holdsOff_sampleEnd hhold with hold | hpress
      · exact h.held hdown (holdsOff_count hold)
      · by_contra hno
        exact hc hdown hno hpress
    simp [downSinceCut, hrestore, hlog]

theorem Fair.step (h : Fair d) {a : Action} (hc : d.careful a) : Fair (d.step a) := by
  cases a with
  | round st r => exact h.round hc
  | used st bytes r => exact ⟨h.own, fun hdown hhold => h.held hdown (holdsOff_count hhold)⟩
  | clear st r =>
    -- no mark is left
    refine ⟨h.own, fun _ hhold => ?_⟩
    simp [Device.step, Device.change, ledgerRun, Ledger.cleared, Ledger.holdsOff, holds,
      Ledger.empty] at hhold
  | save => exact ⟨h.own, h.held⟩
  | userOn => exact ⟨h.own.cons nofun, fun hdown => absurd rfl hdown⟩
  | userOff => exact ⟨h.own.cons nofun, fun _ hhold => absurd hhold hc⟩
  | reboot => exact ⟨h.own.cons nofun, fun hdown => absurd rfl hdown⟩

theorem fair_foldl {as : List Action} (h : Fair d) (hc : d.allCareful as) :
    Fair (as.foldl Device.step d) := by
  induction as generalizing d with
  | nil => exact h
  | cons a as ih => exact ih (h.step hc.1) hc.2

/-- **A restore is of a cut**, in every sequence of actions in which the user does not turn data
off while a limit holds it off and no limit comes to press on data that the user turned off. -/
theorem restores_only_own_cut (as : List Action) (h : Device.new.allCareful as) :
    OwnRestores (Device.run as).log :=
  (fair_foldl (d := .new) ⟨fun _ _ hs => by simp [Device.new] at hs, nofun⟩ h).own

/-- A cap of 10 bytes, with the cut on. -/
def capOfTen : Settings := ⟨1, 10, 90, true, 0, false, .total⟩

/-- A reading without counters, `t` seconds after 1970 and with a right clock. -/
def readingAt (t : ℤ) (h0 : 0 ≤ t) (h1 : t ≤ 9223372036) : Reading where
  clock := ⟨t, 0, h0, h1, by decide⟩
  up := 100
  trusted := true
  boot := some sampleBoot
  dev := sampleDev
  counters := none
  dataup := true

/-- The cap is passed in January, and February follows. -/
def overInJanuary (between : List Action) : List Action :=
  Action.used capOfTen 100
    (readingAt 1000000 sampleClock.now_nonneg sampleClock.now_le) :: between ++
    [.round capOfTen (readingAt 1000060 (by decide) (by decide)),
      .round capOfTen (readingAt 4000000 (by decide) (by decide))]

set_option maxRecDepth 100000 in
/-- Cut in January, and back in February. -/
theorem cut_then_restored : Device.new.allCareful (overInJanuary []) ∧
    OwnRestores (Device.run (overInJanuary [])).log ∧
      (Device.run (overInJanuary [])).log = [.sampled false true, .sampled true false] := by
  have hcareful : Device.new.allCareful (overInJanuary []) := by decide +kernel
  exact ⟨hcareful, restores_only_own_cut _ hcareful, by decide +kernel⟩

set_option maxRecDepth 100000 in
/-- The user turns data off; the cap is passed and cuts nothing, and February turns data on. -/
theorem restored_after_user_off : ¬ OwnRestores (Device.run (overInJanuary [.userOff])).log := by
  intro h
  have hlog : (Device.run (overInJanuary [.userOff])).log =
      [.sampled false true, .sampled false false, .userOff] := by decide +kernel
  have := h false [.sampled false false, .userOff] (hlog ▸ List.suffix_refl _)
  simp [downSinceCut] at this

end Mu300.Traffic
