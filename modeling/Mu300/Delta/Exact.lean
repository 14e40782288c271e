import Mu300.Delta.Stream

/-!
# The filter is exact

The output of `tarfilter` is its input without the blocks of the members that the log names.
-/

namespace Mu300.TarStream

open Bytes List Option

/-! ## Loops over the data -/

theorem readFull_of_le {n : ℕ} {inp : Raw} (h : n ≤ inp.length) :
    readFull n inp = some (inp.take n, inp.drop n) :=
  if_pos h

theorem readFull_append {n : ℕ} {a b : Raw} (h : a.length = n) :
    readFull n (a ++ b) = some (a, b) := by
  rw [readFull_of_le (by rw [length_append]; omega), ← h, take_left, drop_left]

theorem copyPass_less (s s' : Copy) (h : copyPass s = .inl s') : s'.blocks < s.blocks := by
  unfold copyPass at h
  split at h
  · cases h
  next hblocks =>
  dsimp only at h
  split at h
  · cases h
  · cases h
    have hpos : 0 < min (s.blocks * 512) bufSize / 512 := by
      unfold bufSize
      omega
    change s.blocks - _ < s.blocks
    omega

theorem copyBlocks_from (blocks : ℕ) (inp out : Raw) (h : blocks * 512 ≤ inp.length) :
    Loop.run copyPass none Copy.blocks ⟨blocks, inp, out⟩ =
      some (out ++ inp.take (blocks * 512), inp.drop (blocks * 512)) := by
  induction blocks using Nat.strong_induction_on generalizing inp out with
  | _ blocks ih =>
    by_cases hzero : blocks = 0
    · have hpass : copyPass ⟨blocks, inp, out⟩ = .inr (some (out, inp)) := if_pos hzero
      rw [Loop.run_of_inr hpass, hzero]
      simp
    · -- a piece is a number of blocks
      obtain ⟨m, k, hm, hk, hmk⟩ : ∃ m k, 0 < m ∧ min (blocks * 512) bufSize = k ∧ k = m * 512 := by
        refine ⟨min blocks 128, _, ?_, rfl, ?_⟩
        · omega
        · unfold bufSize
          omega
      have hdiv : k / 512 = m := by omega
      have hsum : blocks * 512 = k + (blocks - m) * 512 := by omega
      have hpass : copyPass ⟨blocks, inp, out⟩ =
          .inl ⟨blocks - m, inp.drop k, out ++ inp.take k⟩ := by
        unfold copyPass
        rw [if_neg hzero]
        dsimp only
        rw [hk, readFull_of_le (by omega), hdiv]
      have hrest : (blocks - m) * 512 ≤ (inp.drop k).length := by
        rw [length_drop]
        apply Nat.le_sub_of_add_le
        rw [Nat.add_comm, ← hsum]
        exact h
      rw [Loop.run_of_inl copyPass_less hpass, ih (blocks - m) (by omega) _ _ hrest, hsum]
      rw [take_add, drop_drop, append_assoc]

theorem copyBlocks_eq {blocks : ℕ} {data rest : Raw} (h : data.length = blocks * 512) :
    copyBlocks blocks (data ++ rest) = some (data, rest) := by
  rw [copyBlocks, copyBlocks_from _ _ _ (by rw [length_append]; omega), ← h, take_left, drop_left]
  rfl

theorem replayPass_less (c : Raw) (stop : ℕ) (s s' : ℕ × Raw) (h : replayPass c stop s = .inl s') :
    stop - s'.1 < stop - s.1 := by
  unfold replayPass at h
  split at h
  · next hlt =>
    dsimp only at h
    split at h
    · cases h
      have hpos : 0 < min (stop - s.1) bufSize := by
        unfold bufSize
        omega
      omega
    · cases h
  · cases h

theorem replay_from (c : Raw) {stop : ℕ} (hstop : stop ≤ c.length) (o : ℕ) (out : Raw)
    (ho : o ≤ stop) :
    Loop.run (replayPass c stop) none (fun s => stop - s.1) (o, out) =
      some (out ++ slice c o (stop - o)) := by
  induction hn : stop - o using Nat.strong_induction_on generalizing o out with
  | _ n ih =>
    by_cases hlt : o < stop
    · obtain ⟨m, hm⟩ : ∃ m, min (stop - o) bufSize = m := ⟨_, rfl⟩
      have hpos : 0 < m ∧ m ≤ stop - o := by
        rw [← hm]
        unfold bufSize
        omega
      have hlen : (slice c o m).length = m := length_slice_of_le (by omega)
      have hpass : replayPass c stop (o, out) = .inl (o + m, out ++ slice c o m) := by
        unfold replayPass
        rw [if_pos hlt]
        rw [hm, if_pos hlen]
      have hsum : n = m + (stop - (o + m)) := by omega
      rw [Loop.run_of_inl (replayPass_less c stop) hpass, ih _ (by omega) (o + m) _ (by omega) rfl,
        append_assoc, hsum]
      unfold slice
      rw [take_add, drop_drop]
    · have hpass : replayPass c stop (o, out) = .inr (some out) := if_neg hlt
      rw [Loop.run_of_inr hpass, ← hn, show stop - o = 0 by omega]
      simp [slice]

theorem replay_eq {c : Raw} {stop : ℕ} (h : stop ≤ c.length) :
    replay c stop = some (c.take stop) := by
  rw [replay, replay_from c h 0 [] (Nat.zero_le _)]
  rfl

/-! ## The comparison -/

section Comparison

variable (c head : Raw) {size pos k : ℕ} {data rest : Raw}

theorem comparePass_less (size : ℕ) (s s' : Compare) (h : comparePass c head size s = .inl s') :
    padded size - s'.pos < padded size - s.pos := by
  unfold comparePass at h
  dsimp only at h
  generalize (if s.pos + min (padded size - s.pos) bufSize > size then size - s.pos
    else min (padded size - s.pos) bufSize) = real at h
  split at h
  next hlt =>
    have hpos : 0 < min (padded size - s.pos) bufSize := by
      unfold bufSize
      omega
    have hgoal : s'.pos = s.pos + min (padded size - s.pos) bufSize := by
      split at h
      · cases h
      · split at h
        · split at h
          · rw [← Sum.inl.inj h]
          · split at h
            · cases h
            · rw [← Sum.inl.inj h]
        · rw [← Sum.inl.inj h]
    omega
  · cases h

theorem piece_bounds (hblock : 512 ∣ pos) (hlt : pos < padded size) :
    ∃ k, min (padded size - pos) bufSize = k ∧ 0 < k ∧ 512 ∣ pos + k ∧ pos + k ≤ padded size ∧
      pos ≤ size := by
  refine ⟨_, rfl, ?_⟩
  unfold bufSize padded blocksOf at *
  omega

theorem take_real {b : Raw} (hpos : pos ≤ size) (hb : b.length = size) :
    slice b pos (if pos + k > size then size - pos else k) = slice b pos k := by
  split
  · unfold slice
    rw [take_of_length_le (by rw [length_drop]; omega),
      take_of_length_le (by rw [length_drop]; omega)]
  · rfl

theorem take_real_data (hpos : pos ≤ size) :
    ((data.drop pos).take k).take (if pos + k > size then size - pos else k) =
      slice (data.take size) pos k := by
  unfold slice
  rw [drop_take, take_take, take_take]
  congr 1
  split <;> omega

theorem readFull_piece (h : pos + k ≤ data.length) :
    readFull k (data.drop pos ++ rest) = some (slice data pos k, data.drop (pos + k) ++ rest) := by
  rw [← take_append_drop k (data.drop pos), append_assoc, readFull_append, drop_drop]
  · rfl
  · rw [length_take, length_drop]
    omega

variable {c head} {nul : Bool} {out : Raw}

theorem comparePass_end {s : Compare} (h : ¬ s.pos < padded size) :
    comparePass c head size s = .inr (some s) := if_neg h

theorem comparePass_other (hdata : data.length = padded size)
    (hlt : pos < padded size) (hk : min (padded size - pos) bufSize = k) :
    comparePass c head size ⟨pos, false, nul, data.drop pos ++ rest, out⟩ =
      .inl ⟨pos + k, false, nul, data.drop (pos + k) ++ rest, out ++ slice data pos k⟩ := by
  unfold comparePass
  dsimp only
  rw [if_pos hlt, hk, readFull_piece (by omega)]
  rfl

/-- One piece of a file that was the same so far: it is the same there, or everything goes out. -/
theorem comparePass_same (hdata : data.length = padded size) (hc : c.length = size)
    (hlt : pos < padded size) (hpos : pos ≤ size) (hk : min (padded size - pos) bufSize = k) :
    comparePass c head size ⟨pos, true, nul, data.drop pos ++ rest, out⟩ =
      .inl (if slice c pos k = slice (data.take size) pos k then
        ⟨pos + k, true, nul || decide (0 ∈ slice (data.take size) pos k),
          data.drop (pos + k) ++ rest, out⟩
      else ⟨pos + k, false, nul, data.drop (pos + k) ++ rest,
        out ++ head ++ c.take pos ++ slice data pos k⟩) := by
  have hreal : (slice data pos k).take (if pos + k > size then size - pos else k) =
      slice (data.take size) pos k :=
    take_real_data hpos
  unfold comparePass
  dsimp only
  rw [if_pos hlt, hk, readFull_piece (by omega)]
  dsimp only
  rw [if_pos rfl, take_real hpos hc, hreal]
  split
  · rfl
  · rw [replay_eq (by omega)]

variable (head rest)

section

variable (hdata : data.length = padded size)

include hdata

theorem compare_other (pos : ℕ) (nul : Bool) (out : Raw) (hblock : 512 ∣ pos)
    (hpos : pos ≤ padded size) :
    Loop.run (comparePass c head size) none (fun s => padded size - s.pos)
        ⟨pos, false, nul, data.drop pos ++ rest, out⟩ =
      some ⟨padded size, false, nul, rest, out ++ data.drop pos⟩ := by
  induction hn : padded size - pos using Nat.strong_induction_on generalizing pos out with
  | _ n ih =>
    by_cases hlt : pos < padded size
    · obtain ⟨k, hk, hkpos, hnext, hle, -⟩ := piece_bounds hblock hlt
      rw [Loop.run_of_inl (comparePass_less c head size) (comparePass_other hdata hlt hk),
        ih _ (by omega) (pos + k) _ hnext hle rfl, append_assoc, ← drop_drop]
      unfold slice
      rw [take_append_drop]
    · obtain rfl : pos = padded size := by omega
      rw [Loop.run_of_inr (comparePass_end hlt), ← hdata, drop_length, append_nil, nil_append]

theorem compare_same (hsize : size ≤ data.length) (pos : ℕ) (hblock : 512 ∣ pos)
    (hpos : pos ≤ padded size) :
    Loop.run (comparePass (data.take size) head size) none (fun s => padded size - s.pos)
        ⟨pos, true, decide (0 ∈ (data.take size).take pos), data.drop pos ++ rest, []⟩ =
      some ⟨padded size, true, decide (0 ∈ data.take size), rest, []⟩ := by
  have hlen : (data.take size).length = size := length_take_of_le hsize
  induction hn : padded size - pos using Nat.strong_induction_on generalizing pos with
  | _ n ih =>
    by_cases hlt : pos < padded size
    · obtain ⟨k, hk, hkpos, hnext, hle, hin⟩ := piece_bounds hblock hlt
      have hnul : (decide (0 ∈ (data.take size).take pos) ||
          decide (0 ∈ slice (data.take size) pos k)) =
          decide (0 ∈ (data.take size).take (pos + k)) := by
        rw [take_add, ← Bool.decide_or]
        exact decide_eq_decide.2 mem_append.symm
      rw [Loop.run_of_inl (comparePass_less _ head size) (comparePass_same hdata hlen hlt hin hk),
        if_pos rfl, hnul]
      exact ih _ (by omega) (pos + k) hnext hle rfl
    · obtain rfl : pos = padded size := by omega
      rw [Loop.run_of_inr (comparePass_end hlt), ← hdata, drop_length, nil_append,
        take_of_length_le (i := data.length) (by omega)]

/-- A file of the same size that differs goes out in full, wherever the first difference is. -/
theorem compare_differs (hsize : size ≤ data.length) (hc : c.length = size)
    (hne : c ≠ data.take size) (pos : ℕ) (nul : Bool) (hblock : 512 ∣ pos)
    (hpos : pos ≤ padded size) (hsame : c.take pos = (data.take size).take pos) :
    ∃ nul', Loop.run (comparePass c head size) none (fun s => padded size - s.pos)
        ⟨pos, true, nul, data.drop pos ++ rest, []⟩ =
      some ⟨padded size, false, nul', rest, head ++ data⟩ := by
  induction hn : padded size - pos using Nat.strong_induction_on generalizing pos nul with
  | _ n ih =>
    by_cases hlt : pos < padded size
    · obtain ⟨k, hk, hkpos, hnext, hle, hin⟩ := piece_bounds hblock hlt
      rw [Loop.run_of_inl (comparePass_less c head size) (comparePass_same hdata hc hlt hin hk)]
      split
      next heq =>
        refine ih _ (by omega) (pos + k) _ hnext hle ?_ rfl
        rw [take_add, take_add, hsame]
        exact congrArg _ heq
      next hother =>
        -- what passed was the beginning of the member's own data
        have hpassed : c.take pos = data.take pos := by
          rw [hsame, take_take, Nat.min_eq_left hin]
        refine ⟨nul, ?_⟩
        rw [compare_other head rest hdata (pos + k) nul _ hnext hle, hpassed, nil_append,
          append_assoc, append_assoc, ← drop_drop]
        unfold slice
        rw [take_append_drop, take_append_drop]
    · -- at the end of the data everything has been compared
      refine absurd ?_ hne
      have hlen : (data.take size).length = size := length_take_of_le hsize
      rw [take_of_length_le (by omega), take_of_length_le (by omega)] at hsame
      exact hsame

/-- The candidate: left out when it is the installed file, and written in full otherwise. -/
theorem candidate_eq (hsize : size ≤ data.length) (every : Bool) (file : Option Raw) :
    candidate every file head size (data ++ rest) = some (if file = some (data.take size) then
        if every && decide (0 ∉ data.take size) then
          (false, head ++ data.take size ++ replicate (data.length - size) 0, rest)
        else (true, [], rest)
      else (false, head ++ data, rest)) := by
  have hlen : (data.take size).length = size := length_take_of_le hsize
  unfold candidate
  dsimp only
  by_cases hfile : file = some (data.take size)
  · have hsame := compare_same head rest hdata hsize 0 (Nat.dvd_zero _) (Nat.zero_le _)
    rw [take_zero, drop_zero] at hsame
    subst hfile
    rw [any_some, getD_some, hlen, decide_eq_true rfl, if_pos rfl]
    rw [show decide ((0 : UInt8) ∈ ([] : Raw)) = false from rfl] at hsame
    rw [hsame, if_pos rfl]
    dsimp only
    rw [Bool.true_and, ← decide_not]
    split
    · rw [replay_eq (by omega), take_take, Nat.min_self, hdata]
      rfl
    · rfl
  · rw [if_neg hfile]
    by_cases hany : (file.any fun c => c.length = size)
    · obtain ⟨c, rfl, hc⟩ := any_eq_true _ _ |>.1 hany
      have hne : c ≠ data.take size := fun h => hfile (congrArg some h)
      obtain ⟨nul, hdiff⟩ :=
        compare_differs head rest hdata hsize (of_decide_eq_true hc) hne 0 false
        (Nat.dvd_zero _) (Nat.zero_le _) rfl
      rw [hany, if_pos rfl, getD_some]
      rw [drop_zero] at hdiff
      rw [hdiff]
      rfl
    · have hother := compare_other (c := file.getD []) head rest hdata 0 false head (Nat.dvd_zero _)
        (Nat.zero_le _)
      rw [Bool.eq_false_iff.2 hany, if_neg Bool.false_ne_true]
      rw [drop_zero] at hother
      rw [hother]
      rfl

end

end Comparison

/-! ## A well-formed stream -/

/-- An extended header of the next member, with its data. -/
structure Ext where
  hdr : Raw
  data : Raw
  hdr_length : hdr.length = 512
  ext_type : isExt (typeOf hdr)
  small : sizeField hdr ≤ 64 * 2 ^ 20
  data_length : data.length = padded (sizeField hdr)

def Ext.bytes (e : Ext) : Raw := e.hdr ++ e.data

/-- What extended headers say together. -/
def heldOf (exts : List Ext) : Held := exts.foldl (fun h e => h.hold e.hdr e.data) {}

/-- A member: its extended headers, its header and the blocks of its data. -/
structure Member where
  exts : List Ext
  hdr : Raw
  data : Raw
  hdr_length : hdr.length = 512
  nonzero : hdr.all (· = 0) = false
  not_ext : isExt (typeOf hdr) = false
  not_global : typeOf hdr ≠ byte 'g'
  data_length : data.length = padded (sizeOf (heldOf exts) hdr)

/-- A header for every member after it. -/
structure Global where
  hdr : Raw
  data : Raw
  hdr_length : hdr.length = 512
  global_type : typeOf hdr = byte 'g'
  data_length : data.length = padded (sizeField hdr)

inductive Item : Type where
  | all (g : Global)
  | one (m : Member)

namespace Member

variable (m : Member) (list : Option (List Raw)) (old : Raw → Option Raw)

def name : Raw := nameOf (heldOf m.exts) m.hdr

def link : Raw := linkOf (heldOf m.exts) m.hdr

def size : ℕ := sizeOf (heldOf m.exts) m.hdr

/-- The data without what fills its last block. -/
def content : Raw := m.data.take m.size

def head : Raw := m.exts.flatMap Ext.bytes ++ m.hdr

/-- The group of blocks of a member. -/
def bytes : Raw := m.head ++ m.data

def regular : Bool := isRegular (typeOf m.hdr)

/-- A file that may be left out: a listed one, or every one. -/
def listed : Bool :=
  m.regular && !(heldOf m.exts).paxXattr && wanted list m.name

/-- Such a file, and the installed system has it byte for byte. -/
def installed : Bool := m.listed list && old m.name = some m.content

/-- What is written for a member that is not left out. -/
def passed : Raw :=
  if list.isNone && m.installed list old then m.head ++ m.content ++ replicate
    (m.data.length - m.size) 0
  else m.bytes

theorem length_data : m.data.length = padded m.size := m.data_length

theorem size_le : m.size ≤ m.data.length := by
  rw [m.length_data]
  unfold padded blocksOf
  omega

/-- Where the last block is filled with zeros, what is written is the group of blocks as it is. -/
theorem passed_eq_bytes (h : m.data.drop m.size = replicate (m.data.length - m.size) 0) :
    m.passed list old = m.bytes := by
  unfold passed
  split
  · rw [← h, append_assoc, content, take_append_drop, bytes]
  · rfl

end Member

variable (list : Option (List Raw)) (old : Raw → Option Raw)

inductive Verdict : Type where
  | kept
  | left
  | linked
  deriving DecidableEq

/-- A member, after the files `done` were left out. -/
def Member.judge (done : List Raw) (m : Member) : Verdict :=
  if typeOf m.hdr = byte '1' ∧ among done m.link then .linked
  else if m.installed list old && (list.isSome || decide (0 ∈ m.content)) then .left
  else .kept

namespace Item

def bytes : Item → Raw
  | .all g => g.hdr ++ g.data
  | .one m => m.bytes

def headers : Item → ℕ
  | .all _ => 1
  | .one m => m.exts.length + 1

def judge (done : List Raw) : Item → Verdict
  | .all _ => .kept
  | .one m => m.judge list old done

/-- The files left out, with the item. -/
def doneAfter (done : List Raw) : Item → Verdict → List Raw
  | .one m, .left => m.name :: done
  | _, _ => done

def output : Item → Verdict → Raw
  | .all g, .kept => g.hdr ++ g.data
  | .one m, .kept => m.passed list old
  | _, _ => []

def lines : Item → Verdict → List LogLine
  | .one m, .left => [.D m.name]
  | .one m, .linked => [.H m.name, .T m.link]
  | _, _ => []

/-- The size of a regular file, in blocks of 4 KiB. -/
def kib : Item → ℕ
  | .one m => if m.regular then TarStream.kib m.size else 0
  | .all _ => 0

end Item

def sift : List Raw → List Item → List (Item × Verdict)
  | _, [] => []
  | done, i :: items =>
    let v := i.judge list old done
    (i, v) :: sift (i.doneAfter done v) items

/-- The files of a verdict together. -/
def total (v : Verdict) (js : List (Item × Verdict)) : ℕ :=
  (js.map fun j => if j.2 = v then j.1.kib else 0).sum

/-- A stream: the items, a block of zeros, and anything. -/
def stream (items : List Item) (tail : Raw) : Raw :=
  items.flatMap Item.bytes ++ (replicate 512 0 ++ tail)

/-! ## Passes -/

section Passes

variable {s s' : State} {rest : Raw}

/-- What the passes over an item do to the filter. -/
structure After (s : State) (i : Item) (v : Verdict) (s' : State) : Prop where
  pend : s'.pend = []
  held : s'.held = {}
  out : s'.out = s.out ++ i.output list old v
  done : s'.done = i.doneAfter s.done v
  log : s'.log = s.log ++ i.lines v
  leftOut : s'.leftOut = s.leftOut + if v = .left then i.kib else 0
  written : s'.written = s.written + if v = .kept then i.kib else 0

variable {list old} {m : Member}

theorem nonzero_of_type {hdr : Raw} (h : typeOf hdr ≠ 0) : hdr.all (· = 0) = false := by
  rw [Bool.eq_false_iff]
  intro hall
  apply h
  unfold typeOf
  rw [getD_eq_getElem?_getD]
  cases hget : hdr[156]? with
  | none => rfl
  | some x => exact of_decide_eq_true (all_eq_true.1 hall x (mem_of_getElem? hget))

theorem filterPass_ext (e : Ext) (hinp : s.inp = e.bytes ++ rest) : filterPass list old s =
      .inl { s with inp := rest, pend := s.pend ++ e.bytes, held := s.held.hold e.hdr e.data } := by
  have hzero : e.hdr.all (· = 0) = false := by
    apply nonzero_of_type
    intro htype
    have hext := e.ext_type
    rw [htype] at hext
    exact absurd hext (by decide)
  unfold filterPass
  rw [hinp, Ext.bytes, append_assoc, readFull_append e.hdr_length]
  dsimp only
  rw [hzero, if_neg Bool.false_ne_true, if_pos e.ext_type, if_neg (Nat.not_lt.2 e.small),
    readFull_append e.data_length, ← append_assoc]

theorem filterPass_global (g : Global) (hinp : s.inp = g.hdr ++ g.data ++ rest)
    (hpend : s.pend = []) :
    filterPass list old s =
      .inl { s with inp := rest, out := s.out ++ (g.hdr ++ g.data), pend := [] } := by
  have hzero : g.hdr.all (· = 0) = false := by
    apply nonzero_of_type
    rw [g.global_type]
    decide
  unfold filterPass
  rw [hinp, append_assoc, readFull_append g.hdr_length]
  dsimp only
  rw [hzero, if_neg Bool.false_ne_true, g.global_type, if_neg (by decide), if_pos rfl,
    copyBlocks_eq g.data_length, hpend, append_nil, ← append_assoc]

theorem Member.data_of_link (h : typeOf m.hdr = byte '1') : m.data = [] := by
  have hsize : sizeOf (heldOf m.exts) m.hdr = 0 := by
    unfold sizeOf
    rw [h]
    rfl
  have hlen := m.data_length
  rw [hsize] at hlen
  exact eq_nil_of_length_eq_zero hlen

theorem Member.candidate_of_listed (h : m.listed list) :
    candidate list.isNone (old m.name) m.head m.size (m.data ++ rest) =
      some (if m.installed list old && (list.isSome || decide (0 ∈ m.content)) then (true, [], rest)
        else (false, m.passed list old, rest)) := by
  have hcontent : m.data.take m.size = m.content := rfl
  rw [candidate_eq _ _ m.length_data m.size_le, hcontent, Member.passed, Member.installed, h,
    Bool.true_and]
  by_cases hfile : old m.name = some m.content
  · rw [if_pos hfile, decide_eq_true hfile, Bool.true_and, Bool.and_true, ← not_isNone]
    cases list.isNone with
    | false => rfl
    | true =>
      rw [Bool.true_and, decide_not, Bool.not_true, Bool.false_or, if_pos rfl]
      cases decide (0 ∈ m.content) <;> rfl
  · rw [if_neg hfile, decide_eq_false hfile, Bool.false_and, Bool.and_false]
    rfl

variable (list old rest)

theorem memberPass_after (m : Member) (hpend : s.pend = m.exts.flatMap Ext.bytes)
    (hheld : s.held = heldOf m.exts) :
    ∃ s', memberPass list old s m.hdr (m.data ++ rest) = some s' ∧ s'.inp = rest ∧
      After list old s (.one m) (m.judge list old s.done) s' := by
  have hname : nameOf s.held m.hdr = m.name := by rw [hheld, Member.name]
  have hlink : linkOf s.held m.hdr = m.link := by rw [hheld, Member.link]
  have hsize : sizeOf s.held m.hdr = m.size := by rw [hheld, Member.size]
  have hhead : s.pend ++ m.hdr = m.head := by rw [hpend, Member.head]
  have hlisted : (isRegular (typeOf m.hdr) && !s.held.paxXattr && wanted list m.name) =
      m.listed list := by
    rw [hheld, Member.listed, Member.regular]
  unfold memberPass Member.judge
  dsimp only
  rw [hname, hlink, hsize, hlisted, hhead]
  by_cases hl : typeOf m.hdr = byte '1' ∧ among s.done m.link
  · rw [if_pos hl, if_pos hl, Member.data_of_link hl.1]
    exact ⟨_, rfl, rfl, rfl, rfl, rfl, rfl, rfl, rfl, rfl⟩
  rw [if_neg hl, if_neg hl]
  cases hc : m.listed list with
  | false =>
    -- passed on as it is
    have hnot : m.installed list old = false := by rw [Member.installed, hc, Bool.false_and]
    have hpassed : m.passed list old = m.head ++ m.data := by
      rw [Member.passed, hnot, Bool.and_false, if_neg Bool.false_ne_true, Member.bytes]
    rw [if_neg Bool.false_ne_true, hnot, Bool.false_and, if_neg Bool.false_ne_true,
      copyBlocks_eq m.length_data]
    refine ⟨_, rfl, rfl, rfl, rfl, ?_, rfl, (append_nil _).symm, rfl, rfl⟩
    exact congrArg (s.out ++ ·) hpassed.symm
  | true =>
    have hregular : m.regular := by
      unfold Member.listed at hc
      rw [Bool.and_eq_true, Bool.and_eq_true] at hc
      exact hc.1.1
    have hkib : (Item.one m).kib = kib m.size := if_pos hregular
    rw [if_pos rfl, Member.candidate_of_listed hc]
    cases m.installed list old && (list.isSome || decide (0 ∈ m.content)) with
    | true => exact ⟨_, rfl, rfl, rfl, rfl, rfl, rfl, rfl, congrArg (s.leftOut + ·) hkib.symm, rfl⟩
    | false =>
      exact ⟨_, rfl, rfl, rfl, rfl, rfl, rfl, (append_nil _).symm, rfl,
        congrArg (s.written + ·) hkib.symm⟩

theorem filterPass_member (m : Member) (hinp : s.inp = m.hdr ++ m.data ++ rest)
    (hpend : s.pend = m.exts.flatMap Ext.bytes) (hheld : s.held = heldOf m.exts) :
    ∃ s', filterPass list old s = .inl s' ∧ s'.inp = rest ∧
      After list old s (.one m) (m.judge list old s.done) s' := by
  obtain ⟨s', hs', hrest, hafter⟩ := memberPass_after list old rest m hpend hheld
  refine ⟨s', ?_, hrest, hafter⟩
  unfold filterPass
  rw [hinp, append_assoc, readFull_append m.hdr_length]
  dsimp only
  rw [m.nonzero, if_neg Bool.false_ne_true, m.not_ext, if_neg Bool.false_ne_true,
    if_neg m.not_global, hs']

/-! ## The whole stream -/

variable {rest} (items : List Item)

theorem upTo_exts (exts : List Ext) (n : ℕ) (hinp : s.inp = exts.flatMap Ext.bytes ++ rest) :
    Loop.upTo (filterPass list old) none (n + exts.length) s =
      Loop.upTo (filterPass list old) none n
        { s with
          inp := rest
          pend := s.pend ++ exts.flatMap Ext.bytes
          held := exts.foldl (fun h e => h.hold e.hdr e.data) s.held } := by
  induction exts generalizing s with
  | nil =>
    obtain rfl : s.inp = rest := hinp
    rw [flatMap_nil, append_nil]
    rfl
  | cons e exts ih =>
    rw [flatMap_cons, append_assoc] at hinp
    rw [length_cons, ← Nat.add_assoc, Loop.upTo_of_inl (filterPass_ext e hinp), ih rfl,
      flatMap_cons, foldl_cons, append_assoc]

theorem upTo_item (i : Item) (hinp : s.inp = i.bytes ++ rest) (hpend : s.pend = [])
    (hheld : s.held = {}) :
    ∃ s', (∀ n, Loop.upTo (filterPass list old) none (n + i.headers) s =
      Loop.upTo (filterPass list old) none n s') ∧
      s'.inp = rest ∧ After list old s i (i.judge list old s.done) s' := by
  cases i with
  | all g =>
    refine ⟨_, fun n => Loop.upTo_of_inl (filterPass_global g hinp hpend), rfl, rfl, hheld, rfl,
      rfl, ?_, rfl, rfl⟩
    exact (append_nil _).symm
  | one m =>
    have hexts : s.inp = m.exts.flatMap Ext.bytes ++ (m.hdr ++ m.data ++ rest) := by
      rw [hinp, Item.bytes, Member.bytes, Member.head, append_assoc, append_assoc, append_assoc]
    obtain ⟨s', hpass, hrest, hafter⟩ := filterPass_member list old rest
      (s := { s with
        inp := m.hdr ++ m.data ++ rest
        pend := s.pend ++ m.exts.flatMap Ext.bytes
        held := m.exts.foldl (fun h e => h.hold e.hdr e.data) s.held })
      m rfl (by rw [hpend, nil_append]) (by rw [hheld, heldOf])
    refine ⟨s', fun n => ?_, hrest, hafter.pend, hafter.held, hafter.out, hafter.done, hafter.log,
      hafter.leftOut, hafter.written⟩
    rw [Item.headers, Nat.add_comm m.exts.length, ← Nat.add_assoc,
      upTo_exts list old m.exts (n + 1) hexts, Loop.upTo_of_inl hpass]

theorem upTo_items (hinp : s.inp = items.flatMap Item.bytes ++ rest) (hpend : s.pend = [])
    (hheld : s.held = {}) :
    ∃ s', (∀ n, Loop.upTo (filterPass list old) none (n + (items.map Item.headers).sum) s =
        Loop.upTo (filterPass list old) none n s') ∧
      s'.inp = rest ∧ s'.pend = [] ∧
      s'.out = s.out ++ (sift list old s.done items).flatMap (fun j => j.1.output list old j.2) ∧
      s'.log = s.log ++ (sift list old s.done items).flatMap (fun j => j.1.lines j.2) ∧
      s'.leftOut = s.leftOut + total .left (sift list old s.done items) ∧
      s'.written = s.written + total .kept (sift list old s.done items) := by
  induction items generalizing s with
  | nil =>
    refine ⟨s, fun n => rfl, hinp, hpend, ?_, ?_, rfl, rfl⟩
    · exact (append_nil _).symm
    · exact (append_nil _).symm
  | cons i items ih =>
    rw [flatMap_cons, append_assoc] at hinp
    obtain ⟨s₁, hrun₁, hinp₁, hafter⟩ := upTo_item list old i hinp hpend hheld
    obtain ⟨s₂, hrun₂, hinp₂, hpend₂, hout, hlog, hleft, hwritten⟩ :=
      ih hinp₁ hafter.pend hafter.held
    refine ⟨s₂, fun n => ?_, hinp₂, hpend₂, ?_, ?_, ?_, ?_⟩
    · rw [map_cons, sum_cons, Nat.add_comm i.headers, ← Nat.add_assoc, hrun₁, hrun₂]
    · rw [hout, hafter.out, hafter.done, append_assoc, sift, flatMap_cons]
    · rw [hlog, hafter.log, hafter.done, append_assoc, sift, flatMap_cons]
    · rw [hleft, hafter.leftOut, hafter.done, sift, total, total, map_cons, sum_cons, Nat.add_assoc]
    · rw [hwritten, hafter.written, hafter.done, sift, total, total, map_cons, sum_cons,
        Nat.add_assoc]

theorem headers_le : (items.map Item.headers).sum ≤ (items.flatMap Item.bytes).length := by
  induction items with
  | nil => exact Nat.le_refl 0
  | cons i items ih =>
    have hi : i.headers ≤ i.bytes.length := by
      cases i with
      | all g =>
        rw [Item.headers, Item.bytes, length_append, g.hdr_length]
        omega
      | one m =>
        have hexts : m.exts.length ≤ (m.exts.flatMap Ext.bytes).length := by
          induction m.exts with
          | nil => exact Nat.le_refl 0
          | cons e exts ih =>
            rw [flatMap_cons, length_append, length_cons, Ext.bytes, length_append, e.hdr_length]
            omega
        rw [Item.headers, Item.bytes, Member.bytes, Member.head, length_append, length_append,
          m.hdr_length]
        omega
    rw [map_cons, sum_cons, flatMap_cons, length_append]
    omega

theorem tarfilter_stream (tail : Raw) :
    tarfilter list old (stream items tail) =
      some ((sift list old [] items).flatMap (fun j => j.1.output list old j.2) ++
        (replicate 512 0 ++ tail), (sift list old [] items).flatMap (fun j => j.1.lines j.2) ++
          [.E (total .left (sift list old [] items)) (total .kept (sift list old [] items))]) := by
  obtain ⟨s', hrun, hinp, hpend, hout, hlog, hleft, hwritten⟩ :=
    upTo_items list old (s := { inp := stream items tail }) items rfl rfl rfl
  obtain ⟨n, hn⟩ : ∃ n, (stream items tail).length = n + (items.map Item.headers).sum := by
    have hle := headers_le items
    refine ⟨(stream items tail).length - (items.map Item.headers).sum, ?_⟩
    rw [stream, length_append]
    omega
  have hpass : filterPass list old s' = .inr (some (s'.out ++ (replicate 512 0 ++ tail),
      s'.log ++ [.E s'.leftOut s'.written])) := by
    unfold filterPass
    rw [hinp, readFull_append length_replicate]
    dsimp only
    rw [if_pos (by rw [all_replicate]; rfl), hpend, if_neg (fun h => h rfl), append_assoc]
  unfold tarfilter Loop.run
  dsimp only
  rw [hn, Nat.add_right_comm, hrun, Loop.upTo_of_inr hpass, hout, hlog, hleft, hwritten,
    nil_append, nil_append, Nat.zero_add, Nat.zero_add]

end Passes

theorem map_fst_sift (done : List Raw) (items : List Item) :
    (sift list old done items).map Prod.fst = items := by
  induction items generalizing done with
  | nil => rfl
  | cons i items ih => rw [sift, map_cons, ih]

/-- **The filter is exact.** What comes out of a stream is what went in without the groups of blocks
of the members that the log names as left out, everything else in its order, and the last line of
the log is the size of the regular files left out and written. A member that is written is written
as it is, but for this: with the list `*`, a text that the installed system has byte for byte is
written with zeros behind it, whatever its last block was filled with. -/
theorem tarfilter_exact (list : Option (List Raw)) (old : Raw → Option Raw) (items : List Item)
    (tail : Raw) :
    (sift list old [] items).map Prod.fst = items ∧ tarfilter list old (stream items tail) =
        some ((sift list old [] items).flatMap (fun j => j.1.output list old j.2) ++
          (replicate 512 0 ++ tail), (sift list old [] items).flatMap (fun j => j.1.lines j.2) ++
            [.E (total .left (sift list old [] items)) (total .kept (sift list old [] items))]) ∧
      ∀ m : Member, list.isSome ∨ m.data.drop m.size = replicate (m.data.length - m.size) 0 →
        m.passed list old = m.bytes := by
  refine ⟨map_fst_sift list old [] items, tarfilter_stream list old items tail, ?_⟩
  rintro m (hlist | hzeros)
  · obtain ⟨paths, rfl⟩ := isSome_iff_exists.1 hlist
    rfl
  · exact m.passed_eq_bytes list old hzeros

/-- A file `a` with one letter, its block filled with ones. -/
def filled : Member where
  exts := []
  hdr := ascii "a" ++ replicate 123 0 ++ ascii "1" ++ replicate 31 0 ++ ascii "0" ++ replicate 355 0
  data := ascii "a" ++ replicate 511 1
  hdr_length := by
    simp only [length_append, length_replicate]
    decide
  nonzero := by decide
  not_ext := by decide
  not_global := by decide
  data_length := by
    simp only [length_append, length_replicate]
    decide

/-- Nothing is left out, and yet the filling is not written. -/
theorem filling_lost :
    ∃ out, tarfilter none (fun _ => some (ascii "a")) (stream [.one filled] []) =
      some (out, [.E 0 4]) ∧ out ≠ stream [.one filled] [] := by
  have hjudge : Item.judge none (fun _ => some (ascii "a")) [] (.one filled) = .kept := by decide
  have hkib : (Item.one filled).kib = 4 := by decide
  have hout : filled.passed none (fun _ => some (ascii "a")) =
      filled.head ++ filled.content ++ replicate (filled.data.length - filled.size) 0 :=
        if_pos (by decide)
  have hrun := tarfilter_stream none (fun _ => some (ascii "a")) [.one filled] []
  rw [sift, hjudge, sift] at hrun
  refine ⟨filled.passed none (fun _ => some (ascii "a")) ++ (replicate 512 0 ++ []), ?_,
    fun heq => ?_⟩
  · rw [hrun, flatMap_singleton, flatMap_singleton, total, total, map_singleton, map_singleton,
      sum_singleton, sum_singleton, if_neg (by decide), if_pos rfl, hkib]
    rfl
  · rw [stream, flatMap_singleton, Item.bytes, Member.bytes, hout, append_assoc filled.head] at heq
    have hcontent : filled.content = ascii "a" := by decide
    have hdata := append_cancel_left (append_cancel_right heq)
    generalize filled.data.length - filled.size = n at hdata
    have hfill : (replicate n 0 : Raw) = replicate 511 1 := append_cancel_left hdata
    have hone : (1 : UInt8) ∈ replicate 511 1 := mem_replicate.2 ⟨by decide, rfl⟩
    rw [← hfill] at hone
    exact absurd (eq_of_mem_replicate hone) (by decide)

end Mu300.TarStream
