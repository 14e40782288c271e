import Mu300.Lib.Awk
import Mu300.Sms.Group

/-!
# From decoded records to the pool

What `sync` of `mu300-sms` makes of decoded records: `decode_list` puts the parts of each message
together and prints a line for it, `absorb` reads the lines with `IFS=TAB read`, and `take` stores
what it read.

* `entries` — the table of the last awk program of `decode_list`, by key.
* `sync_stores_iff` — this is what is stored, unless a field in front of another one is empty:
  `read` takes tabs for white space, so the fields behind an empty one move up.
-/

namespace Mu300.Sms

open Shell List

/-! ## Putting parts together -/

/-- The index of a record is `SLOT:STAT`. -/
def slotOf (idx : Text) : Text := idx.takeWhile (· ≠ ':')

/-- `0` for a message that was not read yet. -/
def statOf (idx : Text) : Text := (idx.splitOn ':').getD 1 []

structure Entry where
  slots : List Text
  unread : Bool
  snd : Text
  ts : Text
  body : List (ℕ × Text)
  parts : ℕ

def Entry.start (r : Record) : Entry := ⟨[], false, r.sender, r.ts, [], 0⟩

/-- Every record of a key; the first part dates the message. -/
def Entry.add (e : Entry) (r : Record) : Entry where
  slots := e.slots ++ [slotOf r.idx]
  unread := e.unread || statOf r.idx = ['0']
  snd := e.snd
  ts := if r.part = 1 then r.ts else e.ts
  body := (r.part, r.text) :: e.body
  parts := max e.parts r.total

def entries (krs : List (Text × Record)) : List (Text × Entry) :=
  Awk.table (fun p => Entry.start p.2) (fun e p => e.add p.2) Prod.fst krs

/-- What stands for a part that is missing. -/
def gap : Text := ['[', '.', '.', '.', ']']

namespace Entry

variable (e : Entry)

def whole : Bool := (range e.parts).all fun p => (e.body.lookup (p + 1)).isSome

def present : ℕ := (range e.parts).countP fun p => (e.body.lookup (p + 1)).isSome

def text : Text := (range e.parts).flatMap fun p => (e.body.lookup (p + 1)).getD gap

/-- The slots as they are printed. -/
def indexes : Text := [','].intercalate e.slots

def flag : Text := if e.unread then ['1'] else ['0']

def line : Text := ['\t'].intercalate [e.indexes, e.flag, e.snd, e.ts, e.text]

/-- The line of a message with missing parts. -/
def partialLine (k : Text) : Text :=
  ['\t'].intercalate [k, e.indexes, e.flag, e.snd, e.ts,
    decimal e.present ++ '/' :: decimal e.parts, e.text]

end Entry

/-! ## Taking messages -/

structure Message where
  sender : Text
  ts : Text
  text : Text
  deriving DecidableEq

/-- What the pool knows, and how things turn out. -/
structure Pool where
  md5 : Text → Text
  /-- the tombstones -/
  deleted : List Text
  /-- the fingerprints of the messages that are there -/
  fps : List Text
  /-- a message with missing parts is taken: it has waited, or its other parts were -/
  due : List Text → Bool
  /-- the disk takes it -/
  stores : Message → Bool

def Pool.fingerprint (pool : Pool) (m : Message) : Text :=
  pool.md5 (m.sender ++ '|' :: (m.ts ++ '|' :: m.text))

/-- A message that was taken, and the key it had. -/
structure Taken where
  key : Text
  stored : Message
  deriving DecidableEq

/-- The fingerprints so far, and what was taken. -/
structure Absorbed where
  fps : List Text
  taken : List Taken

/-- `known_or_dead || take`. -/
def Absorbed.take (pool : Pool) (st : Absorbed) (k : Text) (m : Message) : Absorbed :=
  let fp := pool.fingerprint m
  if fp ∈ pool.deleted ∨ fp ∈ st.fps then st
  else if pool.stores m then ⟨fp :: st.fps, st.taken ++ [⟨k, m⟩]⟩
  else st

/-- The variables that a message is taken from. -/
def messageAt (vars : List Text) (sender ts text : ℕ) : Message :=
  ⟨vars.getD sender [], vars.getD ts [], vars.getD text []⟩

/-- A line of a whole message: `_idx _unread _from _ts _text`. -/
def Absorbed.whole (pool : Pool) (st : Absorbed) (p : Text × Entry) : Absorbed :=
  let vars := readTabs 5 p.2.line
  if vars.getD 0 [] = [] then st else st.take pool p.1 (messageAt vars 2 3 4)

/-- A line of the others: `_key _idx _unread _from _ts _have _text`. -/
def Absorbed.part (pool : Pool) (st : Absorbed) (p : Text × Entry) : Absorbed :=
  let vars := readTabs 7 (p.2.partialLine p.1)
  if vars.getD 0 [] = [] ∨ ¬ pool.due vars then st else st.take pool p.1 (messageAt vars 3 4 6)

/-- **What sync takes** from decoded records: the whole messages, and then the others. -/
def taken (pool : Pool) (same : Text → Text → Bool) (partials : List Text) (rs : List Record) :
    List Taken :=
  let es := entries (keyed same partials rs)
  let st := (es.filter fun p => p.2.whole).foldl (Absorbed.whole pool) ⟨pool.fps, []⟩
  ((es.filter fun p => ¬ p.2.whole).foldl (Absorbed.part pool) st).taken

/-! ## What records stand for -/

def recordsOf (same : Text → Text → Bool) (partials : List Text) (rs : List Record) (k : Text) :
    List Record :=
  ((keyed same partials rs).filter fun p => p.1 = k).map Prod.snd

variable (recs : List Record)

def senderOf : Text := (recs.head?.map Record.sender).getD []

def totalOf : ℕ := (recs.head?.map Record.total).getD 0

/-- The text of a part, as it came last. -/
def partText (p : ℕ) : Option Text := (Awk.last? Record.part p recs).map Record.text

/-- The time of the first part, else of the first record. -/
def timeOf : Text :=
  (((Awk.last? Record.part 1 recs).or recs.head?).map Record.ts).getD []

/-- The texts in the order of the parts. -/
def textOf : Text :=
  (range (totalOf recs)).flatMap fun p => (partText recs (p + 1)).getD gap

def Whole : Prop := ∀ p < totalOf recs, (partText recs (p + 1)).isSome

instance : Decidable (Whole recs) := Nat.decidableBallLT _ _

/-- A message has the sender, the time and the text that the decoder gave it. -/
structure Given (recs : List Record) (m : Message) : Prop where
  nonempty : recs ≠ []
  sender : ∀ r ∈ recs, m.sender = r.sender
  ts : m.ts = timeOf recs
  text : m.text = textOf recs

/-- No field of the line is empty in front of one that is not. -/
def Aligned : Prop :=
  if Whole recs then
    (senderOf recs = [] → timeOf recs = [] ∧ textOf recs = []) ∧
      (timeOf recs = [] → textOf recs = [])
  else senderOf recs ≠ [] ∧ timeOf recs ≠ []

instance : Decidable (Aligned recs) := by
  unfold Aligned
  infer_instance

/-- A record as the decoder makes it. -/
structure Record.Decoded (r : Record) : Prop where
  plain : r.Plain
  part : 1 ≤ r.part ∧ r.part ≤ r.total

/-- A record of a PDU from a slot. -/
structure Record.Slotted (r : Record) : Prop extends r.Decoded where
  slot : slotOf r.idx ≠ []

/-! ## The table and the records -/

theorem last?_concat (r : Record) (p : ℕ) : Awk.last? Record.part p (recs ++ [r]) =
      if r.part = p then some r else Awk.last? Record.part p recs := by
  rw [Awk.last?, reverse_append, reverse_singleton, singleton_append, find?_cons]
  by_cases h : r.part = p
  · simp [h]
  · simp [h, Awk.last?]

/-- What the table has for a key after all of its records. -/
structure Entry.Of (r₀ : Record) (recs : List Record) (e : Entry) : Prop where
  snd : e.snd = r₀.sender
  slots : e.slots = recs.map fun r => slotOf r.idx
  body : ∀ p, e.body.lookup p = partText recs p
  ts : e.ts = ((Awk.last? Record.part 1 recs).map Record.ts).getD r₀.ts
  parts : e.parts = (recs.map Record.total).foldl max 0

theorem Entry.of_foldl (r₀ : Record) (recs : List Record) :
    Entry.Of r₀ recs (recs.foldl Entry.add (Entry.start r₀)) := by
  induction recs using reverseRecOn with
  | nil => exact ⟨rfl, rfl, fun _ => rfl, rfl, rfl⟩
  | append_singleton recs r ih =>
    rw [foldl_append, foldl_cons, foldl_nil]
    refine ⟨ih.snd, ?_, fun p => ?_, ?_, ?_⟩
    · rw [Entry.add, ih.slots, map_append]
      rfl
    · rw [Entry.add, partText, last?_concat, lookup_cons]
      by_cases h : r.part = p
      · simp [h]
      · have hp : (p == r.part) = false := by simpa using Ne.symm h
        rw [hp, if_neg h]
        exact ih.body p
    · rw [Entry.add, last?_concat]
      by_cases h : r.part = 1
      · rw [if_pos h, if_pos h]
        rfl
      · rw [if_neg h, if_neg h]
        exact ih.ts
    · rw [Entry.add, ih.parts, map_append, foldl_append]
      rfl

section Sync

variable {same : Text → Text → Bool} {partials : List Text} {rs recs : List Record} {k : Text}
  {e : Entry} {r : Record} {pool : Pool} {t : Taken}

theorem mem_recordsOf : r ∈ recordsOf same partials rs k ↔ (k, r) ∈ keyed same partials rs := by
  simp [recordsOf]

theorem recordsOf_same {r' : Record} (h : r ∈ recordsOf same partials rs k)
    (h' : r' ∈ recordsOf same partials rs k) : r.sender = r'.sender ∧ r.total = r'.total := by
  rcases keyed_same (mem_recordsOf.1 h) (mem_recordsOf.1 h') with rfl | ⟨-, hs, -, ht⟩
  · exact ⟨rfl, rfl⟩
  · exact ⟨hs, ht⟩

theorem foldl_max {n : ℕ} {ns : List ℕ} (h : ∀ m ∈ ns, m = n) (hne : ns ≠ []) :
    ns.foldl max 0 = n := by
  obtain ⟨m, ns, rfl⟩ := exists_cons_of_ne_nil hne
  obtain ⟨rfl, hns⟩ := forall_mem_cons.1 h
  rw [foldl_cons, Nat.zero_max]
  exact foldlRecOn (motive := (· = m)) ns _ rfl fun a ha k hk => by rw [ha, hns k hk, Nat.max_self]

/-- **An entry** is what the records of its key stand for. -/
structure Entry.For (recs : List Record) (e : Entry) : Prop where
  nonempty : recs ≠ []
  senders : ∀ r ∈ recs, e.snd = r.sender
  slots : e.slots = recs.map fun r => slotOf r.idx
  snd : e.snd = senderOf recs
  ts : e.ts = timeOf recs
  text : e.text = textOf recs
  whole : e.whole ↔ Whole recs

theorem entry_for (h : (k, e) ∈ entries (keyed same partials rs)) :
    e.For (recordsOf same partials rs k) := by
  obtain ⟨⟨k₀, r₀⟩, hhead, hfold⟩ := Awk.of_mem_table h
  have hrecs : (recordsOf same partials rs k).head? = some r₀ := by
    rw [recordsOf, head?_map, hhead]
    rfl
  have hr₀ : r₀ ∈ recordsOf same partials rs k := mem_of_head? hrecs
  have hne : recordsOf same partials rs k ≠ [] := ne_nil_of_mem hr₀
  have hof : Entry.Of r₀ (recordsOf same partials rs k) e := by
    rw [hfold, recordsOf, ← foldl_map]
    exact Entry.of_foldl r₀ _
  have htotal : totalOf (recordsOf same partials rs k) = r₀.total := by rw [totalOf, hrecs]; rfl
  have hparts : e.parts = totalOf (recordsOf same partials rs k) := by
    rw [hof.parts, htotal]
    refine foldl_max (fun m hm => ?_) (by simpa using hne)
    obtain ⟨r, hr, rfl⟩ := mem_map.1 hm
    exact (recordsOf_same hr hr₀).2
  refine ⟨hne, fun r hr => ?_, hof.slots, ?_, ?_, ?_, ?_⟩
  · rw [hof.snd]
    exact (recordsOf_same hr₀ hr).1
  · rw [hof.snd, senderOf, hrecs]
    rfl
  · rw [hof.ts, timeOf, hrecs]
    rcases Awk.last? Record.part 1 (recordsOf same partials rs k) with _ | r
    · rfl
    · rfl
  · rw [Entry.text, textOf, hparts]
    exact flatMap_congr fun p _ => by rw [hof.body]
  · rw [Entry.whole, hparts, all_eq_true, Whole]
    simp [hof.body]

/-! ## Lines -/

theorem Record.Plain.tabless (h : r.Plain) {f : Text} (hf : f ∈ r.fields) : '\t' ∉ f :=
  fun hm => (h f hf '\t' hm).1 rfl

theorem tabless_timeOf (h : ∀ r ∈ recs, r.Plain) : '\t' ∉ timeOf recs := by
  rw [timeOf]
  rcases hr : (Awk.last? Record.part 1 recs).or recs.head? with _ | r
  · exact not_mem_nil
  · have hmem : r ∈ recs := by
      rcases hl : Awk.last? Record.part 1 recs with _ | r'
      · rw [hl] at hr
        exact mem_of_head? hr
      · rw [hl] at hr
        cases hr
        exact Awk.mem_of_last? hl
    exact (h r hmem).tabless (by simp [Record.fields])

theorem tabless_textOf (h : ∀ r ∈ recs, r.Plain) : '\t' ∉ textOf recs := by
  intro hm
  obtain ⟨p, -, hp⟩ := mem_flatMap.1 hm
  rcases hr : Awk.last? Record.part (p + 1) recs with _ | r
  · rw [partText, hr] at hp
    exact absurd hp (by decide)
  · rw [partText, hr] at hp
    exact (h r (Awk.mem_of_last? hr)).tabless (by simp [Record.fields]) hp

structure Entry.Fields (e : Entry) : Prop where
  indexes : e.indexes ≠ [] ∧ '\t' ∉ e.indexes
  snd : '\t' ∉ e.snd
  ts : '\t' ∉ e.ts
  text : '\t' ∉ e.text

theorem Entry.For.fields (h : e.For recs) (hdec : ∀ r ∈ recs, r.Slotted) : e.Fields := by
  have hplain : ∀ r ∈ recs, r.Plain := fun r hr => (hdec r hr).plain
  obtain ⟨r, recs', hrecs⟩ := exists_cons_of_ne_nil h.nonempty
  have hr : r ∈ recs := by rw [hrecs]; exact mem_cons_self
  refine ⟨⟨?_, ?_⟩, ?_, ?_, ?_⟩
  · have hslot := (hdec r hr).slot
    rw [Entry.indexes, h.slots, hrecs]
    rcases recs' with _ | ⟨r', recs'⟩
    · rwa [map_singleton, intercalate_singleton]
    · simp
  · rw [Entry.indexes, h.slots]
    intro hm
    obtain hm | ⟨f, hf, hm⟩ := mem_intercalate hm
    · cases hm
    · obtain ⟨r', hr', rfl⟩ := mem_map.1 hf
      exact (hplain r' hr').tabless (by simp [Record.fields]) (takeWhile_subset _ hm)
  · rw [h.senders r hr]
    exact (hplain r hr).tabless (by simp [Record.fields])
  · rw [h.ts]
    exact tabless_timeOf hplain
  · rw [h.text]
    exact tabless_textOf hplain

theorem Entry.flag_ne_nil (e : Entry) : e.flag ≠ [] ∧ '\t' ∉ e.flag := by
  rw [Entry.flag]
  split <;> decide

theorem read_line (h : e.Fields) :
    readTabs 5 e.line = e.indexes :: e.flag :: ([e.snd, e.ts, e.text].filter (· ≠ []) ++
      replicate (3 - ([e.snd, e.ts, e.text].filter (· ≠ [])).length) []) := by
  have htab : ∀ f ∈ [e.indexes, e.flag, e.snd, e.ts, e.text], '\t' ∉ f := by
    simp [h.indexes.2, e.flag_ne_nil.2, h.snd, h.ts, h.text]
  rw [Entry.line, readTabs_intercalate htab (n := 5) le_rfl,
    filter_cons_of_pos (by simpa using h.indexes.1),
    filter_cons_of_pos (by simpa using e.flag_ne_nil.1), length_cons, length_cons,
      cons_append, cons_append]
  congr 4
  omega

theorem read_partialLine (h : e.Fields) (hk : k ≠ [] ∧ '\t' ∉ k) :
    readTabs 7 (e.partialLine k) = k :: e.indexes :: e.flag ::
      ([e.snd, e.ts, decimal e.present ++ '/' :: decimal e.parts, e.text].filter (· ≠ []) ++
        replicate (4 - ([e.snd, e.ts, decimal e.present ++ '/' :: decimal e.parts,
          e.text].filter (· ≠ [])).length) []) := by
  have hdec : ∀ n, '\t' ∉ decimal n := fun n hm => (plain_decimal n '\t' hm).1 rfl
  have htab : ∀ f ∈ [k, e.indexes, e.flag, e.snd, e.ts, decimal e.present ++ '/' :: decimal e.parts,
      e.text], '\t' ∉ f := by
    simp [hk.2, h.indexes.2, e.flag_ne_nil.2, h.snd, h.ts, hdec, h.text]
  rw [Entry.partialLine, readTabs_intercalate htab (n := 7) le_rfl,
    filter_cons_of_pos (by simpa using hk.1),
    filter_cons_of_pos (by simpa using h.indexes.1),
      filter_cons_of_pos (by simpa using e.flag_ne_nil.1), length_cons,
    length_cons, length_cons, cons_append, cons_append, cons_append]
  congr 5
  omega

theorem whole_iff (h : e.Fields) : messageAt (readTabs 5 e.line) 2 3 4 = ⟨e.snd, e.ts, e.text⟩ ↔
      (e.snd = [] → e.ts = [] ∧ e.text = []) ∧ (e.ts = [] → e.text = []) := by
  rw [read_line h, messageAt]
  rcases e.snd with _ | ⟨a, snd⟩ <;> rcases e.ts with _ | ⟨b, ts⟩ <;>
    rcases e.text with _ | ⟨c, text⟩ <;> simp

theorem partial_iff (h : e.Fields) (hk : k ≠ [] ∧ '\t' ∉ k) (htext : e.text ≠ []) :
    messageAt (readTabs 7 (e.partialLine k)) 3 4 6 = ⟨e.snd, e.ts, e.text⟩ ↔
      e.snd ≠ [] ∧ e.ts ≠ [] := by
  have hhave : decimal e.present ++ '/' :: decimal e.parts ≠ [] := by simp
  rw [read_partialLine h hk, messageAt]
  obtain ⟨c, text, hc⟩ := exists_cons_of_ne_nil htext
  obtain ⟨d, rest, hd⟩ := exists_cons_of_ne_nil hhave
  rw [hc, hd]
  rcases e.snd with _ | ⟨a, snd⟩ <;> rcases e.ts with _ | ⟨b, ts⟩ <;> simp

theorem text_ne_nil (h : ¬ e.whole) : e.text ≠ [] := by
  rw [Entry.whole, all_eq_true] at h
  push Not at h
  obtain ⟨p, hp, hnone⟩ := h
  have hgap : (e.body.lookup (p + 1)).getD gap = gap := by
    rcases hl : e.body.lookup (p + 1) with _ | t
    · rfl
    · rw [hl] at hnone
      exact absurd rfl hnone
  intro hnil
  have := flatMap_eq_nil_iff.1 hnil p hp
  rw [hgap] at this
  exact absurd this (by decide)

/-! ## What is stored -/

def readOf (k : Text) (e : Entry) : Message :=
  if e.whole then messageAt (readTabs 5 e.line) 2 3 4
  else messageAt (readTabs 7 (e.partialLine k)) 3 4 6

theorem of_mem_take {st : Absorbed} {m : Message} (h : t ∈ (st.take pool k m).taken) :
    t ∈ st.taken ∨ t = ⟨k, m⟩ := by
  simp only [Absorbed.take] at h
  split_ifs at h
  · exact .inl h
  · exact (mem_append.1 h).imp_right mem_singleton.1
  · exact .inl h

theorem taken_read (h : t ∈ taken pool same partials rs) :
    ∃ e, (t.key, e) ∈ entries (keyed same partials rs) ∧ t.stored = readOf t.key e := by
  set es := entries (keyed same partials rs) with hes
  have hwhole : ∀ t ∈ ((es.filter fun p => p.2.whole).foldl (Absorbed.whole pool)
    ⟨pool.fps, []⟩).taken,
      ∃ e, (t.key, e) ∈ es ∧ t.stored = readOf t.key e := by
    refine foldlRecOn (motive := fun st : Absorbed => ∀ t ∈ st.taken,
      ∃ e, (t.key, e) ∈ es ∧ t.stored = readOf t.key e) _ (Absorbed.whole pool) ?_ ?_
    · exact fun _ h => nomatch h
    intro st hst p hp t ht
    obtain ⟨hmem, hw⟩ := mem_filter.1 hp
    simp only [Absorbed.whole] at ht
    split_ifs at ht
    · exact hst t ht
    · rcases of_mem_take ht with ht | rfl
      · exact hst t ht
      · exact ⟨p.2, hmem, by rw [readOf, if_pos hw]⟩
  refine foldlRecOn (motive := fun st : Absorbed => ∀ t ∈ st.taken,
    ∃ e, (t.key, e) ∈ es ∧ t.stored = readOf t.key e) _ (Absorbed.part pool) hwhole ?_ t h
  intro st hst p hp t ht
  obtain ⟨hmem, hw⟩ := mem_filter.1 hp
  simp only [Absorbed.part] at ht
  split_ifs at ht
  · exact hst t ht
  · rcases of_mem_take ht with ht | rfl
    · exact hst t ht
    · exact ⟨p.2, hmem, by rw [readOf, if_neg (by simpa using hw)]⟩

/-- One message: it is stored as it was given exactly if its fields are read as they are. -/
theorem given_iff (hrs : ∀ r ∈ rs, r.Slotted) (h : (k, e) ∈ entries (keyed same partials rs)) :
    Given (recordsOf same partials rs k) (readOf k e) ↔ Aligned (recordsOf same partials rs k) := by
  have hfor := entry_for h
  have hdec : ∀ r ∈ recordsOf same partials rs k, r.Slotted := fun r hr =>
    hrs r (mem_of_mem_keyed (mem_recordsOf.1 hr))
  have hfields := hfor.fields hdec
  have hgiven : Given (recordsOf same partials rs k) (readOf k e) ↔
      readOf k e = ⟨e.snd, e.ts, e.text⟩ := by
    constructor
    · intro hg
      obtain ⟨r, hr⟩ := exists_mem_of_ne_nil _ hfor.nonempty
      rw [Message.mk.injEq, hfor.senders r hr, hfor.ts, hfor.text]
      exact ⟨hg.sender r hr, hg.ts, hg.text⟩
    · intro heq
      rw [heq]
      exact ⟨hfor.nonempty, hfor.senders, hfor.ts, hfor.text⟩
  rw [hgiven, readOf, Aligned, ← hfor.snd, ← hfor.ts, ← hfor.text]
  by_cases hw : e.whole
  · rw [if_pos hw, if_pos (hfor.whole.1 hw), whole_iff hfields]
  · obtain ⟨r, hr⟩ := exists_mem_of_ne_nil _ hfor.nonempty
    have hkey := key_field (fun r hr => (hrs r hr).plain) (mem_recordsOf.1 hr)
    rw [if_neg hw, if_neg (fun h' => hw (hfor.whole.2 h')),
      partial_iff hfields hkey (text_ne_nil hw)]

/-- **Sync stores what was decoded**, for every list of records: each message it takes has the
sender and the time of its records and their texts in the order of the parts, exactly if no field of
the messages it takes is empty in front of one that is not. -/
theorem sync_stores_iff (pool : Pool) (same : Text → Text → Bool) (partials : List Text)
    (rs : List Record) (hrs : ∀ r ∈ rs, r.Slotted) :
    (∀ t ∈ taken pool same partials rs, Given (recordsOf same partials rs t.key) t.stored) ↔
      ∀ t ∈ taken pool same partials rs, Aligned (recordsOf same partials rs t.key) := by
  refine forall₂_congr fun t ht => ?_
  obtain ⟨e, he, hstored⟩ := taken_read ht
  rw [hstored, given_iff hrs he]

end Sync

/-- A part has a number, from the header, or it is a message of its own. -/
def Header.Numbered (hd : Header) : Prop := hd.ref = none → hd.total = 1 ∧ hd.part = 1

variable {hd : Header}

theorem Header.Numbered.element (h : hd.Numbered) (t : Text) (hend j : ℕ) :
    (hd.element t hend j).Numbered := by
  simp only [Header.element]
  split
  · split
    · exact nofun
    · exact h
  · split
    · exact nofun
    · exact h
  · exact h
  · exact h
  · exact h

theorem Header.Numbered.walk (t : Text) (hend n : ℕ) {j : ℕ} (h : hd.Numbered) :
    (Header.walk t hend n j hd).Numbered := by
  induction n generalizing j hd with
  | zero => exact h
  | succ n ih =>
    rw [Header.walk]
    split
    · exact ih (h.element t hend j)
    · exact h

theorem Header.Numbered.usable (h : hd.Numbered) :
    1 ≤ hd.usable.part ∧ hd.usable.part ≤ hd.usable.total := by
  rw [Header.usable]
  split
  · exact ⟨le_rfl, le_rfl⟩
  · rename_i hbad
    rcases href : hd.ref with _ | ref
    · obtain ⟨htotal, hpart⟩ := h href
      rw [htotal, hpart]
      exact ⟨le_rfl, le_rfl⟩
    · have hsome : hd.ref.isSome := by rw [href]; rfl
      have hrange : ¬ (hd.total < 1 ∨ hd.part < 1 ∨ hd.total < hd.part) :=
        fun hr => hbad ⟨hsome, hr⟩
      omega

/-- A message of its own, read before. -/
def sampleRecord (sender text : Text) : Record :=
  ⟨"3:1", sender, "2026-10-13 09:41:07", none, 1, 1, text⟩

/-- A message in two parts. -/
def sampleParts : List Record :=
  [⟨"3:1", "+49", "2026-10-13 09:41:07", some 42, 2, 1, "hel"⟩,
    ⟨"4:1", "+49", "2026-10-13 09:41:09", some 42, 2, 2, "lo"⟩]

def emptyPool : Pool := ⟨id, [], [], fun _ => false, fun _ => true⟩

/-- A message of two parts is stored. -/
theorem sync_stores_sample :
    (∀ r ∈ sampleParts, r.Slotted) ∧ (taken emptyPool (· = ·) [] sampleParts).length = 1 ∧
      ∀ t ∈ taken emptyPool (· = ·) [] sampleParts,
        Given (recordsOf (· = ·) [] sampleParts t.key) t.stored := by
  have hdec : ∀ r ∈ sampleParts, r.Slotted := by
    rw [sampleParts, forall_mem_cons, forall_mem_singleton]
    constructor
    all_goals
      exact ⟨⟨Record.plain (by decide) (by decide) (by decide) (by decide), by decide⟩, by decide⟩
  exact ⟨hdec, by decide +kernel,
    (sync_stores_iff emptyPool (· = ·) [] _ hdec).2 (by decide +kernel)⟩

/-- No sender: the time is stored as the sender, the text as the time, and no text. -/
theorem empty_sender_shifts :
    (taken emptyPool (· = ·) [] [sampleRecord [] "hello"]).map Taken.stored =
      [⟨"2026-10-13 09:41:07", "hello", []⟩] := by
  decide +kernel

end Mu300.Sms
