import Mu300.Lib.Bytes
import Mu300.Lib.Shell

/-!
# Commands on the device

`shell.js` of the web installer: the packets of adb's shell protocol out of the chunks of a stream,
and a value as one word of a command line.
-/

namespace Mu300.Adb

open Bytes List Shell

abbrev Buf := List UInt8

def readU32le (b : Buf) (off : ℕ) : ℕ := leNat (slice b off 4)

/-- The code of an `AdbError`. -/
inductive Code : Type where
  | protocol
  | closed
  | remote
  | aborted
  deriving DecidableEq

structure AdbError where
  code : Code
  message : String
  deriving DecidableEq

/-! ## Packets -/

structure Packet where
  id : UInt8
  data : Buf
  deriving DecidableEq

/-- The length of a packet that is not believed. -/
def packetMax : ℕ := 16 * 1024 * 1024

/-- The loop of `feed`: the packets that are complete, and the bytes kept. -/
def unpack (b : Buf) : Except AdbError (List Packet × Buf) :=
  if 5 ≤ b.length then
    if packetMax < readU32le b 1 then .error
      ⟨.protocol, "the device sent a shell packet of an impossible size"⟩
    else if b.length < 5 + readU32le b 1 then .ok ([], b)
    else do
      let (out, rest) ← unpack (b.drop (5 + readU32le b 1))
      return (⟨b.headD 0, slice b 5 (readU32le b 1)⟩ :: out, rest)
  else .ok ([], b)
termination_by b.length
decreasing_by simp only [length_drop]; omega

/-- `ShellPacketReader.feed`, with `buf` kept from before. -/
def feed (buf chunk : Buf) : Except AdbError (List Packet × Buf) :=
  unpack (if buf.length ≠ 0 then buf ++ chunk else chunk)

/-- What all calls of `feed` return, one behind the other, and the bytes kept at the end. -/
def feedAll : Buf → List Buf → Except AdbError (List Packet × Buf)
  | buf, [] => .ok ([], buf)
  | buf, chunk :: chunks => do
    let (out, buf) ← feed buf chunk
    let (more, buf) ← feedAll buf chunks
    return (out ++ more, buf)

/-- A packet on the wire: its id, the length of its data and the data. -/
def Packet.bytes (p : Packet) : Buf := p.id :: (leBytes 4 p.data.length ++ p.data)

/-- A stream begins with these packets. -/
def Begins (b : Buf) (ps : List Packet) (rest : Buf) : Prop :=
  (∀ p ∈ ps, p.data.length ≤ packetMax) ∧ b = ps.flatMap Packet.bytes ++ rest

/-- No packet of a stream says that it is longer than a packet may be. -/
def Sized (b : Buf) : Prop :=
  ∀ ps rest, Begins b ps rest → 5 ≤ rest.length → readU32le rest 1 ≤ packetMax

/-- Less than a packet. -/
def Incomplete (b : Buf) : Prop := 5 ≤ b.length → b.length < 5 + readU32le b 1

theorem begins_drop {b : Buf} (h : 5 + readU32le b 1 ≤ b.length)
    (hmax : readU32le b 1 ≤ packetMax) :
    Begins b [⟨b.headD 0, slice b 5 (readU32le b 1)⟩] (b.drop (5 + readU32le b 1)) := by
  have hdata := length_slice_of_le h
  obtain _ | ⟨x, t⟩ := b
  · simp at h
  refine ⟨by simpa [hdata] using hmax, ?_⟩
  have hlen : leBytes 4 (readU32le (x :: t) 1) = t.take 4 :=
    leBytes_leNat (length_slice_of_le (b := x :: t) (by omega))
  have hdrop : (x :: t).drop (5 + readU32le (x :: t) 1) =
      (t.drop 4).drop (readU32le (x :: t) 1) := by
    rw [drop_drop, show 5 + readU32le (x :: t) 1 =
      4 + readU32le (x :: t) 1 + 1 by omega, drop_succ_cons]
  rw [flatMap_singleton, Packet.bytes, hdrop, hdata, hlen, cons_append, append_assoc, slice,
    drop_succ_cons, take_append_drop, take_append_drop]
  rfl

theorem Begins.trans {b b' rest : Buf} {ps qs : List Packet} (h : Begins b ps b')
    (h' : Begins b' qs rest) : Begins b (ps ++ qs) rest := by
  refine ⟨forall_mem_append.2 ⟨h.1, h'.1⟩, ?_⟩
  rw [flatMap_append, append_assoc, ← h'.2, h.2]

theorem unpack_spec (b : Buf) (h : Sized b) :
    ∃ ps rest, unpack b = .ok (ps, rest) ∧ Begins b ps rest ∧ Incomplete rest := by
  have hself : ∀ b, Begins b [] b := fun b => ⟨by simp, rfl⟩
  fun_induction unpack b with
  | case1 b hlong hmax => exact absurd (h [] b (hself b) hlong) (Nat.not_le.2 hmax)
  | case2 b hlong _ hshort => exact ⟨[], b, rfl, hself b, fun _ => hshort⟩
  | case3 b hlong hmax hwhole ih =>
    have hfirst := begins_drop (Nat.not_lt.1 hwhole) (Nat.not_lt.1 hmax)
    obtain ⟨ps, rest, hun, hbegins, hrest⟩ := ih fun ps rest hps => h _ rest (hfirst.trans hps)
    exact ⟨_ :: ps, rest, by rw [hun]; rfl, hfirst.trans hbegins, hrest⟩
  | case4 b hshort => exact ⟨[], b, rfl, hself b, fun hlong => absurd hlong hshort⟩

theorem slice_append_left {a : Buf} (b : Buf) {off n : ℕ} (h : off + n ≤ a.length) :
    slice (a ++ b) off n = slice a off n :=
  slice_congr fun i _ hi => getElem?_append_left (by omega)

theorem readU32le_append {a : Buf} (b : Buf) (h : 5 ≤ a.length) :
    readU32le (a ++ b) 1 = readU32le a 1 := by
  rw [readU32le, readU32le, slice_append_left b (by omega)]

/-- A stream that comes in two pieces: what is kept of the first one goes before the second. -/
theorem unpack_append {a b : Buf} {ps : List Packet} {rest : Buf}
    (h : unpack (a ++ b) = .ok (ps, rest)) :
    ∃ qs kept ps', unpack a = .ok (qs, kept) ∧ unpack kept = .ok ([], kept) ∧
      unpack (kept ++ b) = .ok (ps', rest) ∧ ps = qs ++ ps' := by
  fun_induction unpack a generalizing ps with
  | case1 a hlong hmax =>
    rw [unpack, if_pos (by simp; omega), readU32le_append b (by omega), if_pos hmax] at h
    cases h
  | case2 a hlong hmax hshort =>
    have hself : unpack a = .ok ([], a) := by rw [unpack, if_pos hlong, if_neg hmax, if_pos hshort]
    exact ⟨[], a, ps, rfl, hself, h, rfl⟩
  | case3 a hlong hmax hwhole ih =>
    -- the first packet is complete in `a`, and the same in both
    have hlen : 5 + readU32le a 1 ≤ a.length := Nat.not_lt.1 hwhole
    rw [unpack, if_pos (by simp; omega), readU32le_append b (by omega), if_neg hmax,
      if_neg (by simp; omega), slice_append_left b hlen, drop_append_of_le_length hlen] at h
    cases hu : unpack (a.drop (5 + readU32le a 1) ++ b) with
    | error e => rw [hu] at h; cases h
    | ok x =>
      rw [hu] at h
      cases h
      obtain ⟨qs, kept, ps', hqs, hkept, hps', hx⟩ := ih hu
      have hfirst : (a ++ b).headD 0 = a.headD 0 := by
        obtain _ | ⟨x, t⟩ := a
        · simp at hlong
        · rfl
      exact ⟨⟨a.headD 0, slice a 5 (readU32le a 1)⟩ :: qs, kept, ps',
        by rw [hqs]; rfl, hkept, hps', by rw [hx, hfirst]; rfl⟩
  | case4 a hshort =>
    have hself : unpack a = .ok ([], a) := by rw [unpack, if_neg hshort]
    exact ⟨[], a, ps, rfl, hself, h, rfl⟩

theorem feed_eq (buf chunk : Buf) : feed buf chunk = unpack (buf ++ chunk) := by
  rw [feed]
  split_ifs with h
  · rfl
  · rw [length_eq_zero_iff.1 (not_not.1 h), nil_append]

theorem feedAll_eq_unpack {buf : Buf} {chunks : List Buf} {x : List Packet × Buf}
    (hbuf : unpack buf = .ok ([], buf)) (h : unpack (buf ++ chunks.flatten) = .ok x) :
    feedAll buf chunks = .ok x := by
  induction chunks generalizing buf x with
  | nil => rwa [flatten_nil, append_nil, hbuf] at h
  | cons chunk chunks ih =>
    rw [flatten_cons, ← append_assoc] at h
    obtain ⟨qs, kept, ps', hqs, hkept, hps', hx⟩ := unpack_append h
    rw [feedAll, feed_eq, hqs]
    change (do let (more, buf) ← feedAll kept chunks; return (qs ++ more, buf)) = _
    rw [ih hkept hps']
    exact congrArg (fun ps => Except.ok (ps, x.2)) hx.symm

/-- **Packets do not depend on chunks**: a reader that gets a stream in any chunks gives its
complete packets, and keeps what is left. -/
theorem feedAll_eq_ok (chunks : List Buf) (h : Sized chunks.flatten) :
    ∃ ps rest, feedAll [] chunks = .ok (ps, rest) ∧ Begins chunks.flatten ps rest ∧
      Incomplete rest := by
  obtain ⟨ps, rest, hun, hspec⟩ := unpack_spec _ h
  exact ⟨ps, rest, feedAll_eq_unpack (by rw [unpack]; rfl) hun, hspec⟩

/-- The header of a packet in two chunks, and the beginning of another. -/
theorem feedAll_eq_ok_split :
    ∃ ps rest, feedAll [] [[1, 2], [0, 0, 0, 65, 66, 3]] = .ok (ps, rest) ∧
    Begins [1, 2, 0, 0, 0, 65, 66, 3] ps rest ∧ Incomplete rest := by
  refine feedAll_eq_ok _ fun ps rest h hlong => ?_
  have hlen := congrArg length h.2
  obtain _ | ⟨p, ps⟩ := ps
  · rw [← show _ = rest from h.2]
    decide
  · simp [Packet.bytes] at hlen
    omega

/-- What `shell` writes of its `stdin`: parts of at most 32768 bytes, and the end of it. -/
def stdinPackets (data : Buf) : List Packet :=
  (range ((data.length + 32767) / 32768)).map
    (fun i => ⟨0, slice data (32768 * i) 32768⟩) ++ [⟨4, []⟩]

theorem unpack_bytes {ps : List Packet} (h : ∀ p ∈ ps, p.data.length ≤ packetMax) :
    unpack (ps.flatMap Packet.bytes) = .ok (ps, []) := by
  induction ps with
  | nil => rw [flatMap_nil, unpack]; rfl
  | cons p ps ih =>
    obtain ⟨hp, hps⟩ := forall_mem_cons.1 h
    have h4 := length_leBytes 4 p.data.length
    rw [flatMap_cons]
    generalize hr : ps.flatMap Packet.bytes = r at ih ⊢
    have hb : p.bytes ++ r = p.id :: (leBytes 4 p.data.length ++ (p.data ++ r)) := by
      simp [Packet.bytes]
    have hlen : readU32le (p.bytes ++ r) 1 = p.data.length := by
      rw [readU32le, slice, hb, drop_succ_cons, drop_zero, take_left' h4,
        leNat_leBytes (by simp [packetMax] at hp; omega)]
    have hdrop : (p.bytes ++ r).drop 5 = p.data ++ r := by rw [hb, drop_succ_cons, drop_left' h4]
    have hlong : (p.bytes ++ r).length = 5 + p.data.length + r.length := by simp [hb, h4]; omega
    rw [unpack, if_pos (by omega), hlen, if_neg (by omega), if_neg (by omega), slice, hdrop,
      take_left, ← drop_drop, hdrop, drop_left, ih hps, hb]
    rfl

theorem flatMap_slice (data : Buf) (k n : ℕ) :
    (range n).flatMap (fun i => slice data (k * i) k) = data.take (k * n) := by
  induction n with
  | zero => simp
  | succ n ih =>
    rw [range_succ, flatMap_append, ih, flatMap_singleton, slice, Nat.mul_succ, take_add]

/-- **What is written to a command arrives**: read in any chunks, it is the bytes of `stdin` in
packets, and the end of it. -/
theorem stdin_arrives (data : Buf) (chunks : List Buf)
    (h : chunks.flatten = (stdinPackets data).flatMap Packet.bytes) :
    ∃ ps, feedAll [] chunks = .ok (ps ++ [⟨4, []⟩], []) ∧ ps.flatMap Packet.data = data ∧
      ∀ p ∈ ps, p.id = 0 ∧ p.data.length ≤ 32768 := by
  have hsize : ∀ p ∈ stdinPackets data, p.data.length ≤ 32768 := by
    simp [stdinPackets, or_imp, forall_and, length_slice]
  refine ⟨_, feedAll_eq_unpack (by rw [unpack]; rfl) ?_, ?_,
    fun p hp => ⟨?_, hsize p (mem_append_left _ hp)⟩⟩
  · rw [nil_append, h]
    exact unpack_bytes fun p hp => (hsize p hp).trans (by decide)
  · rw [flatMap_map, flatMap_slice]
    exact take_of_length_le (by omega)
  · obtain ⟨i, -, rfl⟩ := mem_map.1 hp
    rfl

/-- Three bytes, in two chunks. -/
theorem stdin_arrives_three :
    ∃ ps, feedAll [] [[0, 3, 0, 0], [0, 7, 8, 9, 4, 0, 0, 0, 0]] = .ok (ps ++ [⟨4, []⟩], []) ∧
    ps.flatMap Packet.data = [7, 8, 9] ∧ ∀ p ∈ ps, p.id = 0 ∧ p.data.length ≤ 32768 :=
  stdin_arrives _ _ (by decide +kernel)

/-! ## Words -/

inductive Mode : Type where
  | bare
  /-- behind a backslash -/
  | escaped
  | single
  | double
  /-- behind a backslash in double quotes -/
  | doubleEscaped
  | comment
  deriving DecidableEq

/-- A character of a word, and whether it is quoted. -/
abbrev Part := Char × Bool

inductive Token : Type where
  | word (w : List Part)
  | op (c : Char)
  deriving DecidableEq

/-- A shell that reads a command line: the tokens so far, and the word it is in. -/
structure Reader where
  tokens : List Token := []
  word : Option (List Part) := none
  mode : Mode := .bare
  deriving DecidableEq

namespace Reader

variable (r : Reader)

def put (c : Char) (quoted : Bool) : Reader :=
  { r with word := some (r.word.getD [] ++ [(c, quoted)]) }

/-- The word ends here. -/
def close : Reader := { r with tokens := r.tokens ++ (r.word.map Token.word).toList, word := none }

/-- The rules of POSIX for the next character (Token Recognition, Quoting). -/
def step (c : Char) : Reader :=
  match r.mode with
  | .bare =>
    if c = '\\' then { r with mode := .escaped }
    else if c = '\'' then { r with word := some (r.word.getD []), mode := .single }
    else if c = '"' then { r with word := some (r.word.getD []), mode := .double }
    else if c = ' ' ∨ c = '\t' then r.close
    else if c ∈ "\n&|;<>()".toList then { r.close with tokens := r.close.tokens ++ [.op c] }
    else if c = '#' ∧ r.word = none then { r with mode := .comment }
    else r.put c false
  | .escaped => if c = '\n' then { r with mode := .bare } else { r.put c true with mode := .bare }
  | .single => if c = '\'' then { r with mode := .bare } else r.put c true
  | .double =>
    if c = '"' then { r with mode := .bare }
    else if c = '\\' then { r with mode := .doubleEscaped }
    else r.put c (c ∉ "$`".toList)
  | .doubleEscaped =>
    if c = '\n' then { r with mode := .double }
    else if c ∈ "$`\"\\".toList then { r.put c true with mode := .double }
    else { (r.put '\\' true).put c true with mode := .double }
  | .comment => if c = '\n' then { r with tokens := r.tokens ++ [.op c], mode := .bare } else r

end Reader

/-- A command line, as tokens. Here-documents are not modelled, nor what `$( )` and backquotes have
in them. -/
def read (line : Text) : List Token := (line.foldl Reader.step {}).close.tokens

/-- `[A-Za-z0-9_@%+=:,.]`, a slash and a dash. -/
def plain (c : Char) : Bool := c.isAlphanum || "_@%+=:,./-".toList.contains c

def quote (s : Text) : Text :=
  if s ≠ [] ∧ s.all plain then s
  else '\'' :: (s.flatMap fun c => if c = '\'' then "'\\''".toList else [c]) ++ ['\'']

/-- What is more than a character of the word to a shell, in an argument without quotes. -/
def special : Text := "\\'\" \t\n&|;<>()#$`*?[]~!^\x7b\x7d".toList

/-- A character that stands for itself: it is quoted, or means nothing to a shell. -/
def Inert (p : Part) : Prop := p.2 ∨ p.1 ∉ special

theorem not_special_of_plain {c : Char} (h : plain c) : c ∉ special := by
  have hall : special.all (!plain ·) := by decide
  intro hc
  simpa [h] using all_eq_true.1 hall c hc

namespace Reader

variable {r : Reader}

theorem step_plain {c : Char} (hr : r.mode = .bare) (h : plain c) : r.step c = r.put c false := by
  have hne : c ∉ "\\'\" \t\n&|;<>()#".toList := fun hc =>
    not_special_of_plain h (mem_append_left _ hc)
  simp_all [step]

theorem foldl_plain {w : List Part} {s : Text} (hr : r.mode = .bare) (hw : r.word = some w)
    (h : s.all plain) : s.foldl step r = { r with word := some (w ++ s.map (·, false)) } := by
  induction s generalizing r w with
  | nil => simp [← hw]
  | cons c s ih =>
    obtain ⟨hc, hs⟩ := Bool.and_eq_true_iff.1 (all_cons ▸ h)
    rw [foldl_cons, step_plain hr hc, ih (r := r.put c false) hr rfl hs]
    simp [put, hw]

theorem foldl_single {w : List Part} (s : Text) (hr : r.mode = .single) (hw : r.word = some w) :
    (s.flatMap fun c => if c = '\'' then "'\\''".toList else [c]).foldl step r =
      { r with word := some (w ++ s.map (·, true)) } := by
  induction s generalizing r w with
  | nil => simp [← hw]
  | cons c s ih =>
    have hstep : (if c = '\'' then "'\\''".toList else [c]).foldl step r = r.put c true := by
      split_ifs with hc <;> simp [step, put, hr, hc]
    rw [flatMap_cons, foldl_append, hstep, ih (r := r.put c true) hr rfl]
    simp [put, hw]

theorem foldl_quote (s : Text) (hr : r.mode = .bare) (hw : r.word = none) :
    ∃ w, (quote s).foldl step r = { r with word := some w } ∧ w.map Prod.fst = s ∧
      ∀ p ∈ w, Inert p := by
  rw [quote]
  split_ifs with h
  · obtain _ | ⟨c, s⟩ := s
    · exact absurd rfl h.1
    obtain ⟨hc, hs⟩ := Bool.and_eq_true_iff.1 (all_cons ▸ h.2)
    refine ⟨(c, false) :: s.map (·, false), ?_, by simp [Function.comp_def], ?_⟩
    · rw [foldl_cons, step_plain hr hc, foldl_plain (r := r.put c false) hr rfl hs]
      simp [put, hw]
    · have hplain : ∀ x ∈ s, x ∉ special := fun x hx => not_special_of_plain (all_eq_true.1 hs x hx)
      simpa [Inert, not_special_of_plain hc] using hplain
  · refine ⟨s.map (·, true), ?_, by simp [Function.comp_def], by simp [Inert]⟩
    have hopen : r.step '\'' = { r with word := some [], mode := .single } := by simp [step, hr, hw]
    rw [cons_append, foldl_cons, hopen, foldl_append, foldl_single (w := []) s rfl rfl]
    simp [step, hr]

theorem foldl_tokens (ts : List Token) (t : Text) :
    t.foldl step { r with tokens := ts ++ r.tokens } =
      { t.foldl step r with tokens := ts ++ (t.foldl step r).tokens } := by
  induction t generalizing r with
  | nil => rfl
  | cons c t ih =>
    have hstep : ({ r with tokens := ts ++ r.tokens } : Reader).step c =
        { r.step c with tokens := ts ++ (r.step c).tokens } := by
      simp only [step]
      split <;> split_ifs <;> simp [put, close]
    rw [foldl_cons, hstep, ih, foldl_cons]

end Reader

/-- **A quoted value is one word**: where a shell is between two words, it reads the value and
nothing else, whatever is behind it. -/
theorem read_quote (s before after : Text) (h : (before.foldl Reader.step {}).mode = .bare) :
    ∃ w, w.map Prod.fst = s ∧ (∀ p ∈ w, Inert p) ∧
      read (before ++ ' ' :: (quote s ++ ' ' :: after)) = read before ++ .word w :: read after := by
  obtain ⟨w, hquote, hs, hinert⟩ :=
    Reader.foldl_quote (r := (before.foldl Reader.step {}).close) s h rfl
  refine ⟨w, hs, hinert, ?_⟩
  have hblank : ∀ r : Reader, r.mode = .bare →
    r.step ' ' = r.close := fun r hr => by simp [Reader.step, hr]
  have hafter := Reader.foldl_tokens (r := {}) (read before ++ [.word w]) after
  rw [append_nil] at hafter
  -- behind the blank the word is a token, and the reader as it was at first
  have hword : Reader.step { (before.foldl Reader.step {}).close with word := some w } ' ' =
      ⟨read before ++ [.word w], none, .bare⟩ := by
    simp [Reader.step, Reader.close, read, h]
  rw [read, foldl_append, foldl_cons, hblank _ h, foldl_append, hquote, foldl_cons, hword, hafter]
  simp [read, Reader.close]

/-- A word with a quote in it. -/
theorem read_quote_space : ∃ w, w.map Prod.fst = "it's".toList ∧ (∀ p ∈ w, Inert p) ∧
    read "echo 'it'\\''s' now".toList = read "echo".toList ++ .word w :: read "now".toList :=
  read_quote "it's".toList "echo".toList "now".toList (by decide)

end Mu300.Adb
