import Mathlib.Data.List.Nodup
import Mu300.Delta.Commands

/-!
# What the filter leaves out

The filter decides member by member, with what came before in mind: a hard link goes with the file
it names. In an archive whose names are distinct and whose hard links name files before them this
is a property of the member alone.
-/

namespace Mu300.Delta

open Shell FileTree List

/-! ## The comparison -/

section Compare

variable {old data c : Content} {s : Passing}

theorem flatten_pieces (n k : ℕ) (c : Content) : (pieces n k c).flatten = c.take (k * n) := by
  induction k generalizing c with
  | zero => simp [pieces]
  | succ k ih =>
    rw [pieces, flatten_cons, ih, Nat.succ_mul, Nat.add_comm, take_add]

/-- The comparison has seen `c`: it is the beginning of the installed file, or it was written. -/
def Seen (old c : Content) (s : Passing) : Prop :=
  s.pos = c.length ∧ if s.same then c = old.take c.length else s.out = c ∧ c ≠ old.take c.length

theorem Seen.piece (h : Seen old c s) (buf : Content) :
    Seen old (c ++ buf) (passPiece old s buf) := by
  obtain ⟨hpos, hs⟩ := h
  have htake : old.take (c ++ buf).length = old.take c.length ++ (old.drop c.length).take
      buf.length := by
    rw [length_append, take_add]
  unfold passPiece
  rcases hsame : s.same with _ | _
  · -- it was different before
    rw [hsame, if_neg Bool.false_ne_true] at hs
    obtain ⟨hout, hne⟩ := hs
    refine ⟨by simp [hpos], ?_⟩
    rw [if_neg Bool.false_ne_true, if_neg Bool.false_ne_true, hout, htake]
    refine ⟨rfl, fun he => hne ?_⟩
    have hlen : c.length ≤ old.length := by
      have := congrArg length he
      simp only [length_append, length_take, length_drop] at this
      omega
    exact append_inj_left he (by rw [length_take, Nat.min_eq_left hlen])
  · rw [hsame, if_pos rfl] at hs
    rw [if_pos rfl]
    split
    · next hbuf =>
      refine ⟨by simp [hpos], ?_⟩
      rw [if_pos rfl, htake, ← hs, ← hpos, hbuf]
    · next hbuf =>
      refine ⟨by simp [hpos], ?_⟩
      rw [if_neg Bool.false_ne_true, hpos, ← hs, htake, ← hs]
      exact ⟨rfl, fun he => hbuf (by rw [hpos]; exact (append_cancel_left he).symm)⟩

theorem Seen.foldl (h : Seen old c s) (ps : List Content) :
    Seen old (c ++ ps.flatten) (ps.foldl (passPiece old) s) := by
  induction ps generalizing c s with
  | nil => simpa using h
  | cons buf ps ih =>
    have := ih (h.piece buf)
    rwa [append_assoc] at this

/-- **The comparison is equality**, and what is different is written as it is. -/
theorem passData_eq (hlen : old.length = data.length) :
    if (passData old data).same then old = data else (passData old data).out = data ∧
      old ≠ data := by
  have hseen : Seen old data (passData old data) := by
    have h : Seen old [] ⟨true, 0, []⟩ := ⟨rfl, rfl⟩
    have := h.foldl (pieces bufSize ((data.length + (bufSize - 1)) / bufSize) data)
    rwa [nil_append, flatten_pieces, take_of_length_le] at this
    have hpos : 0 < bufSize := by decide
    have := Nat.div_add_mod (data.length + (bufSize - 1)) bufSize
    have := Nat.mod_lt (data.length + (bufSize - 1)) hpos
    rw [Nat.mul_comm]
    omega
  obtain ⟨_, h⟩ := hseen
  rw [← hlen, take_length] at h
  split
  · next hs =>
    rw [if_pos hs] at h
    exact h.symm
  · next hs =>
    rw [if_neg hs] at h
    exact ⟨h.1, .symm h.2⟩

end Compare

/-! ## Members that are left out -/

variable {old : Old} {list : List Text} {ms : List Member} {m : Member}

/-- The installed system has a plain file of this content. -/
def Old.has (old : Old) (name : Text) (data : Content) : Bool :=
  (old.file name).any fun f => f.2.plainAttrs && f.2.content = data

theorem Old.has_iff {name : Text} {data : Content} :
    old.has name data ↔ ∃ i f, old.file name = some (i, f) ∧ f.plainAttrs ∧ f.content = data := by
  simp [Old.has, Option.any_eq_true]

theorem candidate_eq (name : Text) (data : Content) :
    candidate old false name data = if old.has name data then none else some data := by
  unfold candidate Old.has
  rcases old.file name with _ | ⟨i, f⟩
  · rfl
  · simp only [Option.any_some, Bool.and_eq_true, decide_eq_true_eq, Bool.false_eq_true,
      false_and, if_false]
    split
    · next hc =>
      have hp := passData_eq hc.1
      split
      · next hs =>
        rw [if_pos hs] at hp
        rw [if_pos ⟨hc.2, hp⟩]
      · next hs =>
        rw [if_neg hs] at hp
        rw [hp.1, if_neg fun hf => hp.2 hf.2]
    · next hc => rw [if_neg fun hf => hc ⟨by rw [hf.2], hf.1⟩]

/-- A file of the list that the installed system has. -/
def linkable (old : Old) (list : List Text) (m : Member) : Bool :=
  m.kind = .regular && !m.xattr && m.name ∈ list && old.has m.name m.data

/-- Such a file of the archive `ms`, or a second name of one. -/
def leftOut (old : Old) (list : List Text) (ms : List Member) (m : Member) : Bool :=
  linkable old list m || m.kind = .hardLink &&
    ms.any fun r => linkable old list r && r.name = m.link

/-- The lines of the log for a member. -/
def logLines (m : Member) : List LogLine :=
  if m.kind = .hardLink then [.H m.name, .T m.link] else [.D m.name]

theorem D_mem_logLines {p : Text} : .D p ∈ logLines m ↔ m.kind ≠ .hardLink ∧ m.name = p := by
  unfold logLines
  split <;> simp_all [eq_comm]

theorem H_mem_logLines {p : Text} : .H p ∈ logLines m ↔ m.kind = .hardLink ∧ m.name = p := by
  unfold logLines
  split <;> simp_all [eq_comm]

/-- Every hard link names a file before it; `seen` are the files so far. -/
def linksBack (seen : List Text) : List Member → Bool
  | [] => true
  | m :: ms =>
    (m.kind ≠ .hardLink || m.link ∈ seen) &&
      linksBack (if m.kind = .regular then m.name :: seen else seen) ms

theorem linksBack_iff {seen : List Text} : linksBack seen ms ↔
    ∀ done m rest, ms = done ++ m :: rest → m.kind = .hardLink →
      m.link ∈ seen ∨ ∃ r ∈ done, r.kind = .regular ∧ r.name = m.link := by
  induction ms generalizing seen with
  | nil => simp [linksBack]
  | cons x ms ih =>
    rw [linksBack, Bool.and_eq_true, ih]
    constructor
    · rintro ⟨hx, hms⟩ (_ | ⟨y, done⟩) m rest he hk
      · obtain ⟨rfl, -⟩ := cons.inj he
        exact .inl (by simpa [hk] using hx)
      · obtain ⟨rfl, rfl⟩ := cons.inj he
        rcases hms done m rest rfl hk with hs | ⟨r, hr, hrest⟩
        · grind
        · exact .inr ⟨r, mem_cons_of_mem _ hr, hrest⟩
    · intro h
      refine ⟨?_, fun done m rest he hk => ?_⟩
      · have hx := h [] x ms rfl
        simpa [imp_iff_not_or] using hx
      · have hm := h (x :: done) m rest (by rw [he]; rfl) hk
        grind

/-- Every hard link has a file before it that it names. -/
theorem linksBack_nil_iff : linksBack [] ms ↔ ∀ done m rest, ms = done ++ m :: rest →
    m.kind = .hardLink → ∃ r ∈ done, r.kind = .regular ∧ r.name = m.link := by
  simp only [linksBack_iff, not_mem_nil, false_or]

theorem kind_of_linkable (h : linkable old list m) : m.kind = .regular := by
  simp only [linkable, Bool.and_eq_true, decide_eq_true_eq] at h
  exact h.1.1.1

theorem leftOut_regular (h : m.kind = .regular) : leftOut old list ms m = linkable old list m := by
  simp [leftOut, h]

theorem leftOut_other (h : m.kind ≠ .regular) (h' : m.kind ≠ .hardLink) :
    leftOut old list ms m = false := by
  simp [leftOut, linkable, h, h']

theorem leftOut_hardLink (h : m.kind = .hardLink) :
    leftOut old list ms m ↔ ∃ r ∈ ms, linkable old list r ∧ r.name = m.link := by
  simp [leftOut, linkable, h]

/-! ## The stream -/

theorem tarfilter_exts (l : Option (List Text)) (exts : List Ext) (s : Filter)
    (rest : List Record) : tarfilterFrom old l s (exts.map .ext ++ rest) =
      tarfilterFrom old l
        { s with pend := s.pend ++ exts.map .ext, held := exts.foldl Held.hold s.held } rest := by
  induction exts generalizing s with
  | nil => simp
  | cons x exts ih =>
    rw [map_cons, cons_append, tarfilterFrom, ih]
    simp

/-- What the filter makes of the rest of an archive: the members that are written and the log. -/
def Sifted (g : Global) (ws ls : List Member) (r : Option (List Record × List LogLine)) : Prop :=
  ∃ out log a b, r = some (out, log) ∧ members {} g out = some ws ∧
    log = ls.flatMap logLines ++ [.E a b]

section Sift

variable {g : Global} {ws ls : List Member} {r : Option (List Record × List LogLine)}

theorem Sifted.write (h : Sifted g ws ls r) (exts : List Ext) (hd : Header) (data : Content) :
    Sifted g (memberOf (exts.foldl Held.hold {}) g hd data :: ws) ls
      (emit (exts.map .ext ++ [.member hd data]) [] r) := by
  obtain ⟨out, log, a, b, rfl, hout, rfl⟩ := h
  refine ⟨_, _, a, b, rfl, ?_, rfl⟩
  have := members_item exts hd data g out
  rw [Item.records, hout] at this
  exact this

theorem Sifted.leave (h : Sifted g ws ls r) (m : Member) :
    Sifted g ws (m :: ls) (emit [] (logLines m) r) := by
  obtain ⟨out, log, a, b, rfl, hout, rfl⟩ := h
  exact ⟨_, _, a, b, rfl, hout, by rw [flatMap_cons, append_assoc]⟩

theorem Sifted.global {g' : Global} {s : Filter} {rest : List Record} (hpend : s.pend = [])
    (h : Sifted (g.merge g') ws ls (tarfilterFrom old (some list) { s with pend := [] } rest)) :
    Sifted g ws ls (tarfilterFrom old (some list) s (.global g' :: rest)) := by
  obtain ⟨out, log, a, b, hr, hout, hlog⟩ := h
  refine ⟨.global g' :: out, log, a, b, ?_, hout, hlog⟩
  rw [tarfilterFrom, hr, hpend]
  rfl

end Sift

/-- Where the filter is behind a member. -/
def Filter.behind (s : Filter) (name : Text) (kind : Kind) (size : ℕ) (linked : Bool) : Filter :=
  if linked then { done := name :: s.done, leftOut := s.leftOut + kib size, written := s.written }
  else
    { done := s.done, leftOut := s.leftOut
      written := s.written + if kind = .regular then kib size else 0 }

section Behind

variable (s : Filter) (name : Text) (kind : Kind) (size : ℕ) (linked : Bool)

@[simp]
theorem Filter.pend_behind : (s.behind name kind size linked).pend = [] := by cases linked <;> rfl

@[simp]
theorem Filter.held_behind : (s.behind name kind size linked).held = {} := by cases linked <;> rfl

theorem Filter.mem_done_behind {x : Text} :
    x ∈ (s.behind name kind size linked).done ↔ x ∈ s.done ∨ linked ∧ x = name := by
  cases linked <;> simp [Filter.behind, or_comm]

end Behind

theorem tarfilter_member (s : Filter) (g : Global) (h : Header) (data : Content)
    (rest : List Record) (hm : memberOf s.held g h data = m) :
    tarfilterFrom old (some list) s (.member h data :: rest) =
      if linkable old list m ∨ m.kind = .hardLink ∧ m.link ∈ s.done then
        emit [] (logLines m) (tarfilterFrom old (some list)
          (s.behind m.name m.kind data.length (linkable old list m)) rest)
      else
        emit (s.pend ++ [.member h data]) [] (tarfilterFrom old (some list)
          (s.behind m.name m.kind data.length (linkable old list m)) rest) := by
  subst hm
  by_cases hreg : h.kind = .regular
  · have hlink : linkable old list (memberOf s.held g h data) =
        ((!s.held.paxXattr && nameOf s.held h ∈ list) && old.has (nameOf s.held h) data) := by
      simp [linkable, memberOf, hreg]
    have hnot : ¬ h.kind = .hardLink := by
      rw [hreg]
      exact nofun
    have hlog : logLines (memberOf s.held g h data) = [.D (nameOf s.held h)] := if_neg hnot
    rw [hlog, hlink, tarfilterFrom, if_neg fun hc => hnot hc.1]
    by_cases hc : ¬ s.held.paxXattr ∧ nameOf s.held h ∈ list
    · rw [if_pos ⟨hreg, hc.1, decide_eq_true hc.2⟩, Option.isNone_some, candidate_eq]
      by_cases hhas : old.has (nameOf s.held h) data <;>
        simp [memberOf, hreg, hc, hhas, Filter.behind]
    · have hl : (!s.held.paxXattr && decide (nameOf s.held h ∈ list)) = false := by
        simpa using hc
      rw [if_neg fun hx => hc ⟨hx.2.1, of_decide_eq_true hx.2.2⟩, hl]
      simp [memberOf, hreg, Filter.behind]
  · have hlink : linkable old list (memberOf s.held g h data) = false := by
      simp [linkable, memberOf, hreg]
    rw [hlink, tarfilterFrom, if_neg fun hc : h.kind = .regular ∧ _ => hreg hc.1]
    by_cases hk : h.kind = .hardLink
    · simp [memberOf, logLines, hk, Filter.behind]
    · simp [memberOf, hk, Filter.behind]

/-- The records of a whole archive; something may follow the end. -/
def archiveRecords (items : List Item) (tail : List Record) : List Record :=
  items.flatMap Item.records ++ .zero :: tail

theorem archiveRecords_member (exts : List Ext) (h : Header) (data : Content) (items : List Item)
    (tail : List Record) : archiveRecords (.member exts h data :: items) tail =
      exts.map .ext ++ .member h data :: archiveRecords items tail := by
  simp [archiveRecords, Item.records]

theorem members_archive (items : List Item) (tail : List Record) (g : Global) :
    members {} g (archiveRecords items tail) = some (itemMembers g items) := by
  induction items generalizing g with
  | nil => rfl
  | cons item items ih =>
    cases item with
    | global g' => exact ih (g.merge g')
    | member exts h data =>
      rw [archiveRecords_member, members_exts, members, ih]
      rfl

theorem leftOut_iff_done {pre post : List Member} {done : List Text}
    (hn : ((pre ++ m :: post).map Member.name).Nodup) (hback : linksBack [] (pre ++ m :: post))
    (hdone : ∀ x, x ∈ done ↔ ∃ r ∈ pre, linkable old list r ∧ r.name = x) :
    leftOut old list (pre ++ m :: post) m ↔
      linkable old list m ∨ m.kind = .hardLink ∧ m.link ∈ done := by
  by_cases hk : m.kind = .hardLink
  · have hnot : ¬ linkable old list m := fun hl => by
      rw [kind_of_linkable hl] at hk
      exact nomatch hk
    rw [leftOut_hardLink hk, hdone]
    constructor
    · rintro ⟨r, hr, hl, hname⟩
      -- names are distinct, so it is the one that came before
      obtain ⟨r', hr', -, hname'⟩ := linksBack_nil_iff.1 hback pre m post rfl hk
      obtain rfl : r' = r := inj_on_of_nodup_map hn (mem_append_left _ hr') hr
        (hname'.trans hname.symm)
      exact .inr ⟨hk, r', hr', hl, hname⟩
    · rintro (hl | ⟨_, r, hr, hl, hname⟩)
      · exact absurd hl hnot
      · exact ⟨r, mem_append_left _ hr, hl, hname⟩
  · by_cases hreg : m.kind = .regular
    · rw [leftOut_regular hreg]
      simp [hk]
    · rw [leftOut_other hreg hk]
      simp [linkable, hk, hreg]

theorem tarfilter_items (hn : (ms.map Member.name).Nodup) (hback : linksBack [] ms)
    (tail : List Record) (items : List Item) (g : Global) (pre : List Member) (s : Filter)
    (hms : ms = pre ++ itemMembers g items) (hpend : s.pend = []) (hheld : s.held = {})
    (hdone : ∀ x, x ∈ s.done ↔ ∃ r ∈ pre, linkable old list r ∧ r.name = x) :
    Sifted g ((itemMembers g items).filter fun m => !leftOut old list ms m)
      ((itemMembers g items).filter (leftOut old list ms))
      (tarfilterFrom old (some list) s (archiveRecords items tail)) := by
  induction items generalizing g pre s with
  | nil => exact ⟨.zero :: tail, [.E s.leftOut s.written], _, _, if_pos hpend, rfl, rfl⟩
  | cons item items ih =>
    cases item with
    | global g' =>
      exact (ih (g.merge g') pre { s with pend := [] } hms rfl hheld hdone).global hpend
    | member exts h data =>
      have hm : itemMembers g (.member exts h data :: items) =
        memberOf (exts.foldl .hold {}) g h data :: itemMembers g items := rfl
      rw [hm] at hms ⊢
      rw [archiveRecords_member, tarfilter_exts, hpend, hheld, nil_append,
        tarfilter_member _ g h data _ rfl]
      have hwrite := fun ws ls r (hr : Sifted g ws ls r) => hr.write exts h data
      generalize memberOf (exts.foldl Held.hold {}) g h data = m at hms hwrite ⊢
      have hout : leftOut old list ms m ↔
          linkable old list m ∨ m.kind = .hardLink ∧ m.link ∈ s.done := by
        rw [hms] at hn hback ⊢
        exact leftOut_iff_done hn hback hdone
      -- the rest, with this member among those before it
      have hrest := ih g (pre ++ [m])
        (.behind { s with pend := exts.map .ext, held := exts.foldl .hold {} } m.name m.kind
          data.length (linkable old list m))
        (by rw [hms, append_assoc]; rfl) (Filter.pend_behind ..) (Filter.held_behind ..) ?_
      · by_cases hc : linkable old list m ∨ m.kind = .hardLink ∧ m.link ∈ s.done
        · rw [if_pos hc, filter_cons_of_neg (by simp [hout.2 hc]),
            filter_cons_of_pos (hout.2 hc)]
          exact hrest.leave m
        · have hnot : leftOut old list ms m = false := Bool.eq_false_iff.2 fun h => hc (hout.1 h)
          rw [if_neg hc, filter_cons_of_pos (by simp [hnot]), filter_cons_of_neg (by simp [hnot])]
          exact hwrite _ _ _ hrest
      · intro x
        rw [Filter.mem_done_behind, hdone]
        grind

/-- In any archive, what is written is among the members, and what is left out is a file that the
installed system has or a second name. -/
theorem tarfilter_sifted (old : Old) (list : List Text) (tail : List Record) (items : List Item)
    (g : Global) (s : Filter) (hpend : s.pend = []) (hheld : s.held = {}) :
    ∃ ws ls, Sifted g ws ls (tarfilterFrom old (some list) s (archiveRecords items tail)) ∧
      ws ⊆ itemMembers g items ∧
      ∀ m ∈ ls, m ∈ itemMembers g items ∧ (linkable old list m ∨ m.kind = .hardLink) := by
  induction items generalizing g s with
  | nil =>
    exact ⟨[], [], ⟨.zero :: tail, [.E s.leftOut s.written], _, _, if_pos hpend, rfl, rfl⟩,
      Subset.refl _, nofun⟩
  | cons item items ih =>
    cases item with
    | global g' =>
      obtain ⟨ws, ls, hr, h⟩ := ih (g.merge g') { s with pend := [] } rfl hheld
      exact ⟨ws, ls, hr.global hpend, h⟩
    | member exts h data =>
      rw [archiveRecords_member, tarfilter_exts, hpend, hheld, nil_append,
        tarfilter_member _ g h data _ rfl]
      have hcons : ∀ {m}, m ∈ itemMembers g items →
          m ∈ itemMembers g (.member exts h data :: items) :=
        fun hm => mem_cons_of_mem _ hm
      obtain ⟨ws, ls, hr, hws, hls⟩ := ih g (.behind
        { s with pend := exts.map .ext, held := exts.foldl .hold {} } _ _ data.length _)
        (Filter.pend_behind ..) (Filter.held_behind ..)
      have hls' := fun m hm => (hls m hm).imp_left hcons
      split
      · next hc =>
        exact ⟨ws, _ :: ls, hr.leave _, fun m hm => hcons (hws hm),
          forall_mem_cons.2 ⟨⟨mem_cons_self, hc.imp_right And.left⟩, hls'⟩⟩
      · exact ⟨_ :: ws, ls, hr.write exts h data, cons_subset_cons _ hws, hls'⟩

/-- **What comes out of the filter**: the other members, and a log of those left out. -/
theorem tarfilter_archive (old : Old) (list : List Text) {items : List Item}
    (hn : ((itemMembers {} items).map Member.name).Nodup)
    (hback : linksBack [] (itemMembers {} items)) (tail : List Record) :
    Sifted {} ((itemMembers {} items).filter fun m => !leftOut old list (itemMembers {} items) m)
      ((itemMembers {} items).filter (leftOut old list (itemMembers {} items)))
      (cmdTarfilter old (some list) (archiveRecords items tail)) :=
  tarfilter_items hn hback tail items _ [] {} rfl rfl rfl (by simp)

end Mu300.Delta
