import Mu300.Delta.Diff
import Mu300.Lib.Unicode
import Mu300.Update.Tags

/-!
# Which release an archive is

Every gate of an update judges the name of the release; what is installed is the files. `payload_is`
asks the archive itself: its own etc/mu300/image-version, as `tar -O` prints it.
-/

namespace Mu300.Update

open Shell FileTree Digits Delta List Char

/-! ## Versions -/

/-- A file in `$(…)`: without NUL, and without the newlines at its end. -/
def shellText (c : Content) : Text := captured ((c.filter (· ≠ 0)).map fun b => ofNat b.toNat)

def versionFile : Text := "etc/mu300/image-version"

/-- `$(cat DISK/OS/etc/mu300/image-version)`. -/
def versionOf (old : Old) : Text :=
  ((old.file versionFile).map fun x => shellText x.2.content).getD []

/-- What a new system says it is, where it has such a file. -/
def imageVersion (n : New) : Option Text :=
  (n.tree.find versionFile).bind fun
    | .file i => (n.store.inode i).map fun f => shellText f.content
    | _ => none

/-! ## `tar -O` -/

/-- The name a member is stored under: the one it is asked for by. -/
def storedName (k : Held) (h : Header) : Text :=
  (k.paxPath <|> k.gnuName).getD (if h.front = [] then h.name else h.front ++ '/' :: h.name)

/-- `tar -xO NAME`: the data of all files that are stored under this name. -/
def printed (wanted : Text) (k : Held) : List Record → Content
  | [] => []
  | .zero :: _ => []
  | .ext x :: rest => printed wanted (k.hold x) rest
  | .global _ :: rest => printed wanted k rest
  | .member h data :: rest =>
    (if h.kind = .regular ∧ storedName k h = wanted then data else []) ++ printed wanted {} rest

def wantedName : Text := "./etc/mu300/image-version"

/-- `untar -xzOf FILE ./etc/mu300/image-version`. Where tar fails, having printed a part, busybox
prints it again behind that. -/
def untarOutput (stopped : Option ℕ) (records : List Record) : Content :=
  let all := printed wantedName {} records
  stopped.elim all fun n => all.take n ++ all

/-- `head -n1`, without its newline. -/
def firstLine (c : Content) : Content := c.takeWhile (· ≠ 10)

/-- `_pv` of `payload_is`; nothing where there is no file. -/
def payloadVersion (stopped : Option ℕ) (file : Option (List Record)) : Text :=
  shellText (firstLine ((file.map (untarOutput stopped)).getD []))

/-! ## New systems -/

/-- The new system was made from this archive: unpacked whole, unpacked without what the installed
system has, or from a diff. -/
inductive Made (old : Old) (records : List Record) (n : New) : Prop where
  | whole (now : Time) (top : Owner) (h : untar now (emptyDir top now old.store) records = some n)
  | delta (now : Time) (top : Owner) (list : List Text) (canLink : Text → Bool)
      (h : deltaUnpack now top old list canLink records = some n)
  | diff (now : Time) (top : Owner) (list linked copied : List Text) (canLink : Text → Bool)
      (h : diffTree now top old list canLink linked copied records = some n)

/-- Where it is the version, it is a file under its usual name. -/
def spelled : Item → Bool
  | .global _ => true
  | .member exts h _ =>
    nameOf (exts.foldl Held.hold {}) h ≠ versionFile ||
      h.kind = .regular && storedName (exts.foldl Held.hold {}) h = wantedName

/-- The archive has the version once at most, and as such a file; anything else may be in it. -/
def Straight (records : List Record) : Prop :=
  ∃ items tail, archiveRecords items tail = records ∧ (∀ item ∈ items, spelled item) ∧
    ((itemMembers {} items).map Member.name).count versionFile ≤ 1

/-! ## Texts -/

/-- The bytes of a content as the shell has them. -/
def shellBytes (c : Content) : Text := (c.filter (· ≠ 0)).map fun b => ofNat b.toNat

theorem shellText_eq (c : Content) : shellText c = captured (shellBytes c) := rfl

theorem shellBytes_append (c d : Content) : shellBytes (c ++ d) = shellBytes c ++ shellBytes d := by
  rw [shellBytes, filter_append, map_append]
  rfl

theorem eq_ten_of_newline {b : UInt8} (h : ofNat b.toNat = '\n') : b = 10 := by
  have hnat := congrArg toNat h
  rw [Unicode.toNat_ofNat_of_lt b.toNat_lt] at hnat
  exact UInt8.toNat_inj.1 hnat

theorem shellBytes_firstLine (c : Content) :
    shellBytes (firstLine c) = (shellBytes c).takeWhile (· ≠ '\n') := by
  induction c with
  | nil => rfl
  | cons b c ih =>
    by_cases hb : b = 10
    · subst hb
      rfl
    · have hline : firstLine (b :: c) = b :: firstLine c := by simp [firstLine, hb]
      by_cases h0 : b = 0
      · subst h0
        rw [hline]
        exact ih
      · have hcons : ∀ d, shellBytes (b :: d) = ofNat b.toNat :: shellBytes d := by
          intro d
          simp [shellBytes, h0]
        have hne : ofNat b.toNat ≠ '\n' := fun he => hb (eq_ten_of_newline he)
        rw [hline, hcons, hcons, takeWhile_cons_of_pos (by simpa using hne), ih]

theorem captured_of_not_mem {t : Text} (h : '\n' ∉ t) : captured t = t := by
  have hdrop : t.reverse.dropWhile (· = '\n') = t.reverse := by
    rw [dropWhile_eq_self_iff]
    intro hlen he
    refine h (mem_reverse.1 ?_)
    have := getElem_mem hlen
    rwa [of_decide_eq_true he] at this
  rw [captured, hdrop, reverse_reverse]

theorem exists_captured (t : Text) : ∃ k, t = captured t ++ replicate k '\n' := by
  have hnewlines : ∀ ch ∈ t.reverse.takeWhile (· = '\n'), ch = '\n' := by
    intro ch hch
    exact of_decide_eq_true (mem_takeWhile_imp (p := (· = '\n')) hch)
  refine ⟨(t.reverse.takeWhile (· = '\n')).length, ?_⟩
  rw [captured, ← reverse_replicate, ← eq_replicate_iff.2 ⟨rfl, hnewlines⟩,
    ← reverse_append, takeWhile_append_dropWhile, reverse_reverse]

theorem firstLine_of_captured {c : Content} (h : '\n' ∉ shellText c) :
    shellBytes (firstLine c) = shellText c := by
  obtain ⟨k, hk⟩ := exists_captured (shellBytes c)
  rw [shellBytes_firstLine, hk, ← shellText_eq]
  have hall : ∀ ch ∈ shellText c, decide (ch ≠ '\n') := fun ch hch =>
    decide_eq_true fun he => h (he ▸ hch)
  rw [takeWhile_append_of_pos hall]
  cases k with
  | zero => simp
  | succ k => simp [replicate_succ]

theorem Tag.text_eq (g : Tag) :
    ∃ rest, g.text = 'v' :: rest ∧ ∀ ch ∈ rest, ch.isDigit ∨ ch = '.' := by
  have hfixed : ∀ w n, ∀ ch ∈ fixed w n, ch.isDigit ∨
      ch = '.' := fun w n ch hch => .inl (isDigit_of_mem_fixed hch)
  have hcounter : ∀ ch ∈ (if g.n = 0 then [] else '.' :: counter g.n), ch.isDigit ∨ ch = '.' := by
    intro ch hch
    split_ifs at hch
    · cases hch
    · rcases mem_cons.1 hch with rfl | hch
      · exact .inr rfl
      · rw [counter] at hch
        split_ifs at hch
        · exact hfixed _ _ ch hch
        · exact hfixed _ _ ch hch
  refine ⟨_, by rw [Tag.text, dateOf, dateText, cons_append], fun ch hch => ?_⟩
  rcases mem_append.1 hch with hch | hch
  · simp only [mem_append, mem_cons] at hch
    rcases hch with hch | rfl | hch | rfl | hch
    · exact hfixed _ _ ch hch
    · exact .inr rfl
    · exact hfixed _ _ ch hch
    · exact .inr rfl
    · exact hfixed _ _ ch hch
  · exact hcounter ch hch

theorem newline_not_mem_of_tagOk {t : Text} (h : tagOk t) : '\n' ∉ t := by
  obtain ⟨g, rfl⟩ := tagOk_iff.1 h
  obtain ⟨rest, htext, hrest⟩ := g.text_eq
  rw [htext]
  intro hmem
  rcases mem_cons.1 hmem with he | hmem
  · exact absurd he (by decide)
  · exact absurd (hrest _ hmem) (by decide)

theorem eq_nil_of_tagOk_append {s t : Text} (hst : tagOk (s ++ t)) (ht : tagOk t) : s = [] := by
  obtain ⟨g, hg⟩ := tagOk_iff.1 hst
  obtain ⟨h, rfl⟩ := tagOk_iff.1 ht
  obtain ⟨rest, hrest, hdigits⟩ := g.text_eq
  obtain ⟨rest', hrest', -⟩ := h.text_eq
  rw [hrest, hrest'] at hg
  cases s with
  | nil => rfl
  | cons ch s =>
    have hv : 'v' ∈ rest := by
      rw [← (List.cons.inj hg).2]
      exact mem_append_right _ mem_cons_self
    exact absurd (hdigits _ hv) (by decide)

theorem newline_not_mem_shellBytes {c : Content} (h : 10 ∉ c) : '\n' ∉ shellBytes c := by
  intro hmem
  obtain ⟨b, hb, he⟩ := mem_map.1 hmem
  exact h (eq_ten_of_newline he ▸ mem_of_mem_filter hb)

theorem firstLine_take_append (c : Content) (n : ℕ) : firstLine (c.take n ++ c) = firstLine c ∨
      10 ∉ c.take n ∧ firstLine (c.take n ++ c) = c.take n ++ firstLine c := by
  by_cases hn : 10 ∈ c.take n
  · -- the line was out before tar failed
    have hcut : ∀ rest, firstLine (c.take n ++ rest) = firstLine (c.take n) := by
      intro rest
      rw [firstLine, takeWhile_append, if_neg]
      · rfl
      · intro hlen
        have hall := takeWhile_eq_self_iff.1
          ((takeWhile_sublist _).eq_of_length hlen) 10 hn
        exact absurd hall (by decide)
    have hc : firstLine c = firstLine (c.take n) := by
      conv_lhs => rw [← take_append_drop n c]
      exact hcut _
    exact .inl ((hcut c).trans hc.symm)
  · exact .inr ⟨hn, takeWhile_append_of_pos fun b hb => decide_eq_true fun he => hn (he ▸ hb)⟩

/-- Of a content that is a tag, `payload_is` reads that tag, or something that is none. -/
theorem payload_of_tag {c : Content} (hc : tagOk (shellText c)) {stopped : Option ℕ}
    (hp : tagOk (shellText (firstLine (stopped.elim c fun n => c.take n ++ c)))) :
    shellText (firstLine (stopped.elim c fun n => c.take n ++ c)) = shellText c := by
  have hlines := newline_not_mem_of_tagOk hc
  have hline : shellBytes (firstLine c) = shellText c := firstLine_of_captured hlines
  have hone : shellText (firstLine c) = shellText c := by
    rw [shellText_eq, hline, captured_of_not_mem hlines]
  cases stopped with
  | none => exact hone
  | some n =>
    rw [Option.elim_some] at hp ⊢
    rcases firstLine_take_append c n with hfirst | ⟨hn, hfirst⟩
    · rw [hfirst, hone]
    · -- a part of the line, and the line: no tag, unless the part is empty
      have hnot : '\n' ∉ shellBytes (c.take n) ++ shellText c := by
        rw [mem_append, not_or]
        exact ⟨newline_not_mem_shellBytes hn, hlines⟩
      rw [hfirst, shellText_eq, shellBytes_append, hline, captured_of_not_mem hnot] at hp ⊢
      rw [eq_nil_of_tagOk_append hp hc, nil_append]

/-! ## Straight archives -/

theorem printed_exts (wanted : Text) (exts : List Ext) (k : Held) (rest : List Record) :
    printed wanted k (exts.map .ext ++ rest) = printed wanted (exts.foldl Held.hold k) rest := by
  induction exts generalizing k with
  | nil => rfl
  | cons x exts ih => exact ih (k.hold x)

def itemPrints (wanted : Text) : Item → Content
  | .global _ => []
  | .member exts h data =>
    if h.kind = .regular ∧ storedName (exts.foldl Held.hold {}) h = wanted then data else []

theorem printed_archive (wanted : Text) (items : List Item) (tail : List Record) :
    printed wanted {} (archiveRecords items tail) = items.flatMap (itemPrints wanted) := by
  induction items with
  | nil => rfl
  | cons item items ih =>
    cases item with
    | global g => exact ih
    | member exts h data =>
      rw [archiveRecords_member, printed_exts, printed, ih]
      rfl

theorem itemPrints_of_ne {exts : List Ext} {h : Header} {data : Content}
    (hne : nameOf (exts.foldl Held.hold {}) h ≠ versionFile) :
    itemPrints wantedName (.member exts h data) = [] := by
  exact if_neg fun hc => hne ((congrArg tarNorm hc.2).trans (by decide))

theorem prints_eq_nil {items : List Item} {g : Global}
    (h : versionFile ∉ (itemMembers g items).map Member.name) :
    items.flatMap (itemPrints wantedName) = [] := by
  induction items generalizing g with
  | nil => rfl
  | cons item items ih =>
    cases item with
    | global g' => exact ih h
    | member exts hd data =>
      rw [itemMembers, map_cons, mem_cons, not_or] at h
      rw [flatMap_cons, itemPrints_of_ne (Ne.symm h.1), ih h.2]
      rfl

theorem prints_eq_data {items : List Item} {g : Global}
    (hn : ((itemMembers g items).map Member.name).count versionFile ≤ 1)
    (hs : ∀ item ∈ items, spelled item) {m : Member} (hm : m ∈ itemMembers g items)
    (hname : m.name = versionFile) :
    m.kind = .regular ∧ items.flatMap (itemPrints wantedName) = m.data := by
  induction items generalizing g with
  | nil => cases hm
  | cons item items ih =>
    obtain ⟨hitem, hrest⟩ := forall_mem_cons.1 hs
    cases item with
    | global g' => exact ih hn hrest hm
    | member exts h data =>
      rw [itemMembers, map_cons] at hn
      rw [flatMap_cons]
      rcases mem_cons.1 hm with rfl | hm
      · have hstraight : h.kind = .regular ∧ storedName (exts.foldl .hold {}) h = wantedName := by
          simpa [spelled, show nameOf (exts.foldl Held.hold {}) h = versionFile from hname]
            using hitem
        obtain ⟨hk, hstored⟩ := hstraight
        have hdata : itemPrints wantedName (.member exts h data) = data := if_pos ⟨hk, hstored⟩
        rw [hname, count_cons_self, Nat.succ_le_succ_iff, Nat.le_zero, count_eq_zero] at hn
        rw [hdata, prints_eq_nil hn, append_nil]
        exact ⟨hk, (if_pos hk).symm⟩
      · have hpos : 0 < ((itemMembers g items).map Member.name).count versionFile :=
          count_pos_iff.2 (mem_map.2 ⟨m, hm, hname⟩)
        have hne : (memberOf (exts.foldl .hold {}) g h data).name ≠ versionFile := fun he => by
          rw [he, count_cons_self] at hn
          omega
        rw [itemPrints_of_ne hne]
        exact ih (count_le_count_cons.trans hn) hrest hm

theorem imageVersion_of_holds {φ : Content → Prop} {base : Store File} {n : New} {v : Text}
    (h : Holds φ base versionFile n) (hv : imageVersion n = some v) :
    ∃ c, φ c ∧ shellText c = v := by
  obtain ⟨e, he, hv⟩ := Option.bind_eq_some_iff.1 hv
  have htree : n.tree versionFile = some e := by
    rw [Tree.find] at he
    split at he
    · exact he
    · cases he
  rcases e with ⟨o, time⟩ | i | w
  · cases hv
  · obtain ⟨f, hf, hφ⟩ := h.only i htree
    dsimp only at hv
    rw [hf] at hv
    exact ⟨f.content, hφ, Option.some.inj hv⟩
  · cases hv

/-- **The release that was judged is the one that is installed**: where the archive is straight and
both are release tags, what the new system says is what `payload_is` read, or what the installed
system says. -/
theorem Made.version {old : Old} {records : List Record} {n : New} (h : Made old records n)
    (hs : Straight records) {stopped : Option ℕ}
    (hp : tagOk (payloadVersion stopped (some records)))
    {v : Text} (hv : imageVersion n = some v) (htag : tagOk v) :
    v = payloadVersion stopped (some records) ∨ v = versionOf old := by
  obtain ⟨items, tail, rfl, hspelled, hone⟩ := hs
  -- the file is the member's, or the installed one
  have hms : ∀ m ∈ itemMembers {} items, m.name = versionFile → m.kind = .regular ∧
      (m.data = printed wantedName {} (archiveRecords items tail) ∨
        shellText m.data = versionOf old) := by
    intro m hm hname
    obtain ⟨hk, hdata⟩ := prints_eq_data hone hspelled hm hname
    refine ⟨hk, .inl ?_⟩
    rw [printed_archive]
    exact hdata.symm
  have hold : ∀ i f, old.file versionFile = some (i, f) →
      f.content = printed wantedName {} (archiveRecords items tail) ∨
        shellText f.content = versionOf old := by
    intro i f hf
    refine .inr ?_
    rw [versionOf, hf]
    rfl
  have hholds : Holds (fun c => c = printed wantedName {} (archiveRecords items tail) ∨
      shellText c = versionOf old) old.store versionFile n := by
    cases h with
    | whole now top hu => exact untar_holds hms hu
    | delta now top list canLink hu => exact deltaUnpack_holds hms hu
    | diff now top list linked copied canLink hu => exact diffTree_holds hms hold hu
  obtain ⟨c, rfl | hc, rfl⟩ := imageVersion_of_holds hholds hv
  · exact .inl (payload_of_tag htag hp).symm
  · exact .inr hc

end Mu300.Update
