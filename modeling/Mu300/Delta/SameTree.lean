import Mu300.Delta.Unpacked

/-!
# An update unpacked in two ways

The whole archive into an empty directory, or the filtered one and then the links: the trees are
the same, but for the times of files that were linked.
-/

namespace Mu300.Delta

open Shell FileTree List Option Prod

/-! ## Both parts of an archive are archives -/

section Parts

variable {old : Old} {list : List Text} {ms : List Member}

theorem linksBack_filter {P : Member → Bool} (h : linksBack [] ms)
    (hP : ∀ m ∈ ms, m.kind = .hardLink → P m →
      ∀ r ∈ ms, r.kind = .regular → r.name = m.link → P r) :
    linksBack [] (ms.filter P) := by
  refine linksBack_nil_iff.2 fun done m rest he hk => ?_
  -- where the members before it in the part are in the whole
  obtain ⟨pre, post, rfl, rfl, hpost⟩ := filter_eq_append_iff.1 he
  obtain ⟨out, post, rfl, hout, hm, rfl⟩ := filter_eq_cons_iff.1 hpost
  obtain ⟨r, hr, hreg, hname⟩ := linksBack_nil_iff.1 h (pre ++ out) m post (by simp) hk
  have hPr : P r := hP m (by simp) hk hm r (by grind) hreg hname
  rcases mem_append.1 hr with hr | hr
  · exact ⟨r, mem_filter.2 ⟨hr, hPr⟩, hreg, hname⟩
  · exact absurd hPr (hout r hr)

theorem mem_written_of_directory {m : Member} (hm : m ∈ ms) (hk : m.kind = .directory) :
    m ∈ ms.filter fun m => !leftOut old list ms m := by
  have hnot : leftOut old list ms m = false :=
      leftOut_other (ne_of_eq_of_ne hk nofun) (ne_of_eq_of_ne hk nofun)
  exact mem_filter.2 ⟨hm, by simp [hnot]⟩

theorem Sound.written (hs : Sound ms) (old : Old) (list : List Text) :
    Sound (ms.filter fun m => !leftOut old list ms m) := by
  have hmem : ∀ m ∈ ms.filter (fun m => !leftOut old list ms m),
    m ∈ ms := fun m hm => mem_of_mem_filter hm
  refine ⟨hs.nodup.sublist (filter_sublist.map _), ?_, fun m hm => hs.root m (hmem m hm), ?_⟩
  · intro m hm d hd
    obtain ⟨x, hx, hk, hname⟩ := mem_dirNames.1 (hs.above m (hmem m hm) d hd)
    exact mem_dirNames.2 ⟨x, mem_written_of_directory hx hk, hk, hname⟩
  · refine linksBack_filter hs.back fun m hm hk hp r hr hreg hname => ?_
    rw [leftOut_regular hreg]
    by_contra hl
    have hl : linkable old list r := by simpa using hl
    have hout : leftOut old list ms m := (leftOut_hardLink hk).2 ⟨r, hr, hl, hname⟩
    simp [hout] at hp

theorem linksBack_leftOut (hs : Sound ms) : linksBack [] (ms.filter (leftOut old list ms)) := by
  refine linksBack_filter hs.back fun m hm hk hp r hr hreg hname => ?_
  obtain ⟨r', hr', hl, hname'⟩ := (leftOut_hardLink hk).1 hp
  rw [hs.eq_of_name hr hr' (hname.trans hname'.symm), leftOut_regular (kind_of_linkable hl)]
  exact hl

theorem regular_or_hardLink_of_leftOut {m : Member} (h : leftOut old list ms m) :
    m.kind = .regular ∨ m.kind = .hardLink := by
  by_contra hn
  rw [not_or] at hn
  rw [leftOut_other hn.1 hn.2] at h
  exact nomatch h

end Parts

/-! ## The links -/

section Links

variable {old : Old} {n₁ : New} {s : Linking} {done : List Member} {m : Member} {p : Text}

/-- The tree that tar left has grown by the members `done`: by second names of installed files, or
by copies of them in new inodes. -/
structure Linked (old : Old) (n₁ : New) (done : List Member) (s : Linking) : Prop where
  hpath : s.hpath = none
  grown : Tree.Grown n₁.tree s.saved s.new.tree
  keeps : Keeps n₁.store s.new.store
  regular : ∀ m ∈ done, m.kind = .regular → ∃ i j f, s.new.tree m.name = some (.file i) ∧
    old.file m.name = some (j, f) ∧ s.new.store.inode i = some f ∧ (i = j ∨ n₁.store.next ≤ i)
  hardLink : ∀ m ∈ done, m.kind = .hardLink →
    ∃ r ∈ done, r.kind = .regular ∧ r.name = m.link ∧ s.new.tree m.name = s.new.tree r.name
  free : ∀ q, n₁.tree q = none → q ∉ done.map Member.name → s.new.tree q = none
  apart : ∀ r ∈ done, r.kind = .regular → ∀ r' ∈ done, r'.kind = .regular →
    s.new.tree r.name = s.new.tree r'.name → r = r'

theorem Linked.refl (old : Old) (n₁ : New) : Linked old n₁ [] { new := n₁ } where
  hpath := rfl
  grown := .refl _
  keeps := ⟨Nat.le_refl _, fun _ _ hf => hf⟩
  regular := nofun
  hardLink := nofun
  free := fun _ hq _ => hq
  apart := fun _ hr => absurd hr not_mem_nil

theorem noteDir_spec (hg : Tree.Grown n₁.tree s.saved s.new.tree) {d : Text} (hd : n₁.tree.isDir d)
    (habove : ∀ a ∈ above d, n₁.tree.isDir a) :
    ∃ saved, noteDir s d = { s with saved := saved } ∧ d ∈ saved.map fst ∧
      Tree.Grown n₁.tree saved s.new.tree := by
  by_cases hin : d ∈ s.saved.map fst
  · exact ⟨s.saved, by rw [noteDir, if_pos hin], hin, hg⟩
  · -- its time is still the one tar gave it
    obtain ⟨o, time, he⟩ := Tree.isDir_iff.1 hd
    have hsame : s.new.tree d = some (.dir o time) := by
      rw [hg.same d (by rw [he]; exact nofun) hin, he]
    have hreach : s.new.tree.reaches d := all_eq_true.2 fun a ha => hg.isDir_eq (habove a ha)
    refine ⟨s.saved ++ [(d, time)], ?_, ?_, hg.note he⟩
    · rw [noteDir, if_neg hin, Tree.find, if_pos hreach, hsame]
    · rw [map_append]
      exact mem_append_right _ mem_cons_self

theorem noteDir_hpath (s : Linking) (h : Option Text) (d : Text) :
    noteDir { s with hpath := h } d = { noteDir s d with hpath := h } := by
  by_cases hd : d ∈ s.saved.map fst
  · rw [noteDir, noteDir, if_pos hd, if_pos hd]
  · rw [noteDir, noteDir, if_neg hd, if_neg hd]
    rcases s.new.tree.find d with _ | ⟨o, time⟩ | i | w <;> rfl

theorem inode_of_file {j : ℕ} {f : File} (h : old.file p = some (j, f)) :
    old.store.inode j = some f := by
  obtain ⟨e, _, he⟩ := bind_eq_some_iff.1 h
  rcases e with ⟨o, t⟩ | i | w
  · exact nomatch he
  · obtain ⟨f', hf', hpair⟩ := map_eq_some_iff.1 he
    cases hpair
    exact hf'
  · exact nomatch he

/-- The members `ls` of the archive `ms` were left out, and `n₁` is what tar made of the others. -/
structure Ground (old : Old) (ms ls : List Member) (n₁ : New) : Prop where
  sound : Sound ms
  sub : ∀ m ∈ ls, m ∈ ms
  nodup : (ls.map Member.name).Nodup
  plain : ∀ m ∈ ls, plainParts m.name
  kind : ∀ m ∈ ls, m.kind = .regular ∨ m.kind = .hardLink
  file : ∀ m ∈ ls, m.kind = .regular → ∃ j f, old.file m.name = some (j, f)
  /-- the installed inodes are there -/
  keeps : Keeps old.store n₁.store
  /-- the directories are there, and none of the names is taken -/
  root : n₁.tree.isDir []
  dirs : ∀ d ∈ dirNames ms, n₁.tree.isDir d
  free : ∀ m ∈ ls, n₁.tree m.name = none
  /-- the files are different files of the installed system -/
  apart : ∀ r ∈ ls, r.kind = .regular → ∀ r' ∈ ls, r'.kind = .regular →
    ∀ j f f', old.file r.name = some (j, f) → old.file r'.name = some (j, f') → r = r'

namespace Linked

variable {ms ls : List Member} (hg : Ground old ms ls n₁) (h : Linked old n₁ done s)
  (hdone : ∀ m ∈ done, m ∈ ls) (hm : m ∈ ls) (hnew : m.name ∉ done.map Member.name) (now : Time)
    (canLink : Text → Bool)

include hg h hdone hm hnew

theorem add {saved : List (Text × Time)} (hd : directory m.name ∈ saved.map fst)
    (hgrown : Tree.Grown n₁.tree saved s.new.tree) {e : Entry Owner Time Special}
    (he : e.isDir = false) {store : Store File} (hkeeps : Keeps s.new.store store)
    (hreg : m.kind = .regular → ∃ i j f, e = .file i ∧ old.file m.name = some (j, f) ∧
      store.inode i = some f ∧ (i = j ∨ i = s.new.store.next)) (hhard : m.kind = .hardLink →
      ∃ r ∈ done, r.kind = .regular ∧ r.name = m.link ∧ s.new.tree r.name = some e) : Linked old n₁
        (done ++ [m])
      { s with new := ⟨s.new.tree.enter now m.name e, store⟩, hpath := none, saved := saved } := by
  have hself : s.new.tree.enter now m.name e m.name = some e := Tree.enter_self he
  have hsame : ∀ x ∈ done, s.new.tree.enter now m.name e x.name = s.new.tree x.name := by
    intro x hx
    refine hgrown.enter_new hd (hg.free x (hdone x hx)) fun heq => hnew ?_
    exact heq ▸ mem_map_of_mem hx
  -- the inode is that of another installed file, or it was free
  have hother : ∀ x ∈ done, x.kind = .regular → m.kind = .regular →
      s.new.tree.enter now m.name e x.name ≠ s.new.tree.enter now m.name e m.name := by
    intro x hx hkx hkm heq
    obtain ⟨i, j, f, hi, hf, hino, hwhere⟩ := h.regular x hx hkx
    obtain ⟨i', j', f', rfl, hf', _, hwhere'⟩ := hreg hkm
    rw [hsame x hx, hself, hi] at heq
    obtain rfl : i = i' := Entry.file.inj (some.inj heq)
    rcases hwhere' with rfl | rfl
    · rcases hwhere with rfl | hle
      · obtain rfl := hg.apart x (hdone x hx) hkx m hm hkm i f f' hf hf'
        exact hnew (mem_map_of_mem hx)
      · exact absurd (Nat.lt_of_lt_of_le (Store.lt_next (inode_of_file hf')) hg.keeps.1)
          (Nat.not_lt.2 hle)
    · exact absurd (Store.lt_next hino) (Nat.lt_irrefl _)
  refine ⟨rfl, hgrown.enter (hg.free m hm) hd, h.keeps.trans hkeeps, ?_, ?_, ?_, ?_⟩
  · intro x hx hk
    rcases mem_append.1 hx with hx | hx
    · grind [h.regular x hx hk, hkeeps.2]
    · grind [h.keeps.1]
  · intro x hx hk
    rcases mem_append.1 hx with hx | hx
    · grind [h.hardLink x hx hk]
    · grind
  · intro q hq hnot
    grind [hgrown.enter_new hd hq, h.free q hq]
  · refine apart_concat (fun r hr hkr r' hr' hkr' heq => ?_) hother
    exact h.apart r hr hkr r' hr' hkr' ((hsame r hr).symm.trans (heq.trans (hsame r' hr')))

omit hdone in
theorem ready :
    s.new.tree.reaches m.name ∧ s.new.tree.isDir m.name = false ∧
      ∃ saved, noteDir s (directory m.name) = { s with saved := saved } ∧
        directory m.name ∈ saved.map fst ∧ Tree.Grown n₁.tree saved s.new.tree := by
  have habove : ∀ x ∈ ms,
      ∀ a ∈ above x.name, n₁.tree.isDir a := fun x hx a ha => hg.dirs a (hg.sound.above x hx a ha)
  refine ⟨all_eq_true.2 fun a ha => h.grown.isDir_eq (habove m (hg.sub m hm) a ha), ?_, ?_⟩
  · rw [Tree.isDir, h.free _ (hg.free m hm) hnew]
    rfl
  · rcases hg.sound.directory_mem (hg.sub m hm) with hroot | hdir
    · rw [hroot]
      exact noteDir_spec h.grown hg.root (by simp [above])
    · obtain ⟨d, hd, _, hname⟩ := mem_dirNames.1 hdir
      exact noteDir_spec h.grown (hg.dirs _ hdir) (hname ▸ habove d hd)

theorem regular_line (hk : m.kind = .regular) :
    ∃ s', tarlinkLine now old canLink s (.D m.name) = some s' ∧ Linked old n₁ (done ++ [m]) s' := by
  obtain ⟨hreach, hdir, saved, hnote, hd, hgrown⟩ := h.ready hg hm hnew
  obtain ⟨j, f, hfile⟩ := hg.file m hm hk
  have hnot : m.kind ≠ .hardLink := ne_of_eq_of_ne hk nofun
  simp only [tarlinkLine, hnote, hg.plain m hm, if_true, linkOld, hfile, bind_some, addName, hreach,
    hdir, and_self]
  by_cases hc : canLink m.name
  · have hl := h.add hg hdone hm hnew now hd hgrown (e := .file j) rfl
      ⟨Nat.le_refl _, fun _ _ hf => hf⟩
      (fun _ => ⟨j, j, f, rfl, hfile,
        h.keeps.2 j f (hg.keeps.2 j f (inode_of_file hfile)), .inl rfl⟩)
      fun hh => absurd hh hnot
    rw [← h.hpath] at hl
    rw [if_pos hc]
    exact ⟨_, rfl, hl⟩
  · have hl := h.add hg hdone hm hnew now hd hgrown (e := .file s.new.store.next) rfl
      (keeps_alloc _ f)
      (fun _ => ⟨_, j, f, rfl, hfile, Store.inode_alloc_self, .inr rfl⟩) fun hh => absurd hh hnot
    rw [← h.hpath] at hl
    rw [if_neg hc]
    exact ⟨_, rfl, hl⟩

theorem hardLink_lines (hk : m.kind = .hardLink) {r : Member}
    (hr : r ∈ done) (hkr : r.kind = .regular) (hname : r.name = m.link) :
    ∃ s', [.H m.name, .T m.link].foldlM (tarlinkLine now old canLink) s = some s' ∧
      Linked old n₁ (done ++ [m]) s' := by
  obtain ⟨hreach, hdir, saved, hnote, hd, hgrown⟩ := h.ready hg hm hnew
  obtain ⟨i, j, f, hi, _⟩ := h.regular r hr hkr
  have hplain : plainParts m.link := hname ▸ hg.plain r (hdone r hr)
  have hfind : s.new.tree.find m.link = some (.file i) := by
    rw [← hname, Tree.find, if_pos, hi]
    exact all_eq_true.2 fun a ha =>
      h.grown.isDir_eq (hg.dirs a (hg.sound.above r (hg.sub r (hdone r hr)) a ha))
  have hl := h.add hg hdone hm hnew now hd hgrown (e := .file i) rfl
    ⟨Nat.le_refl _, fun _ _ hf => hf⟩
    (fun hreg => by rw [hk] at hreg; exact nomatch hreg) fun _ => ⟨r, hr, hkr, hname, hi⟩
  refine ⟨_, ?_, hl⟩
  simp only [foldlM_cons, foldlM_nil, tarlinkLine, hg.plain m hm, if_true, bind_eq_bind, bind_some,
    noteDir_hpath, hnote, hplain, linkNew, hfind, addName, hreach, hdir, and_self, map_some]
  rfl

theorem lines (hlink : m.kind = .hardLink → ∃ r ∈ done, r.kind = .regular ∧ r.name = m.link) :
    ∃ s', (logLines m).foldlM (tarlinkLine now old canLink) s = some s' ∧
      Linked old n₁ (done ++ [m]) s' := by
  rcases hg.kind m hm with hk | hk
  · obtain ⟨s', hs', hl⟩ := h.regular_line hg hdone hm hnew now canLink hk
    have hnot : m.kind ≠ .hardLink := ne_of_eq_of_ne hk nofun
    have hlog : logLines m = [.D m.name] := if_neg hnot
    exact ⟨s', by rw [hlog, foldlM_cons, hs']; rfl, hl⟩
  · obtain ⟨r, hr, hkr, hname⟩ := hlink hk
    rw [show logLines m = [.H m.name, .T m.link] from if_pos hk]
    exact h.hardLink_lines hg hdone hm hnew now canLink hk hr hkr hname

omit h hdone hm hnew in
theorem foldlM (hback : linksBack [] ls) (h : Linked old n₁ [] s) :
    ∃ s', (ls.flatMap logLines).foldlM (tarlinkLine now old canLink) s = some s' ∧
      Linked old n₁ ls s' := by
  refine Loop.foldlM_flatMap_total (fun done m rest s he h => ?_) h
  have hnd := hg.nodup
  rw [he, map_append, nodup_append] at hnd
  have hnew : m.name ∉ done.map Member.name := fun hin =>
    hnd.2.2 _ hin _ (mem_map_of_mem mem_cons_self) rfl
  exact h.lines hg (fun x hx => he ▸ mem_append_left _ hx) (he ▸ mem_append_right _ mem_cons_self)
    hnew now canLink (linksBack_nil_iff.1 hback done m rest he)

end Linked

/-- **The log is followed to its end**: names come in, and the directories get their times back. -/
theorem tarlink_log {ms ls : List Member} (hg : Ground old ms ls n₁) (hback : linksBack [] ls)
    (now : Time) (canLink : Text → Bool) (a b : ℕ) :
    ∃ s, Linked old n₁ ls s ∧ cmdTarlink now old canLink (ls.flatMap logLines ++ [.E a b]) n₁ =
        some { s.new with tree := s.new.tree.restore s.saved } := by
  obtain ⟨s, hs, hl⟩ := Linked.foldlM hg now canLink hback (.refl old n₁)
  refine ⟨s, hl, ?_⟩
  rw [cmdTarlink, foldlM_append, hs]
  rfl

end Links

/-! ## The two trees -/

section Trees

variable {old : Old} {ms ws ls : List Member} {top : Owner} {n₁ : New} {s : Linking}

theorem unpacked_of_linked (hg : Ground old ms ls n₁) (hl : Linked old n₁ ls s)
    (hparts : ∀ m, m ∈ ms ↔ m ∈ ws ∨ m ∈ ls) (hws : Unpacked ws top (fun _ => True) n₁)
    (hnew : ∀ m ∈ ws, m.kind = .regular → ∃ i, n₁.tree m.name = some (.file i) ∧ old.store.next ≤ i)
    (hsound : Sound ws)
    (hsame : ∀ m ∈ ls, m.kind = .regular → ∀ j f, old.file m.name = some (j, f) →
      f.owner = m.owner ∧ f.content = m.data) :
    Unpacked ms top (· ∈ ws) { s.new with tree := s.new.tree.restore s.saved } := by
  have hold : ∀ p e, n₁.tree p = some e → s.new.tree.restore s.saved p = some e := by
    intro p e he
    rw [hl.grown.restore_old (by rw [he]; exact nofun), he]
  have hfresh : ∀ p, n₁.tree p = none → s.new.tree.restore s.saved p = s.new.tree p :=
    fun p hp => hl.grown.restore_new hp
  have hwritten : ∀ m ∈ ws, m.kind = .regular →
      ∃ i, s.new.tree.restore s.saved m.name = some (.file i) ∧
      n₁.tree m.name = some (.file i) ∧ old.store.next ≤ i ∧ i < n₁.store.next := by
    intro m hm hk
    obtain ⟨i, f, hi, hf, _⟩ := hws.regular m hm hk
    obtain ⟨i', hi', hle⟩ := hnew m hm hk
    obtain rfl : i = i' := Entry.file.inj (some.inj (hi.symm.trans hi'))
    exact ⟨i, hold _ _ hi, hi, hle, Store.lt_next hf⟩
  have hlinked : ∀ m ∈ ls, m.kind = .regular →
      ∃ i, s.new.tree.restore s.saved m.name = some (.file i) ∧
      s.new.tree m.name = some (.file i) ∧ (i < old.store.next ∨ n₁.store.next ≤ i) := by
    intro m hm hk
    obtain ⟨i, j, f, hi, hf, _, hwhere⟩ := hl.regular m hm hk
    refine ⟨i, (hfresh _ (hg.free m hm)).trans hi, hi, hwhere.imp_left ?_⟩
    rintro rfl
    exact Store.lt_next (inode_of_file hf)
  -- a file that was written and one that was linked
  have hothers : ∀ m ∈ ms, m.kind ≠ .regular → m.kind ≠ .hardLink → m ∈ ws := fun m hm h₁ h₂ =>
    ((hparts m).1 hm).resolve_right fun hin => (hg.kind m hin).elim h₁ h₂
  constructor
  · intro m hm hk
    rcases (hparts m).1 hm with hin | hin
    · grind [hws.regular m hin hk, hl.keeps.2]
    · grind [hl.regular m hin hk, hg.free m hin]
  · intro m hm hk
    rcases (hparts m).1 hm with hin | hin
    · grind [hsound.link hin hk, hws.hardLink m hin hk]
    · grind [hl.hardLink m hin hk, hg.free]
  · grind [hws.directory]
  · grind [hws.special]
  · intro hroot
    have hw : [] ∉ ws.map Member.name := by grind
    obtain ⟨e, he, hstill⟩ := map_eq_some_iff.1 (hws.root hw)
    exact (congrArg _ (hold _ _ he)).trans (congrArg some hstill)
  · intro p hroot hp
    have hw := hws.free p hroot
    have hf := hl.free p
    grind
  · intro r hr hkr r' hr' hkr' he
    have hwapart := hws.apart r
    have hlapart := hl.apart r
    grind [hg.free]

end Trees

/-! ## Images and manifests -/

structure Image where
  items : List Item
  /-- what follows the end of the archive -/
  tail : List Record
  sound : Sound (itemMembers {} items)
  /-- the names of files are plain paths: a manifest has no others -/
  plain : ∀ m ∈ itemMembers {} items, m.kind = .regular ∨ m.kind = .hardLink → plainParts m.name

namespace Image

def members (img : Image) : List Member := itemMembers {} img.items

def records (img : Image) : List Record := archiveRecords img.items img.tail

end Image

/-- The manifest describes the archive: a line for a file says what the file is that its path is a
name of. -/
def Describes (sha256 : Content → Text) (lines : List ManifestLine) (ms : List Member) : Prop :=
  ∀ l ∈ lines, ∃ r, NameOf ms r l.path ∧ l.owner = r.owner ∧ l.size = r.data.length ∧
    l.hash = sha256 r.data

/-- Two files of the image that are on the list are two files of the installed system. -/
def TwoFiles (old : Old) (list : List Text) (ms : List Member) : Prop :=
  ∀ r ∈ ms, r.kind = .regular → r.name ∈ list → ∀ r' ∈ ms, r'.kind = .regular → r'.name ∈ list →
    (old.file r.name).map fst = (old.file r'.name).map fst → r = r'

instance (old : Old) (list : List Text) (ms : List Member) : Decidable (TwoFiles old list ms) :=
  inferInstanceAs (Decidable (∀ r ∈ ms, _))

def linkedPaths (log : List LogLine) : List Text :=
  log.filterMap fun
    | .D p | .H p => some p
    | _ => none

/-- The same tree, up to the times at the paths `linked`. -/
structure SameTree (names linked : List Text) (n n' : New) : Prop where
  node : ∀ p, n.node p = n'.node p
  time : ∀ p ∈ names, p ∉ linked → n.time p = n'.time p
  sameFile : ∀ p q, n.SameFile p q ↔ n'.SameFile p q

section Image

variable {old : Old} {sha256 : Content → Text} {lines : List ManifestLine}
  {out : List (Bool × Text)} {ms : List Member} {m : Member} {list : List Text}

theorem line_of_mem_binaries (hsame : cmdSame sha256 old lines = some out) {p : Text}
    (hp : p ∈ binaries out) :
    ∃ l ∈ lines, l.path = p ∧ ∃ j f, old.file p = some (j, f) ∧ f.owner = l.owner := by
  unfold cmdSame at hsame
  split at hsame
  · cases hsame
    obtain ⟨x, hx, rfl⟩ := mem_map.1 hp
    obtain ⟨l, hl, hline⟩ := mem_filterMap.1 (mem_of_mem_filter hx)
    obtain ⟨⟨j, f⟩, hf, hc⟩ := bind_eq_some_iff.1 hline
    simp only [ite_none_right_eq_some, some.injEq] at hc
    obtain ⟨⟨hown, _⟩, rfl⟩ := hc
    exact ⟨l, hl, rfl, j, f, hf, hown⟩
  · exact nomatch hsame

theorem eq_of_nameOf (hs : Sound ms) {r : Member} (hm : m ∈ ms) (hk : m.kind = .regular)
    (hr : NameOf ms r m.name) : r = m := by
  obtain ⟨hr, _, he | ⟨x, hx, hkx, hname, _⟩⟩ := hr
  · exact hs.eq_of_name hr hm he.symm
  · rw [hs.eq_of_name hx hm hname, hk] at hkx
    exact nomatch hkx

theorem file_of_linkable (h : linkable old list m) :
    m.name ∈ list ∧ ∃ j f, old.file m.name = some (j, f) ∧ f.content = m.data := by
  simp only [linkable, Bool.and_eq_true, decide_eq_true_eq] at h
  obtain ⟨j, f, hf, _, hcont⟩ := Old.has_iff.1 h.2
  exact ⟨h.1.2, j, f, hf, hcont⟩

theorem same_of_linkable (hs : Sound ms) (hd : Describes sha256 lines ms)
    (hsame : cmdSame sha256 old lines = some out) (hm : m ∈ ms)
    (hl : linkable old (binaries out) m) {j : ℕ} {f : File} (hf : old.file m.name = some (j, f)) :
    f.owner = m.owner ∧ f.content = m.data := by
  obtain ⟨hlist, j', f', hf', hcont⟩ := file_of_linkable hl
  cases some.inj (hf.symm.trans hf')
  obtain ⟨l, hline, hpath, j'', f'', hf'', hown⟩ := line_of_mem_binaries hsame hlist
  cases some.inj (hf.symm.trans hf'')
  obtain ⟨r, hr, hown', _⟩ := hd l hline
  rw [hpath] at hr
  rw [hown, hown', eq_of_nameOf hs hm (kind_of_linkable hl) hr]
  exact ⟨rfl, hcont⟩

/-- The archive without the files that are left out, unpacked, is ground for their log. -/
theorem ground_of_unpacked (hs : Sound ms)
    (hplain : ∀ m ∈ ms, m.kind = .regular ∨ m.kind = .hardLink → plainParts m.name)
    (htwo : TwoFiles old list ms) {top : Owner} {n₁ : New} (hkeeps : Keeps old.store n₁.store)
    (hws : Unpacked (ms.filter fun m => !leftOut old list ms m) top (fun _ => True) n₁) :
    Ground old ms (ms.filter (leftOut old list ms)) n₁ := by
  have hmem : ∀ m ∈ ms.filter (leftOut old list ms), m ∈ ms ∧
    leftOut old list ms m := fun m hm => mem_filter.1 hm
  have hlinkable : ∀ m ∈ ms.filter (leftOut old list ms), m.kind = .regular → linkable old list m :=
    fun m hm hk => leftOut_regular hk ▸ (hmem m hm).2
  refine ⟨hs, fun m hm => (hmem m hm).1, hs.nodup.sublist (filter_sublist.map _), ?_, ?_, ?_,
    hkeeps, ?_, ?_, ?_, ?_⟩
  · exact fun m hm => hplain m (hmem m hm).1 (regular_or_hardLink_of_leftOut (hmem m hm).2)
  · exact fun m hm => regular_or_hardLink_of_leftOut (hmem m hm).2
  · intro m hm hk
    obtain ⟨_, j, f, hf, _⟩ := file_of_linkable (hlinkable m hm hk)
    exact ⟨j, f, hf⟩
  · -- the root is a member, or the directory it was before
    rw [Tree.isDir_iff]
    by_cases hroot : [] ∈ (ms.filter fun m => !leftOut old list ms m).map Member.name
    · obtain ⟨m, hm, hname⟩ := mem_map.1 hroot
      have hk := hs.root m (mem_of_mem_filter hm) hname
      exact ⟨_, _, hname ▸ hws.directory m hm hk⟩
    · obtain ⟨e, he, hstill⟩ := map_eq_some_iff.1 (hws.root hroot)
      rcases e with ⟨o, time⟩ | i | w
      · exact ⟨o, time, he⟩
      · exact nomatch hstill
      · exact nomatch hstill
  · intro d hd
    obtain ⟨m, hm, hk, rfl⟩ := mem_dirNames.1 hd
    exact Tree.isDir_iff.2 ⟨_, _, hws.directory m (mem_written_of_directory hm hk) hk⟩
  · intro m hm
    obtain ⟨hms, hout⟩ := hmem m hm
    have hk : m.kind ≠ .directory := by
      rcases regular_or_hardLink_of_leftOut hout with hk | hk <;> rw [hk] <;> exact nofun
    refine hws.free _ (hs.ne_root hms hk) fun hin => ?_
    obtain ⟨x, hx, hname⟩ := mem_map.1 hin
    obtain ⟨hx, hnot⟩ := mem_filter.1 hx
    rw [hs.eq_of_name hx hms hname, hout] at hnot
    exact nomatch hnot
  · intro r hr hkr r' hr' hkr' j f f' hf hf'
    refine htwo r (hmem r hr).1 hkr (file_of_linkable (hlinkable r hr hkr)).1 r'
      (hmem r' hr').1 hkr' (file_of_linkable (hlinkable r' hr' hkr')).1 ?_
    rw [hf, hf']
    rfl

theorem mem_linkedPaths {ls : List Member} (hm : m ∈ ls) (a b : ℕ) :
    m.name ∈ linkedPaths (ls.flatMap logLines ++ [.E a b]) := by
  by_cases hk : m.kind = .hardLink
  · refine mem_filterMap.2 ⟨.H m.name, mem_append_left _ (mem_flatMap.2 ⟨m, hm, ?_⟩), rfl⟩
    rw [logLines, if_pos hk]
    exact mem_cons_self
  · refine mem_filterMap.2 ⟨.D m.name, mem_append_left _ (mem_flatMap.2 ⟨m, hm, ?_⟩), rfl⟩
    rw [logLines, if_neg hk]
    exact mem_cons_self

end Image

/-- **The filtered archive and the links give the tree of the whole archive**, up to the times of
linked files, where two files of the image that are linked are two files of the installed
system. -/
theorem delta_same_tree (img : Image) (old : Old) (sha256 : Content → Text)
    (lines : List ManifestLine) (out : List (Bool × Text)) (hd : Describes sha256 lines img.members)
    (hsame : cmdSame sha256 old lines = some out) (htwo : TwoFiles old (binaries out) img.members)
    (canLink : Text → Bool) (top : Owner) (now : Time) :
    ∃ full filtered log new, untar now (emptyDir top now old.store) img.records = some full ∧
      cmdTarfilter old (some (binaries out)) img.records = some (filtered, log) ∧
      deltaUnpack now top old (binaries out) canLink img.records = some new ∧
      SameTree (img.members.map Member.name) (linkedPaths log) full new := by
  have hs : Sound img.members := img.sound
  obtain ⟨filtered, log, a, b, hfilter, hmembers, hlog⟩ :=
    tarfilter_archive old (binaries out) hs.nodup hs.back img.tail
  obtain ⟨full, hfull, hwhole, _⟩ := unpackAll_unpacked hs now top old.store
  obtain ⟨n₁, hn₁, hws, hkeeps, hnew⟩ :=
    unpackAll_unpacked (hs.written old (binaries out)) now top old.store
  have hg := ground_of_unpacked hs img.plain htwo hkeeps hws
  obtain ⟨s, hl, htarlink⟩ := tarlink_log hg (linksBack_leftOut hs) now canLink a b
  have hparts : ∀ m, m ∈ img.members ↔
    m ∈ (img.members.filter fun m => !leftOut old (binaries out) img.members m) ∨
        m ∈ img.members.filter (leftOut old (binaries out) img.members) := by
    intro m
    by_cases h : leftOut old (binaries out) img.members m <;> simp [h]
  have hpart := unpacked_of_linked hg hl hparts hws hnew (hs.written _ _)
    fun m hm hk j f hf => same_of_linkable hs hd hsame (mem_of_mem_filter hm)
      (leftOut_regular hk ▸ (mem_filter.1 hm).2) hf
  refine ⟨full, filtered, log, _, ?_, hfilter, ?_, hwhole.node_eq hs hpart, ?_, ?_⟩
  · rw [untar, Image.records, members_archive]
    exact hfull
  · have huntar : untar now (emptyDir top now old.store) filtered = some n₁ := by
      rw [untar, hmembers]
      exact hn₁
    rw [deltaUnpack, Image.records, hfilter, bind_some]
    simp only [huntar, bind_some, hlog]
    exact htarlink
  · intro p hp hnot
    refine hwhole.time_eq hs hpart hp fun r hr => ⟨trivial, mem_filter.2 ⟨hr.1, ?_⟩⟩
    -- a name of a file that is left out is left out
    by_contra hout
    have hout : leftOut old (binaries out) img.members r := by simpa using hout
    refine hnot ?_
    rw [hlog]
    obtain ⟨hmem, hk, rfl | ⟨m, hm, hkm, rfl, hlink⟩⟩ := hr
    · exact mem_linkedPaths (mem_filter.2 ⟨hmem, hout⟩) a b
    · rw [leftOut_regular hk] at hout
      have hout' := (leftOut_hardLink hkm).2 ⟨r, hmem, hout, hlink.symm⟩
      exact mem_linkedPaths (mem_filter.2 ⟨hm, hout'⟩) a b
  · intro p q
    rw [hwhole.sameFile_iff hs, hpart.sameFile_iff hs]

namespace Sample

def program : Owner := ⟨0o755, 0, 0⟩

def header (kind : Kind) (name link : String) : Header :=
  ⟨kind, name.toList, [], link.toList, program, 20, 0, 0⟩

/-- A directory with two programs of the same content and a second name of one of them. -/
def image : Image where
  items :=
    [.member [] (header .directory "./usr/" "") [],
      .member [] (header .regular "./usr/a" "") [0, 1],
      .member [.longName "./usr/b"] (header .regular "././@LongLink" "") [0, 1],
      .member [] (header .hardLink "./usr/c" "./usr/a") []]
  tail := [.zero]
  sound := ⟨by decide, by decide, by decide, by decide⟩
  plain := by decide

/-- The installed system, where the two are one file or two. -/
def installed (joined : Bool) : Old where
  tree p :=
    if p = "usr" then some (.dir program 10)
    else if p = "usr/a" then some (.file 0)
    else if p = "usr/b" then some (.file (if joined then 0 else 1))
    else none
  store :=
    { inode := fun i => if i < 2 then some ⟨program, 10, [0, 1], true⟩ else none
      next := 2
      free := fun i hi => if_neg (Nat.not_lt.2 hi) }
  valid := by
    intro p i h
    have hi : i < 2 := by
      split at h
      · exact nomatch h
      · split at h
        · obtain rfl := Entry.file.inj (some.inj h)
          decide
        · split at h
          · obtain rfl := Entry.file.inj (some.inj h)
            cases joined <;> decide
          · exact nomatch h
    simp [hi]

def hash (c : Content) : Text := c.map fun b => Char.ofNat b.toNat

def manifest : List ManifestLine :=
  [⟨program, 2, hash [0, 1], "usr/a"⟩, ⟨program, 2, hash [0, 1], "usr/b"⟩]

def same : List (Bool × Text) := [(true, "usr/a"), (true, "usr/b")]

theorem describes : Describes hash manifest image.members := by
  intro l hl
  rcases mem_cons.1 hl with rfl | hl
  · exact ⟨_, ⟨mem_cons_of_mem _ mem_cons_self, rfl, .inl (by decide)⟩, rfl, rfl, rfl⟩
  · obtain rfl := mem_singleton.1 hl
    exact ⟨_, ⟨mem_cons_of_mem _ (.tail _ mem_cons_self), rfl, .inl (by decide)⟩,
      rfl, rfl, rfl⟩

end Sample

/-- Two programs of one content are linked, and the tree is the same. -/
theorem delta_same_tree_sample :
    ∃ full filtered log new,
      untar 30 (emptyDir Sample.program 30 (Sample.installed false).store)
        Sample.image.records = some full ∧
      cmdTarfilter (Sample.installed false) (some (binaries Sample.same)) Sample.image.records =
        some (filtered, log) ∧
      deltaUnpack 30 Sample.program (Sample.installed false) (binaries Sample.same) (fun _ => true)
        Sample.image.records = some new ∧
      SameTree (Sample.image.members.map Member.name) (linkedPaths log) full new :=
  delta_same_tree _ _ Sample.hash Sample.manifest _ Sample.describes (by decide) (by decide) _ _ _

/-- Where the installed system has one file under two names, and the image two files: after the
update they are one. -/
theorem files_of_the_image_joined :
    ∃ (img : Image) (old : Old) (sha256 : Content → Text) (lines : List ManifestLine)
      (out : List (Bool × Text)) (top : Owner) (now : Time) (full new : New) (p q : Text),
      Describes sha256 lines img.members ∧ cmdSame sha256 old lines = some out ∧
      untar now (emptyDir top now old.store) img.records = some full ∧
      deltaUnpack now top old (binaries out) (fun _ => true) img.records = some new ∧
      ¬ full.SameFile p q ∧ new.SameFile p q := by
  have hfull : (untar 30 (emptyDir Sample.program 30 (Sample.installed true).store)
      Sample.image.records).map (fun n => (n.tree "usr/a", n.tree "usr/b")) =
      some (some (.file 2), some (.file 3)) := by decide
  have hnew : (deltaUnpack 30 Sample.program (Sample.installed true) (binaries Sample.same)
      (fun _ => true) Sample.image.records).map
        (fun n => (n.tree "usr/a", n.tree "usr/b")) =
      some (some (.file 0), some (.file 0)) := by decide
  obtain ⟨full, hf, hft⟩ := map_eq_some_iff.1 hfull
  obtain ⟨new, hn, hnt⟩ := map_eq_some_iff.1 hnew
  obtain ⟨hfa, hfb⟩ := mk.inj hft
  obtain ⟨hna, hnb⟩ := mk.inj hnt
  refine ⟨Sample.image, Sample.installed true, Sample.hash, Sample.manifest, Sample.same,
    Sample.program,
    30, full, new, "usr/a", "usr/b", Sample.describes, by decide, hf, hn, ?_, 0, hna, hnb⟩
  rintro ⟨i, hi, hi'⟩
  rw [hfa] at hi
  rw [hfb, ← hi] at hi'
  exact absurd hi' (by decide)

end Mu300.Delta
