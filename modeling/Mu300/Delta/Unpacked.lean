import Mu300.Delta.Filter
import Mu300.Lib.Loop

/-!
# What tar leaves

* `Sound` — the archives that the images are: distinct names, the directories of every member are
  members, hard links name files before them.
-/

namespace Mu300.Delta

open Shell FileTree List Member Entry

/-! ## Archives -/

/-- The directories among members. -/
def dirNames (ms : List Member) : List Text := (ms.filter fun m => m.kind = .directory).map name

variable {ms : List Member} {m : Member}

theorem mem_dirNames {p : Text} : p ∈ dirNames ms ↔ ∃ m ∈ ms, m.kind = .directory ∧ m.name = p := by
  simp [dirNames, and_assoc]

structure Sound (ms : List Member) : Prop where
  nodup : (ms.map name).Nodup
  above : ∀ m ∈ ms, ∀ d ∈ above m.name, d ∈ dirNames ms
  /-- the root is a directory -/
  root : ∀ m ∈ ms, m.name = [] → m.kind = .directory
  back : linksBack [] ms

namespace Sound

variable {ms : List Member} {m m' : Member}

section

variable (h : Sound ms) (hm : m ∈ ms)

include h hm

theorem eq_of_name (hm' : m' ∈ ms) (he : m.name = m'.name) : m = m' :=
  inj_on_of_nodup_map h.nodup hm hm' he

theorem not_mem_dirNames (hk : m.kind ≠ .directory) : m.name ∉ dirNames ms := by
  intro hd
  obtain ⟨d, hd, hkd, hname⟩ := mem_dirNames.1 hd
  exact hk (h.eq_of_name hd hm hname ▸ hkd)

theorem ne_root (hk : m.kind ≠ .directory) : m.name ≠ [] :=
  fun he => hk (h.root m hm he)

theorem directory_mem : directory m.name = [] ∨ directory m.name ∈ dirNames ms :=
  (directory_eq m.name).imp_right fun hd => h.above m hm _ hd

end

end Sound

theorem Sound.link (h : Sound ms) (hm : m ∈ ms)
    (hk : m.kind = .hardLink) : ∃ r ∈ ms, r.kind = .regular ∧ r.name = m.link := by
  obtain ⟨done, rest, rfl⟩ := append_of_mem hm
  obtain ⟨r, hr, hlink⟩ := linksBack_nil_iff.1 h.back done m rest rfl hk
  exact ⟨r, mem_append_left _ hr, hlink⟩

/-! ## Trees -/

/-- The members are there, under an owner `top` of the root, and nothing else. The times of the
files in `timed` are their own. -/
structure Unpacked (ms : List Member) (top : Owner) (timed : Member → Prop) (n : New) : Prop where
  regular : ∀ m ∈ ms, m.kind = .regular → ∃ i f, n.tree m.name = some (.file i) ∧
    n.store.inode i = some f ∧ f.owner = m.owner ∧ f.content = m.data ∧ (timed m → f.time = m.time)
  hardLink : ∀ m ∈ ms, m.kind = .hardLink → n.tree m.name = n.tree m.link
  directory : ∀ m ∈ ms, m.kind = .directory → n.tree m.name = some (.dir m.owner m.time)
  special : ∀ m ∈ ms, m.kind ≠ .regular → m.kind ≠ .hardLink → m.kind ≠ .directory →
    n.tree m.name = some (.special m.special)
  root : [] ∉ ms.map name → (n.tree []).map still = some (.dir top ())
  free : ∀ p, p ≠ [] → p ∉ ms.map name → n.tree p = none
  /-- two files are two inodes -/
  apart : ∀ r ∈ ms, r.kind = .regular →
    ∀ r' ∈ ms, r'.kind = .regular → n.tree r.name = n.tree r'.name → r = r'

/-- `p` is a name of the file `r`. -/
def NameOf (ms : List Member) (r : Member) (p : Text) : Prop :=
  r ∈ ms ∧ r.kind = .regular ∧
    (p = r.name ∨ ∃ m ∈ ms, m.kind = .hardLink ∧ m.name = p ∧ m.link = r.name)

namespace Unpacked

variable {ms : List Member} {top : Owner} {timed timed' : Member → Prop} {n n' : New} {p q : Text}

theorem tree_of_nameOf (h : Unpacked ms top timed n) {r : Member} (hp : NameOf ms r p) :
    n.tree p = n.tree r.name := by
  obtain ⟨_, _, rfl | ⟨m, hm, hk, rfl, hlink⟩⟩ := hp
  · rfl
  · rw [h.hardLink m hm hk, hlink]

theorem cases_path (hs : Sound ms) (p : Text) :
    (∃ r, NameOf ms r p) ∨ (∃ m ∈ ms, m.kind = .directory ∧ m.name = p) ∨
      (∃ m ∈ ms, m.kind ≠ .regular ∧ m.kind ≠ .hardLink ∧ m.kind ≠ .directory ∧ m.name = p) ∨
      p ∉ ms.map name := by
  by_cases hp : p ∈ ms.map name
  · obtain ⟨m, hm, rfl⟩ := mem_map.1 hp
    by_cases hreg : m.kind = .regular
    · exact .inl ⟨m, hm, hreg, .inl rfl⟩
    · by_cases hhard : m.kind = .hardLink
      · obtain ⟨r, hr, hk, hname⟩ := hs.link hm hhard
        exact .inl ⟨r, hr, hk, .inr ⟨m, hm, hhard, rfl, hname.symm⟩⟩
      · by_cases hdir : m.kind = .directory
        · exact .inr (.inl ⟨m, hm, hdir, rfl⟩)
        · exact .inr (.inr (.inl ⟨m, hm, hreg, hhard, hdir, rfl⟩))
  · exact .inr (.inr (.inr hp))

variable (hs : Sound ms) (h : Unpacked ms top timed n)
include hs h

/-- Two names lead to one file exactly when they are names of one file of the archive. -/
theorem sameFile_iff : n.SameFile p q ↔ ∃ r, NameOf ms r p ∧ NameOf ms r q := by
  -- only names of files lead to inodes
  have hname : ∀ {x i}, n.tree x = some (.file i) → ∃ r, NameOf ms r x := by
    intro x i hx
    rcases cases_path hs x with hr | ⟨m, hm, hk, rfl⟩ | ⟨m, hm, hreg, hhard, hdir, rfl⟩ | hnot
    · exact hr
    · grind [h.directory m hm hk]
    · grind [h.special m hm hreg hhard hdir]
    · by_cases hroot : x = []
      · subst hroot
        have hst := h.root hnot
        rw [hx] at hst
        exact nomatch hst
      · grind [h.free x hroot hnot]
  constructor
  · rintro ⟨i, hp, hq⟩
    obtain ⟨r, hr⟩ := hname hp
    obtain ⟨r', hr'⟩ := hname hq
    have heq : n.tree r.name = n.tree r'.name := by
      rw [← h.tree_of_nameOf hr, ← h.tree_of_nameOf hr', hp, hq]
    obtain rfl := h.apart r hr.1 hr.2.1 r' hr'.1 hr'.2.1 heq
    exact ⟨r, hr, hr'⟩
  · rintro ⟨r, hp, hq⟩
    obtain ⟨i, f, hi, _⟩ := h.regular r hp.1 hp.2.1
    exact ⟨i, (h.tree_of_nameOf hp).trans hi, (h.tree_of_nameOf hq).trans hi⟩

variable (h' : Unpacked ms top timed' n')
include h'

theorem node_eq (p : Text) : n.node p = n'.node p := by
  rcases cases_path hs p with ⟨r, hp⟩ | ⟨m, hm, hk, rfl⟩ | ⟨m, hm, hreg, hhard, hdir, rfl⟩ | hp
  · obtain ⟨i, f, hi, hf, hown, hcont, _⟩ := h.regular r hp.1 hp.2.1
    obtain ⟨i', f', hi', hf', hown', hcont', _⟩ := h'.regular r hp.1 hp.2.1
    simp [New.node, h.tree_of_nameOf hp, h'.tree_of_nameOf hp, hi, hi', hf, hf', hown, hown',
      hcont, hcont']
  · simp [New.node, h.directory m hm hk, h'.directory m hm hk]
  · simp [New.node, h.special m hm hreg hhard hdir, h'.special m hm hreg hhard hdir]
  · by_cases hroot : p = []
    · subst hroot
      have hdir : ∀ {k : New}, (k.tree []).map still = some (.dir top ()) →
          k.node [] = some (.dir top) := by
        intro k hk
        obtain ⟨e, he, hst⟩ := Option.map_eq_some_iff.1 hk
        rcases e with ⟨o, t⟩ | i | w
        · obtain ⟨rfl, _⟩ := dir.inj hst
          rw [New.node, he]
          rfl
        · exact nomatch hst
        · exact nomatch hst
      rw [hdir (h.root hp), hdir (h'.root hp)]
    · simp [New.node, h.free p hroot hp, h'.free p hroot hp]

theorem time_eq (hp : p ∈ ms.map name) (htimed : ∀ r, NameOf ms r p → timed r ∧ timed' r) :
    n.time p = n'.time p := by
  rcases cases_path hs p with ⟨r, hr⟩ | ⟨m, hm, hk, rfl⟩ | ⟨m, hm, hreg, hhard, hdir, rfl⟩ | hnot
  · obtain ⟨i, f, hi, hf, _, _, ht⟩ := h.regular r hr.1 hr.2.1
    obtain ⟨i', f', hi', hf', _, _, ht'⟩ := h'.regular r hr.1 hr.2.1
    simp [New.time, h.tree_of_nameOf hr, h'.tree_of_nameOf hr, hi, hi', hf, hf', ht (htimed r hr).1,
      ht' (htimed r hr).2]
  · simp [New.time, h.directory m hm hk, h'.directory m hm hk]
  · simp [New.time, h.special m hm hreg hhard hdir, h'.special m hm hreg hhard hdir]
  · exact absurd hp hnot

end Unpacked

/-! ## Unpacking -/

section Unpack

variable {ms done : List Member} {base : Store File} {top : Owner} {now : Time}
  {n n' : New} {m : Member} {t : Tree Owner Time Special} {p q d : Text}

/-- Not a directory of the archive, and not the root. -/
def Outside (ms : List Member) (q : Text) : Prop := q ∉ dirNames ms ∧ q ≠ []

theorem Sound.outside (hs : Sound ms) (hm : m ∈ ms) (hk : m.kind ≠ .directory) :
    Outside ms m.name :=
  ⟨hs.not_mem_dirNames hm hk, hs.ne_root hm hk⟩

theorem Sound.ne_directory (hs : Sound ms) (hm : m ∈ ms) (hq : Outside ms q) :
    q ≠ directory m.name := by
  rintro rfl
  exact (hs.directory_mem hm).elim hq.2 hq.1

theorem makeDir_outside (hs : Sound ms) (hd : d ∈ dirNames ms) (hq : Outside ms q) :
    makeDir now t d q = t q := by
  unfold makeDir
  split
  · rfl
  · obtain ⟨m, hm, _, rfl⟩ := mem_dirNames.1 hd
    exact Tree.enter_of_ne (fun he => hq.1 (he ▸ hd)) (hs.ne_directory hm hq)

theorem makeDir_root (hroot : (t []).map still = some (.dir top ())) :
    (makeDir now t d []).map still = some (.dir top ()) := by
  unfold makeDir
  split
  · exact hroot
  · next hd =>
    rw [Tree.still_enter_of_ne, hroot]
    rintro rfl
    obtain ⟨e, he, hst⟩ := Option.map_eq_some_iff.1 hroot
    rcases e with ⟨o, t⟩ | i | w
    · rw [Tree.isDir, he] at hd
      exact hd rfl
    · cases hst
    · cases hst

theorem foldl_makeDir (hs : Sound ms) (now : Time) (top : Owner) (t : Tree Owner Time Special)
    {ds : List Text} (hds : ∀ d ∈ ds, d ∈ dirNames ms) :
    (∀ q, Outside ms q → ds.foldl (makeDir now) t q = t q) ∧
    ((t []).map still = some (.dir top ()) →
        (ds.foldl (makeDir now) t []).map still = some (.dir top ())) := by
  induction ds generalizing t with
  | nil => exact ⟨fun _ _ => rfl, id⟩
  | cons d ds ih =>
    obtain ⟨hout, hroot⟩ := ih (makeDir now t d) fun d' hd' => hds d' (.tail _ hd')
    refine ⟨fun q hq => ?_, fun hr => hroot (makeDir_root hr)⟩
    exact (hout q hq).trans (makeDir_outside hs (hds d mem_cons_self) hq)

/-- The files of a store are still there. -/
def Keeps (s s' : Store File) : Prop :=
  s.next ≤ s'.next ∧ ∀ i f, s.inode i = some f → s'.inode i = some f

theorem Keeps.trans {s s' s'' : Store File} (h : Keeps s s') (h' : Keeps s' s'') : Keeps s s'' :=
  ⟨Nat.le_trans h.1 h'.1, fun i f hf => h'.2 i f (h.2 i f hf)⟩

theorem keeps_alloc (s : Store File) (f : File) : Keeps s (s.alloc f) :=
  ⟨Nat.le_succ _, fun _ _ hf => Store.inode_alloc hf⟩

/-- The members `done` are there, as far as they are not directories, in new inodes. -/
structure Placed (ms : List Member) (base : Store File) (top : Owner)
    (done : List Member) (n : New) : Prop where
  regular : ∀ m ∈ done, m.kind = .regular →
    ∃ i, n.tree m.name = some (.file i) ∧ n.store.inode i = some m.file ∧ base.next ≤ i
  hardLink : ∀ m ∈ done, m.kind = .hardLink →
    ∃ r ∈ done, r.kind = .regular ∧ r.name = m.link ∧ n.tree m.name = n.tree r.name
  special : ∀ m ∈ done, m.kind ≠ .regular → m.kind ≠ .hardLink → m.kind ≠ .directory →
    n.tree m.name = some (.special m.special)
  root : (n.tree []).map still = some (.dir top ())
  free : ∀ q, Outside ms q → q ∉ done.map name → n.tree q = none
  keeps : Keeps base n.store
  apart : ∀ r ∈ done, r.kind = .regular →
    ∀ r' ∈ done, r'.kind = .regular → n.tree r.name = n.tree r'.name → r = r'

/-- Files that are told apart by something, with one more that is apart from each of them. -/
theorem apart_concat {α : Type} {f : Member → α}
    (h : ∀ r ∈ done, r.kind = .regular → ∀ r' ∈ done, r'.kind = .regular → f r = f r' → r = r')
    (hm : ∀ r ∈ done, r.kind = .regular → m.kind = .regular → f r ≠ f m) :
    ∀ r ∈ done ++ [m], r.kind = .regular → ∀ r' ∈ done ++ [m], r'.kind = .regular →
      f r = f r' → r = r' := by
  refine forall_mem_append.2 ⟨fun r hr hk => ?_, forall_mem_singleton.2 fun hk => ?_⟩
  · refine forall_mem_append.2 ⟨h r hr hk, forall_mem_singleton.2 fun hk' he => ?_⟩
    exact absurd he (hm r hr hk hk')
  · refine forall_mem_append.2 ⟨fun r hr hk' he => ?_, forall_mem_singleton.2 fun _ _ => rfl⟩
    exact absurd he.symm (hm r hr hk' hk)

namespace Placed

section Member

variable (hs : Sound ms) (h : Placed ms base top done n) (hdone : ∀ m ∈ done, m ∈ ms) (hm : m ∈ ms)
  (hnew : m ∉ done)

include hs h hdone hm hnew

/-- One more member: what is outside the directories stays, and the member is as it should be. -/
theorem extend (hout : ∀ q, Outside ms q → q ≠ m.name → n'.tree q = n.tree q)
    (hroot : (n'.tree []).map still = some (.dir top ())) (hkeeps : Keeps n.store n'.store)
    (hreg : m.kind = .regular → n'.tree m.name = some (.file n.store.next) ∧
      n'.store.inode n.store.next = some m.file) (hhard : m.kind = .hardLink →
      ∃ r ∈ done, r.kind = .regular ∧ r.name = m.link ∧ n'.tree m.name = n.tree r.name)
    (hspecial : m.kind ≠ .regular → m.kind ≠ .hardLink → m.kind ≠ .directory →
      n'.tree m.name = some (.special m.special)) : Placed ms base top (done ++ [m]) n' := by
  -- what was there is still there
  have hsame : ∀ x ∈ done, x.kind ≠ .directory → n'.tree x.name = n.tree x.name := by
    intro x hx hk
    refine hout _ (hs.outside (hdone x hx) hk) fun he => hnew ?_
    rwa [hs.eq_of_name hm (hdone x hx) he.symm]
  have hold : ∀ x ∈ done, x.kind = .regular → ∃ i, n'.tree x.name = some (.file i) ∧
      n'.store.inode i = some x.file ∧ base.next ≤ i ∧ i < n.store.next := by
    intro x hx hk
    obtain ⟨i, hi, hf, hb⟩ := h.regular x hx hk
    exact ⟨i, (hsame x hx (ne_of_eq_of_ne hk nofun)).trans hi, hkeeps.2 i _ hf, hb,
      Store.lt_next hf⟩
  refine ⟨?_, ?_, ?_, hroot, ?_, h.keeps.trans hkeeps, ?_⟩
  · refine forall_mem_append.2 ⟨fun x hx hk => ?_, forall_mem_singleton.2 fun hk => ?_⟩
    · obtain ⟨i, hi, hf, hb, _⟩ := hold x hx hk
      exact ⟨i, hi, hf, hb⟩
    · exact ⟨_, (hreg hk).1, (hreg hk).2, h.keeps.1⟩
  · intro x hx hk
    rcases mem_append.1 hx with hx | hx
    · grind [h.hardLink x hx hk]
    · grind
  · refine forall_mem_append.2 ⟨fun x hx h₁ h₂ h₃ => ?_, forall_mem_singleton.2 hspecial⟩
    rw [hsame x hx h₃, h.special x hx h₁ h₂ h₃]
  · intro q hq hnot
    rw [map_append, mem_append, not_or] at hnot
    rw [hout q hq fun he => hnot.2 (he ▸ mem_map_of_mem mem_cons_self), h.free q hq hnot.1]
  · refine apart_concat (fun r hr hkr r' hr' hkr' he => ?_) fun x hx hkx hkm he => ?_
    · rw [hsame r hr (ne_of_eq_of_ne hkr nofun), hsame r' hr' (ne_of_eq_of_ne hkr' nofun)] at he
      exact h.apart r hr hkr r' hr' hkr' he
    · -- the inode of the new one was free
      obtain ⟨i, hi, _, _, hlt⟩ := hold x hx hkx
      rw [hi, (hreg hkm).1] at he
      obtain rfl : i = n.store.next := file.inj (Option.some.inj he)
      exact Nat.lt_irrefl _ hlt

theorem enter (hk : m.kind ≠ .directory) {e : Entry Owner Time Special} (he : e.isDir = false)
    {s : Store File} (hkeeps : Keeps n.store s)
    (hreg : m.kind = .regular → e = .file n.store.next ∧ s.inode n.store.next = some m.file)
    (hhard : m.kind = .hardLink → ∃ r ∈ done, r.kind = .regular ∧ r.name = m.link ∧
      n.tree r.name = some e)
    (hspecial : m.kind ≠ .regular → m.kind ≠ .hardLink → e = .special m.special) :
    Placed ms base top (done ++ [m]) ⟨(makeAbove now n.tree m.name).enter now m.name e, s⟩ := by
  obtain ⟨hout, hroot⟩ := foldl_makeDir hs now top n.tree (hs.above m hm)
  have hself : (makeAbove now n.tree m.name).enter now m.name e m.name = some e :=
    Tree.enter_self he
  refine extend hs h hdone hm hnew (fun q hq hne => ?_) ?_ hkeeps (fun hr => ?_) (fun hh => ?_)
    fun h₁ h₂ _ => ?_
  · exact (Tree.enter_of_ne hne (hs.ne_directory hm hq)).trans (hout q hq)
  · exact (Tree.still_enter_of_ne (Ne.symm (hs.ne_root hm hk))).trans (hroot h.root)
  · exact ⟨hself.trans (congrArg some (hreg hr).1), (hreg hr).2⟩
  · obtain ⟨r, hr, hkr, hname, hre⟩ := hhard hh
    exact ⟨r, hr, hkr, hname, hself.trans hre.symm⟩
  · exact hself.trans (congrArg some (hspecial h₁ h₂))

theorem unpack (now : Time)
    (hlink : m.kind = .hardLink → ∃ r ∈ done, r.kind = .regular ∧ r.name = m.link) :
    ∃ n', unpack now n m = some n' ∧ Placed ms base top (done ++ [m]) n' := by
  obtain ⟨hout, hroot⟩ := foldl_makeDir hs now top n.tree (hs.above m hm)
  have hrefl : Keeps n.store n.store := ⟨Nat.le_refl _, fun _ _ hf => hf⟩
  have hspecial : m.kind ≠ .regular → m.kind ≠ .hardLink → m.kind ≠ .directory →
      Placed ms base top (done ++ [m])
        ⟨(makeAbove now n.tree m.name).enter now m.name (.special m.special), n.store⟩ :=
    fun h₁ h₂ h₃ => h.enter hs hdone hm hnew h₃ rfl hrefl (fun hk => absurd hk h₁)
      (fun hk => absurd hk h₂) fun _ _ => rfl
  unfold Delta.unpack
  rcases hk : m.kind with _ | _ | _ | _ | _ | _ | _
  case regular =>
    exact ⟨_, rfl, h.enter hs hdone hm hnew (ne_of_eq_of_ne hk nofun) rfl (keeps_alloc _ _)
      (fun _ => ⟨rfl, Store.inode_alloc_self⟩) (fun hh => by rw [hk] at hh; exact nomatch hh)
      fun hr => absurd hk hr⟩
  case hardLink =>
    obtain ⟨r, hr, hkr, hname⟩ := hlink hk
    obtain ⟨i, hi, _⟩ := h.regular r hr hkr
    have hlook : makeAbove now n.tree m.name m.link = some (.file i) := by
      rw [← hname]
      exact (hout _ (hs.outside (hdone r hr) (ne_of_eq_of_ne hkr nofun))).trans hi
    simp only [hlook]
    exact ⟨_, rfl, h.enter hs hdone hm hnew (ne_of_eq_of_ne hk nofun) rfl hrefl
      (fun hr => by rw [hk] at hr; exact nomatch hr) (fun _ => ⟨r, hr, hkr, hname, hi⟩)
      fun _ hh => absurd hk hh⟩
  case directory =>
    have hd : m.name ∈ dirNames ms := mem_dirNames.2 ⟨m, hm, hk, rfl⟩
    refine ⟨_, rfl, extend hs h hdone hm hnew (fun q hq _ => ?_) ?_ hrefl (fun hr => ?_)
      (fun hh => ?_) fun _ _ h₃ => absurd hk h₃⟩
    · exact (makeDir_outside hs hd hq).trans (hout q hq)
    · exact makeDir_root (hroot h.root)
    · rw [hk] at hr
      exact nomatch hr
    · rw [hk] at hh
      exact nomatch hh
  all_goals
    exact ⟨_, rfl, hspecial (ne_of_eq_of_ne hk nofun) (ne_of_eq_of_ne hk nofun)
      (ne_of_eq_of_ne hk nofun)⟩

end Member

theorem foldlM (hs : Sound ms) (now : Time) (h : Placed ms base top [] n) :
    ∃ n', ms.foldlM (Delta.unpack now) n = some n' ∧ Placed ms base top ms n' := by
  refine Loop.foldlM_total (fun done m rest n hms h => ?_) h
  have hnd := hs.nodup
  rw [hms, map_append, nodup_append] at hnd
  have hnew : m ∉ done := fun hin =>
    hnd.2.2 _ (mem_map_of_mem hin) _ (mem_map_of_mem mem_cons_self) rfl
  exact h.unpack hs (fun x hx => hms ▸ mem_append_left _ hx)
    (hms ▸ mem_append_right _ mem_cons_self) hnew now
    (linksBack_nil_iff.1 hs.back done m rest hms)

end Placed

theorem mem_name_of_dirNames (h : q ∈ dirNames ms) : q ∈ ms.map name := by
  obtain ⟨d, hd, -, rfl⟩ := mem_dirNames.1 h
  exact mem_map_of_mem hd

theorem foldl_settleDir_other (h : q ∉ dirNames ms) : ms.foldl settleDir t q = t q := by
  refine foldlRecOn (motive := fun t' : FileTree.Tree .. => t' q = t q) ms _ rfl
    fun t' ht m hm => ?_
  refine Eq.trans ?_ ht
  unfold settleDir
  split
  · next hk => exact if_neg fun he => h (mem_dirNames.2 ⟨m, hm, hk, he.symm⟩)
  · rfl

theorem foldl_settleDir (hn : (ms.map name).Nodup) (hm : m ∈ ms) (hk : m.kind = .directory) :
    ms.foldl settleDir t m.name = some (.dir m.owner m.time) := by
  induction ms generalizing t with
  | nil => exact nomatch hm
  | cons x ms ih =>
    rw [map_cons, nodup_cons] at hn
    rcases mem_cons.1 hm with rfl | hm
    · have hself : settleDir t m m.name = some (.dir m.owner m.time) := by
        rw [settleDir, if_pos hk]
        exact if_pos rfl
      exact (foldl_settleDir_other (mt mem_name_of_dirNames hn.1)).trans hself
    · exact ih hn.2 hm

/-- **What tar leaves** of a sound archive in an empty directory. -/
theorem unpackAll_unpacked (hs : Sound ms) (now : Time) (top : Owner) (base : Store File) :
    ∃ n, unpackAll now (emptyDir top now base) ms = some n ∧ Unpacked ms top (fun _ => True) n ∧
      Keeps base n.store ∧
      ∀ m ∈ ms, m.kind = .regular → ∃ i, n.tree m.name = some (.file i) ∧ base.next ≤ i := by
  have hempty : Placed ms base top [] (emptyDir top now base) :=
    ⟨nofun, nofun, nofun, rfl, fun q hq _ => if_neg hq.2, ⟨Nat.le_refl _, fun _ _ hf => hf⟩,
      fun r hr => absurd hr not_mem_nil⟩
  obtain ⟨n, hn, hp⟩ := hempty.foldlM hs now
  have hout : ∀ x ∈ ms, x.kind ≠ .directory → ms.foldl settleDir n.tree x.name = n.tree x.name :=
    fun x hx hk => foldl_settleDir_other (hs.not_mem_dirNames hx hk)
  refine ⟨{ n with tree := ms.foldl settleDir n.tree },
    by rw [unpackAll, hn]; rfl, ?_, hp.keeps, ?_⟩
  · refine ⟨?_, ?_, fun m hm hk => foldl_settleDir hs.nodup hm hk, ?_, ?_, ?_, ?_⟩
    · intro m hm hk
      obtain ⟨i, hi, hf, _⟩ := hp.regular m hm hk
      exact ⟨i, m.file, (hout m hm (ne_of_eq_of_ne hk nofun)).trans hi, hf, rfl, rfl, fun _ => rfl⟩
    · intro m hm hk
      obtain ⟨r, hr, hkr, hname, heq⟩ := hp.hardLink m hm hk
      rw [← hname]
      exact (hout m hm (ne_of_eq_of_ne hk nofun)).trans
        (heq.trans (hout r hr (ne_of_eq_of_ne hkr nofun)).symm)
    · intro m hm h₁ h₂ h₃
      exact (hout m hm h₃).trans (hp.special m hm h₁ h₂ h₃)
    · intro hnot
      exact (congrArg _ (foldl_settleDir_other (mt mem_name_of_dirNames hnot))).trans hp.root
    · intro p hroot hnot
      have hd : p ∉ dirNames ms := mt mem_name_of_dirNames hnot
      exact (foldl_settleDir_other hd).trans (hp.free p ⟨hd, hroot⟩ hnot)
    · intro r hr hkr r' hr' hkr' he
      refine hp.apart r hr hkr r' hr' hkr' ?_
      rw [← hout r hr (ne_of_eq_of_ne hkr nofun), ← hout r' hr' (by rw [hkr']; exact nofun)]
      exact he
  · intro m hm hk
    obtain ⟨i, hi, _, hb⟩ := hp.regular m hm hk
    exact ⟨i, (hout m hm (ne_of_eq_of_ne hk nofun)).trans hi, hb⟩

end Unpack

end Mu300.Delta
