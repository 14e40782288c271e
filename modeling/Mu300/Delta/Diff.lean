import Mu300.Delta.SameTree

/-!
# A diff, and what one path of the new system holds

A diff is the new image without the files that the image before it had as they are. What it left out
is taken from the installed system.
-/

namespace Mu300.Delta

open Shell FileTree List Option

/-! ## copy and link -/

/-- A directory that is missing is made as the installed system has it; anything else in the way
is the end. -/
def makeLike (now : Time) (old : Old) (t : Tree Owner Time Special) (d : Text) :
    Option (Tree Owner Time Special) :=
  match t d with
  | some (.dir _ _) => some t
  | some _ => none
  | none =>
    match old.tree d with
    | some (.dir owner time) => some (t.enter now d (.dir owner time))
    | _ => some (t.enter now d (.dir ⟨0o700, 0, 0⟩ now))

/-- Where a copy is: the new system, and the inodes of installed files with those they became. -/
structure Copying where
  new : New
  seen : List (ℕ × ℕ) := []

/-- One path: a second name of what was copied before, a second name of the installed file, or a
copy of it. A file that is gone is no error. -/
def copyFile (now : Time) (old : Old) (canLink : Text → Bool) (s : Copying) (p : Text) :
    Option Copying :=
  match old.file p with
  | none => some s
  | some (i, f) =>
    ((above p).foldlM (makeLike now old) s.new.tree).bind fun t =>
      if t.isDir p then none
      else
        match s.seen.find? fun x => x.1 = i with
        | some (_, j) => some { s with new := { s.new with tree := t.enter now p (.file j) } }
        | none =>
          if canLink p then
            some ⟨{ s.new with tree := t.enter now p (.file i) }, (i, i) :: s.seen⟩
          else
            some ⟨⟨t.enter now p (.file s.new.store.next), s.new.store.alloc f⟩,
              (i, s.new.store.next) :: s.seen⟩

/-- `copy OLD NEW < PATHS`, and `link` where a link can be. -/
def cmdCopy (now : Time) (old : Old) (canLink : Text → Bool) (paths : List Text) (n : New) :
    Option New :=
  (paths.foldlM (copyFile now old canLink) { new := n }).map Copying.new

/-- `.mu300-diff`, where a diff says what it is. -/
def diffHead : Text := ".mu300-diff"

/-- The new system of `diff_unpack`: the diff unpacked, its head moved away, and the files that it
left out from the installed system, by second names and by copies. -/
def diffTree (now : Time) (top : Owner) (old : Old) (list : List Text) (canLink : Text → Bool)
    (linked copied : List Text) (records : List Record) : Option New := do
  let n ← deltaUnpack now top old list canLink records
  let n ← cmdCopy now old canLink linked
    { n with tree := fun p => if p = diffHead then none else n.tree p }
  cmdCopy now old (fun _ => false) copied n

/-! ## One path -/

section Tree

variable {t t' : Tree Owner Time Special} {now time : Time} {d p q : Text}
  {e : Entry Owner Time Special} {i : ℕ} {old : Old}

theorem file_of_stamp (h : t.stamp d time q = some (.file i)) : t q = some (.file i) := by
  unfold Tree.stamp at h
  split at h
  · obtain ⟨e, he, hs⟩ := map_eq_some_iff.1 h
    rcases e with ⟨o, time'⟩ | j | w
    · cases hs
    · rw [he]
      exact congrArg some hs
    · cases hs
  · exact h

theorem file_of_enter (h : t.enter now p e q = some (.file i)) :
    q = p ∧ e = .file i ∨ t q = some (.file i) := by
  have hput : t.put p e q = some (.file i) := file_of_stamp h
  unfold Tree.put at hput
  split at hput
  · next he => exact .inl ⟨he, some.inj hput⟩
  · exact .inr hput

/-- A loop brings no file to a path where none of its passes does. -/
theorem file_of_foldl {α : Type} {f : Tree Owner Time Special → α → Tree Owner Time Special}
    (hf : ∀ t a, f t a q = some (.file i) → t q = some (.file i)) {l : List α}
    (h : l.foldl f t q = some (.file i)) : t q = some (.file i) :=
  foldlRecOn (motive := fun t' => t' q = some (.file i) → t q = some (.file i)) l f id
    (fun t' ht a _ h => ht (hf t' a h)) h

theorem file_of_makeDir (h : makeDir now t d q = some (.file i)) : t q = some (.file i) := by
  unfold makeDir at h
  split at h
  · exact h
  · rcases file_of_enter h with ⟨_, he⟩ | h
    · cases he
    · exact h

theorem file_of_settleDir {m : Member} (h : settleDir t m q = some (.file i)) :
    t q = some (.file i) := by
  unfold settleDir at h
  split at h
  · unfold Tree.put at h
    split at h
    · cases h
    · exact h
  · exact h

theorem file_of_makeLike (hm : makeLike now old t d = some t') (h : t' q = some (.file i)) :
    t q = some (.file i) := by
  have hdir : ∀ {o : Owner} {time : Time}, t' = t.enter now d (.dir o time) →
      t q = some (.file i) := by
    rintro o time rfl
    rcases file_of_enter h with ⟨_, he⟩ | h
    · cases he
    · exact h
  unfold makeLike at hm
  split at hm
  · cases hm
    exact h
  · cases hm
  · split at hm
    · exact hdir (some.inj hm).symm
    · exact hdir (some.inj hm).symm

theorem file_of_makeLikes {ds : List Text} (hm : ds.foldlM (makeLike now old) t = some t')
    (h : t' q = some (.file i)) : t q = some (.file i) :=
  Loop.foldlM_rule (I := fun _ u => u q = some (.file i) → t q = some (.file i))
    (fun _ _ _ _ _ _ hI hu h => hI (file_of_makeLike hu h)) id hm h

end Tree

/-- The file at `q`, where one is, has a content in `φ`; and the inodes of `base` are there. -/
structure Holds (φ : Content → Prop) (base : Store File) (q : Text) (n : New) : Prop where
  keeps : Keeps base n.store
  only : ∀ i, n.tree q = some (.file i) → ∃ f, n.store.inode i = some f ∧ φ f.content

section Holds

variable {φ : Content → Prop} {old : Old} {base : Store File} {n n' : New} {now : Time}
  {p q : Text} {canLink : Text → Bool}

theorem Holds.emptyDir (φ : Content → Prop) (top : Owner) (now : Time)
    (base : Store File) (q : Text) : Holds φ base q (emptyDir top now base) := by
  refine ⟨⟨Nat.le_refl _, fun _ _ hf => hf⟩, fun i hi => ?_⟩
  unfold Delta.emptyDir at hi
  dsimp only at hi
  split at hi
  · cases hi
  · cases hi

namespace Holds

section

variable (h : Holds φ base q n) {t : Tree Owner Time Special} {j : ℕ}

include h

theorem tree
    (ht : ∀ i, t q = some (.file i) → n.tree q = some (.file i)) :
    Holds φ base q { n with tree := t } :=
  ⟨h.keeps, fun i hi => h.only i (ht i hi)⟩

theorem alloc (f : File) : Holds φ base q { n with store := n.store.alloc f } := by
  refine ⟨h.keeps.trans (keeps_alloc _ _), fun i hi => ?_⟩
  obtain ⟨f', hf', hφ⟩ := h.only i hi
  exact ⟨f', Store.inode_alloc hf', hφ⟩

theorem enter (ht : ∀ i, t q = some (.file i) → n.tree q = some (.file i))
    (hj : p = q → ∃ f, n.store.inode j = some f ∧ φ f.content) :
    Holds φ base q { n with tree := t.enter now p (.file j) } := by
  refine ⟨h.keeps, fun i hi => ?_⟩
  rcases file_of_enter hi with ⟨rfl, he⟩ | hi
  · obtain rfl := Entry.file.inj he
    exact hj rfl
  · exact h.only i (ht i hi)

theorem unpack {m : Member} (hm : m.name = q → m.kind = .regular ∧ φ m.data)
    (hu : unpack now n m = some n') : Holds φ base q n' := by
  have habove : ∀ i, makeAbove now n.tree m.name q = some (.file i) → n.tree q = some (.file i) :=
    fun _ => file_of_foldl fun _ _ => file_of_makeDir
  unfold Delta.unpack at hu
  dsimp only at hu
  split at hu
  · -- a directory
    cases hu
    exact h.tree fun i hi => habove i (file_of_makeDir hi)
  · cases hu
    exact (h.alloc m.file).enter habove fun hq => ⟨m.file, Store.inode_alloc_self, (hm hq).2⟩
  · next hk =>
    split at hu
    · cases hu
      exact h.enter habove fun hq => absurd (hk.symm.trans (hm hq).1) (by decide)
    · cases hu
  · cases hu
    refine h.tree fun i hi => ?_
    rcases file_of_enter hi with ⟨_, he⟩ | hi
    · cases he
    · exact habove i hi

theorem unpackAll {ms : List Member} (hms : ∀ m ∈ ms, m.name = q → m.kind = .regular ∧ φ m.data)
    (hu : unpackAll now n ms = some n') : Holds φ base q n' := by
  obtain ⟨n₁, hn₁, rfl⟩ := map_eq_some_iff.1 hu
  have hmembers : Holds φ base q n₁ := by
    refine Loop.foldlM_rule (I := fun _ n => Holds φ base q n)
      (fun done m rest n n' he h hu => ?_) h hn₁
    exact h.unpack (hms m (he ▸ mem_append_right _ mem_cons_self)) hu
  exact hmembers.tree fun i hi => file_of_foldl (fun _ _ => file_of_settleDir) hi

theorem addName (hj : p = q → ∃ f, n.store.inode j = some f ∧ φ f.content)
    (ha : addName now p (.file j) n = some n') : Holds φ base q n' := by
  unfold Delta.addName at ha
  split at ha
  · cases ha
    exact h.enter (fun _ hi => hi) hj
  · cases ha

end

variable {canLink : Text → Bool}

theorem tarlinkLine (h : Holds φ old.store q n) {s s' : Linking} (hs : s.new = n)
    (hpath : s.hpath ≠ some q) {l : LogLine}
    (hl : l = .D q → ∀ i f, old.file q = some (i, f) → φ f.content) (hl' : l ≠ .H q)
    (hline : tarlinkLine now old canLink s l = some s') : Holds φ old.store q s'.new ∧
    s'.hpath ≠ some q := by
  subst hs
  have hnote : ∀ d, (noteDir s d).new = s.new ∧ (noteDir s d).hpath = s.hpath := by
    intro d
    unfold noteDir
    split
    · exact ⟨rfl, rfl⟩
    · split <;> exact ⟨rfl, rfl⟩
  cases l with
  | E a b =>
    cases hline
    exact ⟨h, hpath⟩
  | H p =>
    rw [Delta.tarlinkLine] at hline
    split at hline
    · cases hline
      exact ⟨h, fun he => hl' (congrArg LogLine.H (some.inj he))⟩
    · cases hline
  | T target =>
    obtain ⟨p, hp, hline⟩ := bind_eq_some_iff.1 hline
    have hne : p ≠ q := fun he => hpath (hp.trans (congrArg some he))
    dsimp only at hline
    split at hline
    · obtain ⟨n', hn', rfl⟩ := map_eq_some_iff.1 hline
      rw [(hnote _).1] at hn'
      refine ⟨?_, fun he => by cases he⟩
      unfold linkNew at hn'
      split at hn'
      · cases hn'
      · cases hn'
      · next e _ _ =>
        unfold Delta.addName at hn'
        split at hn'
        · cases hn'
          refine h.tree fun i hi => ?_
          exact (file_of_enter hi).resolve_left fun hq => hne hq.1.symm
        · cases hn'
    · cases hline
  | D p =>
    simp only [Delta.tarlinkLine] at hline
    split at hline
    · obtain ⟨n', hn', rfl⟩ := map_eq_some_iff.1 hline
      rw [(hnote _).1] at hn'
      refine ⟨?_, by rw [(hnote _).2]; exact hpath⟩
      obtain ⟨⟨i, f⟩, hf, hn'⟩ := bind_eq_some_iff.1 hn'
      have hφ : p = q → φ f.content := by
        rintro rfl
        exact hl rfl i f hf
      dsimp only at hn'
      split at hn'
      · exact h.addName (fun hq => ⟨f, h.keeps.2 i f (inode_of_file hf), hφ hq⟩) hn'
      · exact (h.alloc f).addName (fun hq => ⟨f, Store.inode_alloc_self, hφ hq⟩) hn'
    · cases hline

theorem cmdTarlink (h : Holds φ old.store q n) {log : List LogLine}
    (hD : .D q ∈ log → ∀ i f, old.file q = some (i, f) → φ f.content) (hH : .H q ∉ log)
    (hu : cmdTarlink now old canLink log n = some n') : Holds φ old.store q n' := by
  obtain ⟨s, hs, hend⟩ := bind_eq_some_iff.1 hu
  have hall : Holds φ old.store q s.new ∧ s.hpath ≠ some q := by
    refine Loop.foldlM_rule (I := fun _ s => Holds φ old.store q s.new ∧ s.hpath ≠ some q)
      (fun done l rest s s' he hI hl => ?_) ⟨h, by simp⟩ hs
    have hmem : l ∈ log := he ▸ mem_append_right _ mem_cons_self
    exact hI.1.tarlinkLine rfl hI.2 (fun hD' => hD (hD' ▸ hmem)) (fun hH' => hH (hH' ▸ hmem)) hl
  split at hend
  · cases hend
    exact hall.1.tree fun i hi => file_of_foldl (fun _ _ => file_of_stamp) hi
  · cases hend

end Holds

/-- Inodes that came of installed ones have their files. -/
def Copied (old : Old) (store : Store File) (seen : List (ℕ × ℕ)) : Prop :=
  ∀ x ∈ seen, ∀ f, old.store.inode x.1 = some f → store.inode x.2 = some f

theorem copyFile_holds {s s' : Copying} (h : Holds φ old.store q s.new)
    (hseen : Copied old s.new.store s.seen) (hold : ∀ i f, old.file q = some (i, f) → φ f.content)
    (hc : copyFile now old canLink s p = some s') : Holds φ old.store q s'.new ∧
    Copied old s'.new.store s'.seen := by
  unfold copyFile at hc
  split at hc
  · cases hc
    exact ⟨h, hseen⟩
  · next i f hf =>
    obtain ⟨t, ht, hc⟩ := bind_eq_some_iff.1 hc
    have hmade : ∀ i, t q = some (.file i) →
      s.new.tree q = some (.file i) := fun _ => file_of_makeLikes ht
    have hφ : p = q → φ f.content := by
      rintro rfl
      exact hold i f hf
    have hi : old.store.inode i = some f := inode_of_file hf
    split at hc
    · cases hc
    · split at hc
      · next i' j hj =>
        cases hc
        obtain rfl : i' = i := by simpa using find?_some hj
        have hx : s.new.store.inode j = some f := hseen (i', j) (List.mem_of_find?_eq_some hj) f hi
        exact ⟨h.enter hmade fun hq => ⟨f, hx, hφ hq⟩, hseen⟩
      · split at hc
        · cases hc
          refine ⟨h.enter hmade fun hq => ⟨f, h.keeps.2 i f hi, hφ hq⟩, fun x hx f' hf' => ?_⟩
          rcases mem_cons.1 hx with rfl | hx
          · exact h.keeps.2 _ _ hf'
          · exact hseen x hx f' hf'
        · cases hc
          refine ⟨(h.alloc f).enter hmade fun hq => ⟨f, Store.inode_alloc_self, hφ hq⟩,
            fun x hx f' hf' => ?_⟩
          rcases mem_cons.1 hx with rfl | hx
          · rw [hi] at hf'
            cases hf'
            exact Store.inode_alloc_self
          · exact Store.inode_alloc (hseen x hx f' hf')

theorem Holds.cmdCopy {paths : List Text} (h : Holds φ old.store q n)
    (hold : ∀ i f, old.file q = some (i, f) → φ f.content)
    (hc : cmdCopy now old canLink paths n = some n') : Holds φ old.store q n' := by
  obtain ⟨s, hs, rfl⟩ := map_eq_some_iff.1 hc
  exact (Loop.foldlM_rule
    (I := fun _ s => Holds φ old.store q s.new ∧ Copied old s.new.store s.seen)
    (fun _ _ _ _ _ _ hI hs => copyFile_holds hI.1 hI.2 hold hs) ⟨h, by simp [Copied]⟩ hs).1

end Holds

/-! ## The three ways to a new system -/

section Ways

variable {items : List Item} {tail : List Record} {old : Old} {now : Time} {top : Owner} {q : Text}
  {φ : Content → Prop} {n : New} {canLink : Text → Bool} {list : List Text}

variable (hms : ∀ m ∈ itemMembers {} items, m.name = q → m.kind = .regular ∧ φ m.data)
include hms

theorem untar_holds {base : Store File}
    (hu : untar now (emptyDir top now base) (archiveRecords items tail) = some n) :
    Holds φ base q n := by
  rw [untar, members_archive] at hu
  exact (Holds.emptyDir φ top now base q).unpackAll hms hu

theorem deltaUnpack_holds
    (hu : deltaUnpack now top old list canLink (archiveRecords items tail) = some n) :
    Holds φ old.store q n := by
  obtain ⟨ws, ls, ⟨out, log, a, b, hfilter, hout, rfl⟩, hws, hls⟩ :=
    tarfilter_sifted old list tail items {} {} rfl rfl
  rw [deltaUnpack, cmdTarfilter, hfilter, bind_some] at hu
  obtain ⟨n₁, hn₁, hlink⟩ := bind_eq_some_iff.1 hu
  simp only [untar, hout, bind_some] at hn₁
  have h₁ : Holds φ old.store q n₁ :=
    (Holds.emptyDir φ top now old.store q).unpackAll (fun m hm => hms m (hws hm)) hn₁
  -- a line of the log is one of a member that was left out
  refine h₁.cmdTarlink (fun hD i f hf => ?_) (fun hH => ?_) hlink
  · obtain ⟨m, hm, hl⟩ := mem_flatMap.1 ((mem_append.1 hD).resolve_right (by simp))
    obtain ⟨hk, rfl⟩ := D_mem_logLines.1 hl
    obtain ⟨-, hφ⟩ := hms m (hls m hm).1 rfl
    obtain ⟨_, j, f', hf', hdata⟩ := file_of_linkable ((hls m hm).2.resolve_right hk)
    rw [hf] at hf'
    cases hf'
    exact hdata ▸ hφ
  · obtain ⟨m, hm, hl⟩ := mem_flatMap.1 ((mem_append.1 hH).resolve_right (by simp))
    obtain ⟨hk, rfl⟩ := H_mem_logLines.1 hl
    exact absurd (hk.symm.trans (hms m (hls m hm).1 rfl).1) (by decide)

theorem diffTree_holds {linked copied : List Text}
    (hold : ∀ i f, old.file q = some (i, f) → φ f.content)
    (hu : diffTree now top old list canLink linked copied (archiveRecords items tail) = some n) :
    Holds φ old.store q n := by
  obtain ⟨n₁, hn₁, hu⟩ := bind_eq_some_iff.1 hu
  obtain ⟨n₂, hn₂, hu⟩ := bind_eq_some_iff.1 hu
  have h₁ : Holds φ old.store q n₁ := deltaUnpack_holds hms hn₁
  have hhead : Holds φ old.store q
      { n₁ with tree := fun p => if p = diffHead then none else n₁.tree p } := by
    refine h₁.tree fun i hi => ?_
    split at hi
    · cases hi
    · exact hi
  exact (hhead.cmdCopy hold hn₂).cmdCopy hold hu

end Ways

end Mu300.Delta
