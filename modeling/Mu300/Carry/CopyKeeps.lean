import Mu300.Carry.Copy
import Mu300.Lib.Loop

/-!
# What a copy keeps

A run of `mu300-carry copy` over a list of paths that are all different.
-/

namespace Mu300.CarryCopy

open Shell FileTree List Option Disk Probing.Table

/-! ## Attributes -/

def Node.NoBits (n : Node) : Prop := n.mode &&& setIds = 0

def Node.NoCapability (n : Node) : Prop := ∀ a ∈ n.xattrs, a.1 ≠ capability

/-- What `copy_meta` does to a node. -/
structure Attributes (moved link : Bool) (f : Node → Node) : Prop where
  kind : ∀ n, (f n).kind = n.kind
  bits : moved → ∀ n, (link → n.NoBits) → (f n).NoBits
  capability : moved → ∀ n, n.NoCapability → (f n).NoCapability

theorem and_setIds (mode : ℕ) : (mode &&& 0o1777) &&& setIds = 0 := by
  rw [Nat.and_assoc]
  exact Nat.and_zero mode

theorem Node.chown_noBits {uid gid : ℕ} {n : Node} (h : n.NoBits) : (n.chown uid gid).NoBits := by
  unfold chown NoBits
  split
  · exact h
  · exact and_setIds n.mode

theorem Node.chown_noCapability {uid gid : ℕ} {n : Node} (h : n.NoCapability) :
    (n.chown uid gid).NoCapability := by
  intro a ha
  unfold chown at ha
  split at ha
  · exact h a ha
  · exact h a (mem_filter.1 ha).1

section Attributes

variable {env : Env} {p : Text} {st : Node} {d d' : Disk Node.isDir} {moved : Bool}

/-- What setting extended attributes of the place does. -/
def Extends (p : Text) (moved : Bool) (d d' : Disk Node.isDir) : Prop :=
  ∃ f : Node → Node, d' = d.modify p f ∧ (∀ n, (f n).kind = n.kind ∧ (f n).mode = n.mode) ∧
    (moved → ∀ n, n.NoCapability → (f n).NoCapability)

theorem Extends.refl : Extends p moved d d :=
  ⟨id, modify_id.symm, fun _ => ⟨rfl, rfl⟩, fun _ _ hn => hn⟩

theorem setAttrs_eq {as : List (Text × List UInt8)} {s s' : Disk Node.isDir × Bool}
    (h : as.foldlM (setAttr env moved p) s = some s') : Extends p moved s.1 s'.1 := by
  refine Loop.foldlM_rule (I := fun _ t => Extends p moved s.1 t.1)
    (fun done a rest t t' _ hI ha => ?_) .refl h
  obtain ⟨f, ht, hsame, hcaps⟩ := hI
  unfold setAttr at ha
  split at ha
  · cases ha
    exact ⟨f, ht, hsame, hcaps⟩
  next hcap =>
  split at ha
  · cases ha
  split at ha
  · cases ha
    refine ⟨Node.setXattr a ∘ f, ?_, hsame, fun hmoved n hn b hb => ?_⟩
    · rw [ht, modify_modify]
    · rcases mem_cons.1 hb with rfl | hb
      · exact fun heq => hcap (by rw [hmoved, Bool.true_and]; exact decide_eq_true heq)
      · exact hcaps hmoved n hn b (mem_filter.1 hb).1
  · split at ha
    · cases ha
      exact ⟨f, ht, hsame, hcaps⟩
    · cases ha

theorem copyXattrs_eq {s : Disk Node.isDir × Bool} (h : copyXattrs env p st d = some s) :
    Extends p (env.moved st) d s.1 := by
  unfold copyXattrs at h
  split at h
  · exact setAttrs_eq h
  · split at h
    · cases h
      exact .refl
    · cases h

theorem copyOwner_eq (h : copyOwner env p st d = some d') :
    ∃ f : Node → Node, d' = d.modify p f ∧ (∀ n, (f n).kind = n.kind) ∧
      (∀ n, n.NoBits → (f n).NoBits) ∧ ∀ n, n.NoCapability → (f n).NoCapability := by
  unfold copyOwner at h
  split at h
  · cases h
    exact ⟨_, rfl, fun n => rfl,
      fun n hn => Node.chown_noBits hn, fun n hn => Node.chown_noCapability hn⟩
  · split at h
    · cases h
      exact ⟨id, modify_id.symm, fun n => rfl, fun n hn => hn, fun n hn => hn⟩
    · cases h

theorem modeFor_bits (h : env.moved st) : env.modeFor st &&& setIds = 0 := by
  unfold Env.modeFor Env.strips
  rw [h, Bool.true_and]
  split
  · exact and_setIds st.mode
  · next hnot => exact not_not.1 fun hne => hnot (decide_eq_true hne)

variable {m : Node} (hm : d.node p = some m) (hlink : m.kind.isLink = st.kind.isLink)

include hm hlink

theorem copyMode_eq (h : copyMode env p st d = some d') :
    ∃ f : Node → Node, d' = d.modify p f ∧ (∀ n, (f n).kind = n.kind ∧ (f n).xattrs = n.xattrs) ∧
      ∀ n, if st.kind.isLink then (f n).mode = n.mode else (f n).mode = env.modeFor st := by
  unfold copyMode at h
  split at h
  · next hl =>
    cases h
    exact ⟨id, modify_id.symm, fun n => ⟨rfl, rfl⟩, fun n => by rw [if_pos hl]; rfl⟩
  next hl =>
  split at h
  · cases h
  rw [chmodAt, hm] at h
  dsimp only at h
  rw [hlink, if_neg hl] at h
  cases h
  exact ⟨_, rfl, fun n => ⟨rfl, rfl⟩, fun n => by rw [if_neg hl]⟩

theorem copyMeta_eq {took : Bool} (h : copyMeta env p st d = some (d', took)) :
    ∃ f, d' = d.modify p f ∧ Attributes (env.moved st) st.kind.isLink f := by
  obtain ⟨d₁, h₁, h⟩ := bind_eq_some_iff.1 h
  obtain ⟨d₂, h₂, h⟩ := bind_eq_some_iff.1 h
  obtain ⟨⟨d₃, took₃⟩, h₃, h⟩ := bind_eq_some_iff.1 h
  obtain ⟨d₄, h₄, heq⟩ := map_eq_some_iff.1 h
  cases heq
  obtain ⟨f₁, rfl, hkind₁, hbits₁, hcaps₁⟩ := copyOwner_eq h₁
  have hm₁ : (d.modify p f₁).node p = some (f₁ m) := by
    obtain ⟨i, hi, hm⟩ := node_eq_some.1 hm
    rw [node_eq_some, names_modify, store_modify hi]
    exact ⟨i, hi, Store.inode_modify_self hm⟩
  obtain ⟨f₂, rfl, hsame₂, hmode₂⟩ := copyMode_eq hm₁ (by rw [hkind₁, hlink]) h₂
  obtain ⟨f₃, hd₃, hsame₃, hcaps₃⟩ := copyXattrs_eq h₃
  subst hd₃
  unfold copyTimes at h₄
  split at h₄
  · cases h₄
  cases h₄
  refine ⟨(fun m => { m with time := st.time }) ∘ f₃ ∘ f₂ ∘ f₁, ?_,
    fun n => ?_, fun hmoved n hn => ?_, fun hmoved n hn => ?_⟩
  · rw [modify_modify, modify_modify, modify_modify]
    rfl
  · exact (hsame₃ _).1.trans ((hsame₂ _).1.trans (hkind₁ n))
  · change (f₃ (f₂ (f₁ n))).mode &&& setIds = 0
    rw [(hsame₃ _).2]
    have hm := hmode₂ (f₁ n)
    split at hm
    · next hl =>
      rw [hm]
      exact hbits₁ n (hn hl)
    · rw [hm]
      exact modeFor_bits hmoved
  · refine hcaps₃ hmoved _ fun a ha => hcaps₁ n hn a ?_
    rw [Function.comp_apply, (hsame₂ _).2] at ha
    exact ha

end Attributes

/-! ## One path -/

section Path

variable (env : Env) {src : Source} {p q : Text} {k : Key} {s t t' : State} {L : Text → Prop}
  {d d' : Disk Node.isDir} (kind : Kind)

theorem within_make (h : d.Sound) (hroot : p ≠ []) (hp : L p ∨ ∃ r, L r ∧ p ∈ above r)
    (hnone : d.names p = none) (hdirs : ∀ q ∈ above p, d.isDir q) (kind : Kind) (mode : ℕ) :
    Within L d (make env kind mode p d) := by
  have hcreate := (Within.refl h).renames (L := L)
    (.create hroot (n := ⟨kind, env.me.1, env.me.2, mode, [], env.now⟩)) (isDir_of_none hnone)
    (hp.imp_right fun hr => ⟨hr, hnone⟩)
  exact hcreate.stamp hp (fun q hq => hcreate.isDir (hdirs q hq)) fun n => rfl

/-- Work on the path `p`, so far. -/
structure Going (p : Text) (s t : State) : Prop where
  within : Within (· = p) s.disk t.disk
  seen : t.seen = s.seen
  /-- directories that are new on the list are near the path -/
  later : ∀ q ∈ t.later, q ∈ s.later ∨ Near (· = p) q ∧ t.disk.isDir q
  keeps : ∀ q ∈ s.later, q ∈ t.later

theorem Going.refl (h : s.disk.Sound) : Going p s s :=
  ⟨.refl h, rfl, fun _ hq => .inl hq, fun _ hq => hq⟩

theorem Going.step {d : Disk Node.isDir} (h : Going p s t) (hw : Within (· = p) t.disk d) :
    Going p s { t with disk := d } :=
  ⟨h.within.trans hw, h.seen,
    fun q hq => (h.later q hq).imp_right fun hnear => ⟨hnear.1, hw.isDir hnear.2⟩, h.keeps⟩

theorem Going.note (h : Going p s t) (hnear : Near (· = p) q) (hdir : t.disk.isDir q) :
    Going p s { t with later := t.later ++ [q] } := by
  refine ⟨h.within, h.seen, ?_, fun r hr => mem_append_left _ (h.keeps r hr)⟩
  exact forall_mem_append.2 ⟨h.later, forall_mem_singleton.2 (.inr ⟨hnear, hdir⟩)⟩

theorem names_stamp : (stamp env p d).names = d.names := names_modify

theorem names_make (mode : ℕ) : (make env kind mode p d).names p = some d.store.next := by
  rw [make, names_stamp]
  exact if_pos rfl

theorem inode_make (mode : ℕ) :
    ∃ n, (make env kind mode p d).store.inode d.store.next = some n ∧ n.kind = kind ∧
      n.mode = mode ∧ n.xattrs = [] := by
  have hnew : (d.create p ⟨kind, env.me.1, env.me.2, mode, [], env.now⟩).store.inode d.store.next =
      some ⟨kind, env.me.1, env.me.2, mode, [], env.now⟩ := Store.inode_alloc_self
  rcases inode_modify (p := directory p) (f := fun m => { m with time := env.now })
    hnew with h | ⟨-, h⟩
  · exact ⟨_, h, rfl, rfl, rfl⟩
  · exact ⟨_, h, rfl, rfl, rfl⟩

theorem isDir_make (mode : ℕ) : (make env .dir mode p d).isDir p := by
  obtain ⟨n, hn, hkind, -⟩ := inode_make env (p := p) (d := d) .dir mode
  exact isDir_iff.2 ⟨_, n, names_make env .dir mode, hn, decide_eq_true hkind⟩

variable {env} {mode : ℕ}

theorem Going.enterPart (h : Going p s t) (hq : q ∈ above p) (hroot : q ≠ [])
    (hdirs : ∀ r ∈ above q, t.disk.isDir r) (ht : enterPart env t q = some t') :
    Going p s t' ∧ Within (· = p) t.disk t'.disk ∧ t'.disk.isDir q := by
  unfold CarryCopy.enterPart at ht
  split at ht
  · next n hn =>
    split at ht
    · next hdir =>
      cases ht
      obtain ⟨i, hi, hn⟩ := node_eq_some.1 hn
      exact ⟨h, .refl h.within.sound, isDir_iff.2 ⟨i, n, hi, hn, hdir⟩⟩
    · cases ht
  · next hnode =>
    split at ht
    · cases ht
    cases ht
    have hnone := h.within.sound.names_eq_none hnode
    have hstep := within_make env (L := (· = p)) h.within.sound hroot (.inr ⟨p, rfl, hq⟩)
      hnone hdirs .dir 0o700
    exact ⟨(h.step hstep).note (.inr ⟨p, rfl, .inr hq⟩) (isDir_make env _), hstep, isDir_make env _⟩

theorem ne_nil_of_plain (h : Delta.plainParts p) (hq : q ∈ above p) : q ≠ [] := by
  rintro rfl
  obtain ⟨r, rfl⟩ := mem_above_iff.1 hq
  simp [Delta.plainParts, splitOn, splitOnP_cons_eq_if_modifyHead] at h

theorem Going.parentOf (h : s.disk.Sound) (hplain : Delta.plainParts p)
    (ht : parentOf env p s = some t) : Going p s t ∧ ∀ q ∈ above p, t.disk.isDir q := by
  refine Loop.foldlM_rule (I := fun done u => Going p s u ∧ ∀ q ∈ done, u.disk.isDir q)
    (fun done q rest u u' hl hI hu => ?_) ⟨Going.refl h, fun q hq => by cases hq⟩ ht
  obtain ⟨hgoing, hdone⟩ := hI
  have hq : q ∈ above p := by
    rw [hl]
    exact mem_append_right _ mem_cons_self
  -- the directories on the way to a part come before it
  have hdirs : ∀ r ∈ above q, u.disk.isDir r := by
    intro r hr
    have hrp := above_trans hr hq
    have hsorted := above_sorted p
    have hshort : r.length < q.length := by
      obtain ⟨w, rfl⟩ := mem_above_iff.1 hr
      simp
    rw [hl, pairwise_append] at hsorted
    rw [hl] at hrp
    rcases mem_append.1 hrp with hrp | hrp
    · exact hdone r hrp
    · rcases mem_cons.1 hrp with rfl | hrp
      · omega
      · have := (pairwise_cons.1 hsorted.2.1).1 r hrp
        omega
  obtain ⟨hgoing', hstep, hdir⟩ := hgoing.enterPart hq (ne_nil_of_plain hplain hq) hdirs hu
  refine ⟨hgoing', forall_mem_append.2 ⟨fun r hr => ?_, forall_mem_singleton.2 hdir⟩⟩
  exact hstep.isDir (hdone r hr)

/-- How something that is not a directory came to a path. -/
inductive Put (env : Env) (src : Source) (p : Text) (k : Key) (s t : State) : Prop where
  | none (hname : t.disk.names p = none) (hfile : (src.node k).kind.isFile = false)
    (hseen : t.seen = s.seen)
  | new (i : ℕ) (n : Node) (hname : t.disk.names p = some i) (hfresh : s.disk.store.next ≤ i)
    (hnode : t.disk.store.inode i = some n) (hkind : n.kind = (src.node k).kind)
    (hbare : env.moved (src.node k) → n.NoBits ∧ n.NoCapability)
    (hseen : t.seen = s.seen ∧ ((src.node k).kind.isFile = false ∨ ¬ 1 < src.nlink k) ∨
      t.seen = s.seen.add seenHash seenFirst k p ∧ (src.node k).kind.isFile ∧ 1 < src.nlink k ∧
        s.seen.find seenHash k = none)
  | linked (first : Text) (i : ℕ) (hfile : (src.node k).kind.isFile) (hnlink : 1 < src.nlink k)
    (hfind : s.seen.find seenHash k = some first) (hfirst : s.disk.names first = some i)
    (hname : t.disk.names p = some i) (hseen : t.seen = s.seen)

/-- What was done for a path that the source has. -/
structure Copied (env : Env) (src : Source) (p : Text) (k : Key) (s t : State) : Prop where
  within : Within (· = p) s.disk t.disk
  later : ∀ q ∈ t.later, q ∈ s.later ∨ Near (· = p) q ∧ t.disk.isDir q
  keeps : ∀ q ∈ s.later, q ∈ t.later
  reached : ∀ q ∈ above p, t.disk.isDir q
  dir : (src.node k).kind = .dir → t.disk.isDir p ∧ p ∈ t.later ∧ t.seen = s.seen
  other : (src.node k).kind ≠ .dir → Put env src p k s t

/-- The first name of a file, as a table has it. -/
def FirstOf (s : State) (p : Text) (k : Key) : Prop :=
  ∀ first, s.seen.find seenHash k = some first → first ≠ p ∧ (∀ q ∈ above first, s.disk.isDir q) ∧
    ∃ i n, s.disk.names first = some i ∧ s.disk.store.inode i = some n ∧ n.isDir = false

section

variable (h : Going p s t) (hdirs : ∀ q ∈ above p, t.disk.isDir q)

include h hdirs

theorem Going.clear {st : Node} (ht : clear env st p t = some t') :
    Going p s t' ∧ Within (· = p) t.disk t'.disk ∧
      (t'.disk.names p = none ∨ t'.disk.isDir p ∧ st.isDir) := by
  unfold CarryCopy.clear at ht
  split at ht
  · next hnode =>
    cases ht
    exact ⟨h, .refl h.within.sound, .inl (h.within.sound.names_eq_none hnode)⟩
  · next n hn =>
    obtain ⟨i, hi, hn⟩ := node_eq_some.1 hn
    split at ht
    · next hdir =>
      split at ht
      · next hst =>
        cases ht
        exact ⟨h, .refl h.within.sound, .inr ⟨isDir_iff.2 ⟨i, n, hi, hn, hdir⟩, hst⟩⟩
      · cases ht
    · next hdir =>
      split at ht
      · cases ht
      cases ht
      have hfile : t.disk.isDir p = false := by
        rw [Bool.eq_false_iff]
        intro htrue
        obtain ⟨j, m, hj, hm, hdir'⟩ := isDir_iff.1 htrue
        cases hi.symm.trans hj
        cases hn.symm.trans hm
        exact hdir hdir'
      have hremove : Within (· = p) t.disk (t.disk.remove p) :=
        (Within.refl h.within.sound).renames .remove hfile (.inl rfl)
      have hstep : Within (· = p) t.disk (stamp env p (t.disk.remove p)) :=
        hremove.stamp (.inl rfl) (fun q hq => hremove.isDir (hdirs q hq)) fun n => rfl
      refine ⟨h.step hstep, hstep, .inl ?_⟩
      rw [names_stamp]
      exact if_pos rfl

theorem Going.copied (hdir : (src.node k).kind ≠ .dir)
    (hput : Put env src p k s t) : Copied env src p k s t :=
  ⟨h.within, h.later, h.keeps, hdirs, fun hd => absurd hd hdir, fun _ => hput⟩

theorem Going.copied_dir (hp : t.disk.isDir p)
    (hkind : (src.node k).kind = .dir) :
    Copied env src p k s { t with later := t.later ++ [p] } := by
  have hnote := h.note (.inl rfl) hp
  exact ⟨hnote.within, hnote.later, hnote.keeps, hdirs,
    fun _ => ⟨hp, mem_append_right _ (mem_singleton_self p), h.seen⟩, fun hd => absurd hkind hd⟩

variable (hroot : p ≠ [])

include hroot

section

variable (hnone : t.disk.names p = none)

include hnone

theorem Going.made (hmode : (src.node k).kind.isLink → mode &&& setIds = 0)
    (ht : { t with disk := make env (src.node k).kind mode p t.disk }.attributes env p
      (src.node k) = some t') :
    Going p s t' ∧ Within (· = p) t.disk t'.disk ∧
      ∃ i n, t'.disk.names p = some i ∧ s.disk.store.next ≤ i ∧ t'.disk.store.inode i = some n ∧
        n.kind = (src.node k).kind ∧ (env.moved (src.node k) → n.NoBits ∧ n.NoCapability) := by
  obtain ⟨⟨d', took⟩, hmeta, rfl⟩ := map_eq_some_iff.1 ht
  obtain ⟨n, hn, hkind, hnmode, hattrs⟩ :=
    inode_make env (p := p) (d := t.disk) (src.node k).kind mode
  have hname := names_make env (p := p) (d := t.disk) (src.node k).kind mode
  obtain ⟨f, rfl, hf⟩ := copyMeta_eq (node_eq_some.2 ⟨_, hname, hn⟩) (by rw [hkind]) hmeta
  have hdirf : ∀ m, (f m).isDir = m.isDir := fun m => by rw [Node.isDir, Node.isDir, hf.kind]
  have hstep : Within (· = p) t.disk ((make env (src.node k).kind mode p t.disk).modify p f) := by
    have hmake := within_make env (L := (· = p)) h.within.sound hroot (.inl rfl) hnone hdirs
      (src.node k).kind mode
    refine hmake.modify (.inl rfl) hdirf (.inr fun i hi => ?_)
    cases hname.symm.trans hi
    exact Nat.le_refl _
  have hgoing := h.step hstep
  refine ⟨⟨hgoing.within, hgoing.seen, hgoing.later, hgoing.keeps⟩, hstep, _, f n, ?_,
    h.within.next, ?_, ?_, ?_⟩
  · rw [names_modify]
    exact hname
  · rw [store_modify hname]
    exact Store.inode_modify_self hn
  · rw [hf.kind, hkind]
  · intro hmoved
    refine ⟨hf.bits hmoved n fun hl => ?_, hf.capability hmoved n fun a ha => ?_⟩
    · rw [Node.NoBits, hnmode]
      exact hmode hl
    · rw [hattrs] at ha
      cases ha

theorem Going.copied_new (hmode : (src.node k).kind.isLink → mode &&& setIds = 0)
    (hdir : (src.node k).kind ≠ .dir) (hfile : (src.node k).kind.isFile = false)
    (ht : { t with disk := make env (src.node k).kind mode p t.disk }.attributes env p
      (src.node k) = some t') :
    Copied env src p k s t' := by
  obtain ⟨hgoing, hstep, i, n, hi, hfresh, hn, hkind, hbare⟩ := h.made hdirs hroot hnone hmode ht
  exact hgoing.copied (fun q hq => hstep.isDir (hdirs q hq)) hdir
    (.new i n hi hfresh hn hkind hbare (.inl ⟨hgoing.seen, .inl hfile⟩))

theorem Going.copyFile {content : List UInt8} (hkind : (src.node k).kind = .file content)
    (hfirst : FirstOf s p k) (hstill : env.vanishes p = false)
    (ht : copyFile env src k content p t = some t') : Copied env src p k s t' := by
  have hfile : (src.node k).kind.isFile := by rw [hkind]; rfl
  have hdir : (src.node k).kind ≠ .dir := by rw [hkind]; rintro ⟨⟩
  unfold CarryCopy.copyFile at ht
  split at ht
  · next first hfind =>
    -- one more name
    split at hfind
    next hnlink =>
      split at ht
      · cases ht
      obtain ⟨i, hi, rfl⟩ := map_eq_some_iff.1 ht
      rw [h.seen] at hfind
      obtain ⟨hne, hway, j, n, hj, hn, hnd⟩ := hfirst first hfind
      have hjt := h.within.stays first j hne hj
      have hij : i = j := by
        unfold inodeOf at hi
        rw [if_pos (all_eq_true.2 fun q hq => h.within.isDir (hway q hq)), hjt] at hi
        exact (some.inj hi).symm
      subst hij
      obtain ⟨m, hm⟩ := h.within.sound.valid first i hjt
      have hmd : m.isDir = false := (h.within.dir_of_node hn hm).trans hnd
      have hlink : Within (· = p) t.disk (t.disk.link p i) :=
        (Within.refl h.within.sound).renames (.link hroot hm hmd) (isDir_of_none hnone) (.inl rfl)
      have hstep : Within (· = p) t.disk (stamp env p (t.disk.link p i)) :=
        hlink.stamp (.inl rfl) (fun q hq => hlink.isDir (hdirs q hq)) fun n => rfl
      refine (h.step hstep).copied (fun q hq => hstep.isDir (hdirs q hq)) hdir
        (.linked first i hfile hnlink hfind hj ?_ h.seen)
      rw [names_stamp]
      exact if_pos rfl
    · cases hfind
  · next hfind =>
    -- a copy
    unfold copyNew at ht
    rw [hstill, if_neg Bool.false_ne_true] at ht
    split at ht
    · cases ht
    rw [← hkind] at ht
    obtain ⟨u, hu, ht⟩ := bind_eq_some_iff.1 ht
    have hlink : (src.node k).kind.isLink → 0o600 &&& setIds = 0 := fun _ => rfl
    obtain ⟨hgoing, hstep, i, n, hi, hfresh, hn, hnkind, hbare⟩ := h.made hdirs hroot hnone hlink hu
    have hreached : ∀ q ∈ above p, u.disk.isDir q := fun q hq => hstep.isDir (hdirs q hq)
    split at ht
    · next hnlink =>
      cases ht
      rw [if_pos hnlink, h.seen] at hfind
      refine ⟨hgoing.within, hgoing.later, hgoing.keeps, hreached,
        fun hd => absurd hd hdir, fun _ => ?_⟩
      refine .new i n hi hfresh hn hnkind hbare (.inr ⟨?_, hfile, hnlink, hfind⟩)
      rw [hgoing.seen]
    · next hnlink =>
      cases ht
      exact hgoing.copied hreached hdir
        (.new i n hi hfresh hn hnkind hbare (.inl ⟨hgoing.seen, .inr hnlink⟩))

end

theorem Going.copyNode (hfree : t.disk.names p = none ∨ t.disk.isDir p ∧ (src.node k).isDir)
    (hsocket : (src.node k).kind ≠ .socket) (hfirst : FirstOf s p k)
    (hstill : env.vanishes p = false)
    (ht : copyNode env src k p t = some t') : Copied env src p k s t' := by
  have hnone : (src.node k).kind ≠ .dir → t.disk.names p = none := fun hdir =>
    hfree.resolve_right fun hd => hdir (of_decide_eq_true hd.2)
  unfold CarryCopy.copyNode at ht
  dsimp only at ht
  split at ht
  · next hkind =>
    split at ht
    · next hthere =>
      cases ht
      exact h.copied_dir hdirs hthere hkind
    · next hnot =>
      split at ht
      · cases ht
      cases ht
      have hfree' : t.disk.names p = none := hfree.resolve_right fun hd => hnot hd.1
      have hstep := within_make env (L := (· = p)) h.within.sound hroot (.inl rfl) hfree'
        hdirs .dir 0o700
      exact (h.step hstep).copied_dir (fun q hq => hstep.isDir (hdirs q hq))
        (isDir_make env _) hkind
  · next target hkind =>
    split at ht
    · cases ht
    rw [← hkind] at ht
    have hdir : (src.node k).kind ≠ .dir := by rw [hkind]; rintro ⟨⟩
    exact h.copied_new hdirs hroot (hnone hdir) (fun _ => rfl) hdir (by rw [hkind]; rfl) ht
  · next content hkind =>
    have hdir : (src.node k).kind ≠ .dir := by rw [hkind]; rintro ⟨⟩
    exact h.copyFile hdirs hroot (hnone hdir) hkind hfirst hstill ht
  · next what hkind =>
    have hdir : (src.node k).kind ≠ .dir := by rw [hkind]; rintro ⟨⟩
    have hfile : (src.node k).kind.isFile = false := by rw [hkind]; rfl
    split at ht
    · split at ht
      · cases ht
        exact h.copied hdirs hdir (.none (hnone hdir) hfile h.seen)
      · cases ht
    · rw [← hkind] at ht
      refine h.copied_new hdirs hroot (hnone hdir) (fun hl => ?_) hdir hfile ht
      rw [hkind] at hl
      cases hl
  · next hkind => exact absurd hkind hsocket

end

theorem copyPath_copied (hsound : s.disk.Sound) (hfind : src.find p = some k)
    (hsocket : (src.node k).kind ≠ .socket) (hfirst : FirstOf s p k)
    (hstill : env.vanishes p = false)
    (ht : copyPath env src s p = some t) : Copied env src p k s t := by
  unfold copyPath at ht
  split at ht
  · cases ht
  next hcheck =>
  have hplain : Delta.plainParts p := by
    rw [Bool.or_eq_true, not_or, Bool.not_eq_true, Bool.not_eq_false'] at hcheck
    exact hcheck.1
  have hroot : p ≠ [] := by
    rintro rfl
    exact absurd hplain (by decide)
  rw [hfind] at ht
  dsimp only at ht
  rw [if_neg hsocket] at ht
  obtain ⟨u, hu, ht⟩ := bind_eq_some_iff.1 ht
  obtain ⟨v, hv, ht⟩ := bind_eq_some_iff.1 ht
  obtain ⟨hgoing, hdirs⟩ := Going.parentOf hsound hplain hu
  obtain ⟨hgoing', hstep, hfree⟩ := hgoing.clear hdirs hv
  have hcounted : Going p s { v with entries := v.entries + 1 } :=
    ⟨hgoing'.within, hgoing'.seen, hgoing'.later, hgoing'.keeps⟩
  exact hcounted.copyNode (fun q hq => hstep.isDir (hdirs q hq)) hroot hfree hsocket
    hfirst hstill ht

end Path

/-! ## The whole list -/

section Run

variable (env : Env) (src : Source) (dst : Disk Node.isDir)

/-- What is true of a path of the list that was done. -/
structure Done (s : State) (p : Text) (k : Key) : Prop where
  reached : ∀ q ∈ above p, s.disk.isDir q
  dir : (src.node k).kind = .dir → s.disk.isDir p ∧ p ∈ s.later
  file : (src.node k).kind.isFile → ∃ i, s.disk.names p = some i
  node : ∀ i, s.disk.names p = some i →
    ∃ n, s.disk.store.inode i = some n ∧ n.isDir = (src.node k).isDir ∧
    ((src.node k).kind ≠ .dir → env.moved (src.node k) → n.NoBits ∧ n.NoCapability)

/-- What is true after a part of the list. -/
structure Inv (paths done : List Text) (s : State) : Prop where
  within : Within (· ∈ paths) dst s.disk
  later : ∀ q ∈ s.later, Near (· ∈ paths) q ∧ s.disk.isDir q
  each : ∀ p ∈ done, ∀ k, src.find p = some k → (src.node k).kind ≠ .socket → Done env src s p k
  /-- two names of one inode are names of one file of the source -/
  apart : ∀ p ∈ done, ∀ q ∈ done, ∀ k k' i, src.find p = some k → src.find q = some k' →
    (src.node k).kind ≠ .socket →
    (src.node k').kind ≠ .socket → p ≠ q → s.disk.names p = some i → s.disk.names q = some i →
    k = k' ∧ (src.node k).kind.isFile
  /-- the table has the first name of every file with several -/
  seen : ∃ l, s.seen.Good seenHash l ∧
    (∀ k f, (k, f) ∈ l → f ∈ done ∧ src.find f = some k ∧ (src.node k).kind.isFile) ∧
    ∀ p ∈ done, ∀ k, src.find p = some k → (src.node k).kind.isFile → 1 < src.nlink k →
      ∃ f, (k, f) ∈ l ∧ s.disk.names f = s.disk.names p

/-- A directory whose owner moved has lost its bits. -/
def Settled (s : State) (q : Text) : Prop :=
  ∀ k, src.find q = some k → (src.node k).kind = .dir → env.moved (src.node k) →
    ∀ n, s.disk.node q = some n → n.NoBits

variable {env src dst} {paths done : List Text} {s t : State} {p q : Text} {k k' : Key} {n : Node}

theorem Inv.init (h : dst.Sound) : Inv env src dst paths [] { disk := dst } where
  within := .refl h
  later q hq := by cases hq
  each p hp := by cases hp
  apart p hp := by cases hp
  seen := by
    refine ⟨[], .empty seenHash, fun k f hf => ?_, fun p hp => ?_⟩
    · cases hf
    · cases hp

theorem isFile_ne_socket (h : n.kind.isFile) : n.kind ≠ .socket := by
  intro hs
  rw [hs] at h
  cases h

theorem isFile_ne_dir (h : n.kind.isFile) : n.kind ≠ .dir := by
  intro hs
  rw [hs] at h
  cases h

theorem Inv.found {first : Text} (h : Inv env src dst paths done s)
    (hfind : s.seen.find seenHash k = some first) :
    first ∈ done ∧ src.find first = some k ∧ (src.node k).kind.isFile := by
  obtain ⟨l, hgood, hl, -⟩ := h.seen
  exact hl k first ((find_iff hgood).1 hfind)

theorem Inv.firstOf (h : Inv env src dst paths done s) (hp : p ∉ done) : FirstOf s p k := by
  intro first hfind
  obtain ⟨hmem, hf, hfile⟩ := h.found hfind
  have hdone := h.each first hmem k hf (isFile_ne_socket hfile)
  obtain ⟨i, hi⟩ := hdone.file hfile
  obtain ⟨n, hn, hnd, -⟩ := hdone.node i hi
  refine ⟨fun heq => hp (heq ▸ hmem), hdone.reached, i, n, hi, hn, ?_⟩
  rw [hnd]
  exact decide_eq_false (isFile_ne_dir hfile)

theorem names_of_find (h : src.find p = some k) : src.names p = some k := by
  unfold Source.find at h
  split at h
  · exact h
  · cases h

theorem Done.names_eq (h : Done env src s q k') (hq : src.find q = some k')
    (hp : src.find p = some k)
    (hne : q ≠ p) (hw : Within (· = p) s.disk t.disk) : t.disk.names q = s.disk.names q := by
  cases hname : s.disk.names q with
  | some i => exact hw.stays q i hne hname
  | none =>
    by_contra hmade
    obtain ⟨r, rfl, hmem⟩ := hw.made q hne hname hmade
    -- then it is a directory of the source, and was made
    unfold Source.find at hp hq
    split at hp
    · next hall =>
      have hdir := all_eq_true.1 hall q hmem
      split at hq
      · unfold Source.isDir at hdir
        rw [hq] at hdir
        obtain ⟨i, n, hi, -⟩ := isDir_iff.1 (h.dir (of_decide_eq_true hdir)).1
        rw [hname] at hi
        cases hi
      · cases hq
    · cases hp

theorem Done.mono (h : Done env src s q k') (hnames : t.disk.names q = s.disk.names q)
    {L : Text → Prop} (hw : Within L s.disk t.disk) (hkeeps : ∀ q ∈ s.later, q ∈ t.later) :
    Done env src t q k' where
  reached r hr := hw.isDir (h.reached r hr)
  dir hdir := ⟨hw.isDir (h.dir hdir).1, hkeeps q (h.dir hdir).2⟩
  file hfile := hnames ▸ h.file hfile
  node i hi := by
    rw [hnames] at hi
    obtain ⟨n, hn, hnd, hbare⟩ := h.node i hi
    grind [hw.nodes i n hn, Node.isDir]

section

variable (h : Inv env src dst paths done s)

include h

section

variable (hp : src.find p = some k) (hc : Copied env src p k s t) (hnew : p ∉ done)

include hp hc hnew

theorem Inv.done_of_copied (hsocket : (src.node k).kind ≠ .socket) : Done env src t p k := by
  refine ⟨hc.reached, fun hdir => ⟨(hc.dir hdir).1, (hc.dir hdir).2.1⟩,
    fun hfile => ?_, fun i hi => ?_⟩
  · cases hc.other (isFile_ne_dir hfile) <;> grind
  · by_cases hdir : (src.node k).kind = .dir
    · obtain ⟨j, n, hj, hn, hnd⟩ := isDir_iff.1 (hc.dir hdir).1
      cases hj.symm.trans hi
      exact ⟨n, hn, hnd.trans (decide_eq_true hdir).symm, fun hne => absurd hdir hne⟩
    · cases hc.other hdir with
      | none hname =>
        rw [hname] at hi
        cases hi
      | new j n hname hfresh hn hkind hbare =>
        cases hname.symm.trans hi
        exact ⟨n, hn, by rw [Node.isDir, Node.isDir, hkind], fun _ => hbare⟩
      | linked first j hfile hnlink hfind hfirst hname =>
        -- the first name has this node
        obtain rfl := some.inj (hname.symm.trans hi)
        obtain ⟨hmem, hf, -⟩ := h.found hfind
        have hdone := h.each first hmem k hf hsocket
        have hnames := hdone.names_eq hf hp (fun heq => hnew (heq ▸ hmem)) hc.within
        exact (hdone.mono hnames hc.within hc.keeps).node j (hnames.trans hfirst)

/-- A name of what was done before is not a name of the new one, but for names of one file. -/
theorem Inv.apart_of_copied (hsocket : (src.node k).kind ≠ .socket) {q : Text} {k' : Key} {i : ℕ}
    (hq : q ∈ done)
    (hfq : src.find q = some k') (hsq : (src.node k').kind ≠ .socket)
    (hpi : t.disk.names p = some i)
    (hqi : t.disk.names q = some i) : k = k' ∧ (src.node k).kind.isFile := by
  have hne : q ≠ p := fun heq => hnew (heq ▸ hq)
  have hqs : s.disk.names q = some i := by
    rw [← (h.each q hq k' hfq hsq).names_eq hfq hp hne hc.within]
    exact hqi
  by_cases hdir : (src.node k).kind = .dir
  · obtain ⟨j, n, hj, hn, hnd⟩ := isDir_iff.1 (hc.dir hdir).1
    obtain rfl := some.inj (hj.symm.trans hpi)
    exact absurd (hc.within.sound.one_name q p j n hqi hpi hn hnd) hne
  · cases hc.other hdir with
    | none hname =>
      rw [hname] at hpi
      cases hpi
    | new j n hname hfresh =>
      cases hname.symm.trans hpi
      exact absurd (h.within.sound.lt_next hqs) (Nat.not_lt.2 hfresh)
    | linked first j hfile hnlink hfind hfirst hname =>
      obtain rfl := some.inj (hname.symm.trans hpi)
      obtain ⟨hmem, hf, -⟩ := h.found hfind
      by_cases hqf : first = q
      · subst hqf
        exact ⟨some.inj (hf.symm.trans hfq), hfile⟩
      · exact h.apart first hmem q hq k k' j hf hfq hsocket hsq hqf hfirst hqs

theorem Inv.seen_of_copied :
    ∃ l, t.seen.Good seenHash l ∧
      (∀ k f, (k, f) ∈ l → f ∈ done ++ [p] ∧ src.find f = some k ∧ (src.node k).kind.isFile) ∧
      ∀ q ∈ done ++ [p], ∀ k, src.find q = some k → (src.node k).kind.isFile → 1 < src.nlink k →
        ∃ f, (k, f) ∈ l ∧ t.disk.names f = t.disk.names q := by
  obtain ⟨l, hgood, hl, hall⟩ := h.seen
  have hnames : ∀ q ∈ done, ∀ k', src.find q = some k' → (src.node k').kind.isFile →
      t.disk.names q = s.disk.names q := fun q hq k' hfq hfile =>
    (h.each q hq k' hfq (isFile_ne_socket hfile)).names_eq hfq hp
      (fun heq => hnew (heq ▸ hq)) hc.within
  -- what the table has now, and that it has the path itself if it must
  have htable : ∃ l', t.seen.Good seenHash l' ∧ (∀ x ∈ l, x ∈ l') ∧
      (∀ x ∈ l', x ∈ l ∨ x = (k, p) ∧ (src.node k).kind.isFile) ∧
      ((src.node k).kind.isFile → 1 < src.nlink k →
        ∃ f, (k, f) ∈ l' ∧ t.disk.names f = t.disk.names p) := by
    have hfind := fun k' f => find_iff (k := k') (v := f) hgood
    by_cases hdir : (src.node k).kind = .dir
    · exact ⟨l, (hc.dir hdir).2.2 ▸ hgood, by grind [isFile_ne_dir]⟩
    cases hc.other hdir with
    | none hname hnot hseen => exact ⟨l, hseen ▸ hgood, by grind⟩
    | linked first i hfile hnlink hfirst' hfirst hname hseen => exact ⟨l, hseen ▸ hgood, by grind⟩
    | new i n hname hfresh hn hkind hbare hseen =>
      rcases hseen with ⟨hseen, hone⟩ | ⟨hseen, hfile, hnlink, hnone⟩
      · exact ⟨l, hseen ▸ hgood, by grind⟩
      · have hkey : k ∉ l.map Prod.fst := by grind
        exact ⟨(k, p) :: l, hseen ▸ hgood.add_new (by decide) hkey, by grind⟩
  obtain ⟨l', hgood', hkept, honly, hself⟩ := htable
  refine ⟨l', hgood', by grind, ?_⟩
  grind

theorem Inv.copied (hmem : p ∈ paths) (hsocket : (src.node k).kind ≠ .socket) :
    Inv env src dst paths (done ++ [p]) t := by
  have hlisted : ∀ q, q = p → q ∈ paths := fun q hq => hq ▸ hmem
  have hnames : ∀ q ∈ done, ∀ k', src.find q = some k' → (src.node k').kind ≠ .socket →
      t.disk.names q = s.disk.names q := fun q hq k' hfq hsq =>
    (h.each q hq k' hfq hsq).names_eq hfq hp (fun heq => hnew (heq ▸ hq)) hc.within
  refine ⟨h.within.trans (hc.within.mono hlisted), fun q hq => ?_, fun q hq k' hfq hsq => ?_,
    fun q hq r hr k₁ k₂ i hfq hfr hsq hsr hne hqi hri => ?_, h.seen_of_copied hp hc hnew⟩
  · rcases hc.later q hq with hold | ⟨hnear, hdir⟩
    · exact ⟨(h.later q hold).1, hc.within.isDir (h.later q hold).2⟩
    · exact ⟨hnear.mono hlisted, hdir⟩
  · rcases mem_append.1 hq with hq | hq
    · exact (h.each q hq k' hfq hsq).mono (hnames q hq k' hfq hsq) hc.within hc.keeps
    · obtain rfl := mem_singleton.1 hq
      cases hp.symm.trans hfq
      exact h.done_of_copied hp hc hnew hsocket
  · have hnow := fun q k' i => @Inv.apart_of_copied _ _ _ _ _ _ _ _ _ h hp hc hnew hsocket q k' i
    grind [h.apart]

end

theorem Inv.pass (hp : ∀ k, src.find p = some k → (src.node k).kind = .socket)
    (hdisk : t.disk = s.disk) (hseen : t.seen = s.seen) (hlater : t.later = s.later) :
    Inv env src dst paths (done ++ [p]) t := by
  have hold : ∀ q ∈ done ++ [p], ∀ k, src.find q = some k → (src.node k).kind ≠ .socket →
      q ∈ done :=
    forall_mem_append.2 ⟨fun q hq _ _ _ => hq,
      forall_mem_singleton.2 fun k hfq hsocket => absurd (hp k hfq) hsocket⟩
  obtain ⟨l, hgood, hl, hall⟩ := h.seen
  refine ⟨hdisk ▸ h.within, ?_, fun q hq k hfq hsocket => ?_, ?_, l, hseen ▸ hgood, ?_, ?_⟩
  · grind [h.later]
  · obtain ⟨hreached, hdir, hfile, hnode⟩ := h.each q (hold q hq k hfq hsocket) k hfq hsocket
    constructor <;> grind
  · grind [h.apart]
  · grind
  · grind [isFile_ne_socket]

theorem Inv.copyPath (hmem : p ∈ paths) (hnew : p ∉ done)
    (hstill : env.vanishes p = false) (ht : copyPath env src s p = some t) :
    Inv env src dst paths (done ++ [p]) t := by
  cases hp : src.find p with
  | none =>
    unfold CarryCopy.copyPath at ht
    split at ht
    · cases ht
    rw [hp] at ht
    cases ht
    exact h.pass (fun k hk => by rw [hp] at hk; cases hk) rfl rfl rfl
  | some k =>
    by_cases hsocket : (src.node k).kind = .socket
    · unfold CarryCopy.copyPath at ht
      split at ht
      · cases ht
      rw [hp] at ht
      dsimp only at ht
      rw [if_pos hsocket] at ht
      cases ht
      exact h.pass (fun k' hk => by rw [← some.inj (hp.symm.trans hk)]; exact hsocket)
        rfl rfl rfl
    · exact h.copied hp (copyPath_copied h.within.sound hp hsocket (h.firstOf hnew) hstill ht)
        hnew hmem hsocket

end

theorem Inv.list (hdst : dst.Sound) (hnodup : paths.Nodup) (hstill : ∀ p, env.vanishes p = false)
    (ht : paths.foldlM (CarryCopy.copyPath env src) { disk := dst } = some t) :
    Inv env src dst paths paths t := by
  refine Loop.foldlM_rule (I := Inv env src dst paths) (fun done p rest s s' hl hI hs => ?_)
    (Inv.init hdst) ht
  have hmem : p ∈ paths := by
    rw [hl]
    exact mem_append_right _ mem_cons_self
  have hnew : p ∉ done := by
    rw [hl] at hnodup
    exact fun hdone => (nodup_append.1 hnodup).2.2 p hdone p mem_cons_self rfl
  exact hI.copyPath hmem hnew (hstill p) hs

/-! ## The directories at the end -/

theorem Inv.modify {f : Node → Node} (h : Inv env src dst paths done s) (hnear : Near (· ∈ paths) p)
    (hdir : s.disk.isDir p) (hf : ∀ n, (f n).kind = n.kind) (said : List Text) :
    Inv env src dst paths done { s with disk := s.disk.modify p f, said := said } := by
  have hfd : ∀ n, (f n).isDir = n.isDir := fun n => by rw [Node.isDir, Node.isDir, hf]
  have hstep : Within (· ∈ paths) s.disk (s.disk.modify p f) :=
    (Within.refl h.within.sound).modify hnear hfd (.inl hdir)
  refine ⟨h.within.trans hstep, fun q hq => ⟨(h.later q hq).1, hstep.isDir (h.later q hq).2⟩,
    fun q hq k hfq hsq => ?_, fun q hq r hr k k' i hfq hfr hsq hsr hne hqi hri => ?_, ?_⟩
  · exact (h.each q hq k hfq hsq).mono (congrFun names_modify q) hstep fun _ hr => hr
  · grind [h.apart, names_modify]
  · grind [h.seen, names_modify]

theorem Inv.settle (h : Inv env src dst paths done s) (hp : p ∈ s.later)
    (ht : settle env src s p = some t) :
    Inv env src dst paths done t ∧ t.later = s.later ∧ Settled env src t p ∧
      ∀ q, Settled env src s q → Settled env src t q := by
  unfold CarryCopy.settle at ht
  split at ht
  · next hfind =>
    cases ht
    refine ⟨h, rfl, fun k hk => ?_, fun q hq => hq⟩
    rw [hfind] at hk
    cases hk
  next k hfind =>
  split at ht
  · next hkdir =>
    split at ht
    · obtain ⟨⟨d', took⟩, hmeta, rfl⟩ := map_eq_some_iff.1 ht
      dsimp only at hmeta ⊢
      obtain ⟨hnear, hdir⟩ := h.later p hp
      obtain ⟨j, m, hj, hm, hmd⟩ := isDir_iff.1 hdir
      have hnotlink : (src.node k).kind.isLink = false := by rw [of_decide_eq_true hkdir]; rfl
      obtain ⟨f, rfl, hf⟩ := copyMeta_eq (node_eq_some.2 ⟨j, hj, hm⟩)
        (by rw [of_decide_eq_true hmd, hnotlink]; rfl) hmeta
      have hnode : ∀ q n, (s.disk.modify p f).node q = some n → s.disk.node q = some n ∧ q ≠ p ∨
          q = p ∧ n = f m := by
        intro q n hn
        obtain ⟨i, hi, hn⟩ := node_eq_some.1 hn
        rw [names_modify] at hi
        rw [store_modify hj] at hn
        rcases Store.inode_modify_eq_some hn with ⟨hn, hne⟩ | ⟨m', hm', rfl, rfl⟩
        · refine .inl ⟨node_eq_some.2 ⟨i, hi, hn⟩, fun heq => hne ?_⟩
          rw [heq, hj] at hi
          exact (some.inj hi).symm
        · -- a directory has one name
          cases hm.symm.trans hm'
          exact .inr ⟨h.within.sound.one_name q p i m hi hj hm hmd, rfl⟩
      have hbits : ∀ k', src.find p = some k' → env.moved (src.node k') → (f m).NoBits := by
        intro k' hk' hmoved
        cases hfind.symm.trans hk'
        exact hf.bits hmoved m fun hl => by rw [hnotlink] at hl; cases hl
      refine ⟨h.modify hnear hdir hf.kind _, rfl,
        fun k' hk' _ hmoved n hn => ?_, fun q hq k' hk' hd hmoved n hn => ?_⟩
      · rcases hnode p n hn with ⟨-, hne⟩ | ⟨-, rfl⟩
        · exact absurd rfl hne
        · exact hbits k' hk' hmoved
      · rcases hnode q n hn with ⟨hn, -⟩ | ⟨rfl, rfl⟩
        · exact hq k' hk' hd hmoved n hn
        · exact hbits k' hk' hmoved
    · cases ht
  · next hkdir =>
    cases ht
    refine ⟨h, rfl, fun k' hk' hd => absurd (decide_eq_true ?_) hkdir, fun q hq => hq⟩
    rw [some.inj (hfind.symm.trans hk'), hd]

theorem cmdCopy_inv (hdst : dst.Sound) (hnodup : paths.Nodup) (hstill : ∀ p, env.vanishes p = false)
    (ht : cmdCopy env src dst paths = some t) : Inv env src dst paths paths t ∧
    ∀ q ∈ t.later, Settled env src t q := by
  obtain ⟨s, hs, ht⟩ := bind_eq_some_iff.1 ht
  have hlist := Inv.list hdst hnodup hstill hs
  have hloop := Loop.foldlM_rule
    (I := fun done u => Inv env src dst paths paths u ∧ u.later = s.later ∧
      ∀ q ∈ done, Settled env src u q)
    (fun done q rest u u' hl hI hu => by
      obtain ⟨hinv, hlater, hdone⟩ := hI
      have hq : q ∈ u.later := by
        rw [hlater, ← mem_reverse, hl]
        exact mem_append_right _ mem_cons_self
      obtain ⟨hinv', hlater', hself, hothers⟩ := hinv.settle hq hu
      exact ⟨hinv', hlater'.trans hlater, forall_mem_append.2
        ⟨fun r hr => hothers r (hdone r hr), forall_mem_singleton.2 hself⟩⟩)
    ⟨hlist, rfl, fun q hq => by cases hq⟩ ht
  refine ⟨hloop.1, fun q hq => hloop.2.2 q ?_⟩
  rw [mem_reverse, ← hloop.2.1]
  exact hq

/-! ## What is kept -/

def Shares {α : Type} (names : Text → Option α) (p q : Text) : Prop :=
  ∃ i, names p = some i ∧ names q = some i

/-- A path that is copied: the source has it, and it is no socket. -/
def Carried (src : Source) (p : Text) : Prop :=
  ∃ k, src.find p = some k ∧ (src.node k).kind ≠ .socket

theorem Inv.shares (h : Inv env src dst paths paths s) (hp : p ∈ paths) (hq : q ∈ paths)
    (hne : p ≠ q)
    (hfp : src.find p = some k) (hfq : src.find q = some k) (hfile : (src.node k).kind.isFile) :
    Shares s.disk.names p q := by
  have hnlink := src.links p q k (names_of_find hfp) (names_of_find hfq) hne
  obtain ⟨l, hgood, -, hall⟩ := h.seen
  obtain ⟨f, hf, hnf⟩ := hall p hp k hfp hfile hnlink
  obtain ⟨g, hg, hng⟩ := hall q hq k hfq hfile hnlink
  obtain rfl : f = g := some.inj (((find_iff hgood).2 hf).symm.trans ((find_iff hgood).2 hg))
  obtain ⟨i, hi⟩ := (h.each p hp k hfp (isFile_ne_socket hfile)).file hfile
  exact ⟨i, hi, by rw [← hng, hnf, hi]⟩

theorem Inv.shares_iff (h : Inv env src dst paths paths s) (hp : p ∈ paths) (hq : q ∈ paths)
    (hne : p ≠ q)
    (hcp : Carried src p) (hcq : Carried src q) : (Shares s.disk.names p q ↔ Shares src.names p q) ↔
      ∀ k, src.names p = some k → src.names q = some k → (src.node k).kind.isFile := by
  obtain ⟨k, hfp, hsp⟩ := hcp
  obtain ⟨k', hfq, hsq⟩ := hcq
  have hnp := names_of_find hfp
  have hnq := names_of_find hfq
  constructor
  · intro hall k₀ hkp hkq
    obtain ⟨i, hi, hi'⟩ := hall.2 ⟨k₀, hkp, hkq⟩
    cases hnp.symm.trans hkp
    exact (h.apart p hp q hq k k' i hfp hfq hsp hsq hne hi hi').2
  · intro hall
    constructor
    · rintro ⟨i, hi, hi'⟩
      grind [Shares, h.apart p hp q hq k k' i]
    · rintro ⟨k₀, hkp, hkq⟩
      obtain rfl : k = k' := by grind
      exact h.shares hp hq hne hfp hfq (hall k hnp hnq)

/-- **What a copy keeps.** After a run for paths that are all different: two names that were copied
share an inode exactly when they share one in the source, if and only if no two of them are names of
one link, device or FIFO there. In every case no name comes or goes but at the paths of the list and
on the way to them; of all that was on the disk before, in the tree or somewhere a link may lead to,
only directories at these places are other than they were; the way to every path that was copied has
directories on it and no links; and something whose owner moved has no bits of users and groups, and
no capability if it is not a directory. -/
theorem copy_keeps_links_iff (env : Env) (src : Source) (dst : Disk Node.isDir)
    (paths : List Text) (s : State)
    (hdst : dst.Sound) (hnodup : paths.Nodup) (hstill : ∀ p, env.vanishes p = false)
    (hrun : cmdCopy env src dst paths = some s) :
    ((∀ p ∈ paths, ∀ q ∈ paths, p ≠ q → Carried src p → Carried src q →
        (Shares s.disk.names p q ↔ Shares src.names p q)) ↔
      ∀ p ∈ paths, ∀ q ∈ paths, p ≠ q → Carried src p → Carried src q →
        ∀ k, src.names p = some k → src.names q = some k → (src.node k).kind.isFile) ∧
    (∀ q, ¬ Near (· ∈ paths) q → s.disk.names q = dst.names q) ∧
    (∀ i n, dst.store.inode i = some n → s.disk.store.inode i = some n ∨
      n.kind = .dir ∧ ∃ q, Near (· ∈ paths) q ∧ dst.names q = some i) ∧
    (∀ p ∈ paths, Carried src p → ∀ q ∈ above p, s.disk.isDir q) ∧
    ∀ p ∈ paths, ∀ k, src.find p = some k → (src.node k).kind ≠ .socket → env.moved (src.node k) →
      ∀ n, s.disk.node p = some n → n.NoBits ∧ ((src.node k).kind ≠ .dir → n.NoCapability) := by
  obtain ⟨hinv, hsettled⟩ := cmdCopy_inv hdst hnodup hstill hrun
  refine ⟨?_, fun q hq => hinv.within.names_eq hq, fun i n hn => ?_, ?_, ?_⟩
  · exact forall₂_congr fun p hp => forall₂_congr fun q hq => forall₃_congr (hinv.shares_iff hp hq)
  · exact (hinv.within.nodes i n hn).imp_right fun hdir => ⟨of_decide_eq_true hdir.1, hdir.2.1⟩
  · rintro p hp ⟨k, hfp, hsp⟩
    exact (hinv.each p hp k hfp hsp).reached
  · intro p hp k hfp hsp hmoved n hn
    have hdone := hinv.each p hp k hfp hsp
    by_cases hdir : (src.node k).kind = .dir
    · exact ⟨hsettled p (hdone.dir hdir).2 k hfp hdir hmoved n hn, fun hne => absurd hdir hne⟩
    · obtain ⟨i, hi, hn⟩ := node_eq_some.1 hn
      obtain ⟨m, hm, -, hbare⟩ := hdone.node i hi
      cases hm.symm.trans hn
      exact ⟨(hbare hdir hmoved).1, fun _ => (hbare hdir hmoved).2⟩

end Run

/-- A source with two names of one thing. -/
def twoNames (kind : Kind) (h : kind ≠ .dir) : Source where
  names p := if p = ['a'] ∨ p = ['b'] then some (0, 1) else none
  node _ := ⟨kind, 0, 0, 0o4755, [(capability, [1])], 5⟩
  nlink _ := 2
  links _ _ _ _ _ _ := Nat.one_lt_two
  one_name _ _ _ _ _ hdir := absurd hdir h

def emptyTree : Disk Node.isDir where
  names p := if p = [] then some 0 else none
  store := Store.alloc ⟨fun _ => none, 0, fun _ _ => rfl⟩ ⟨.dir, 0, 0, 0o755, [], 0⟩

theorem emptyTree_sound : emptyTree.Sound := by
  have hname : ∀ p i, emptyTree.names p = some i → p = [] ∧ i = 0 := by
    intro p i hp
    unfold emptyTree at hp
    dsimp only at hp
    split at hp
    · next hroot => exact ⟨hroot, (some.inj hp).symm⟩
    · cases hp
  constructor
  · intro p i hp
    obtain ⟨-, rfl⟩ := hname p i hp
    exact ⟨_, rfl⟩
  · intro p q i n hp hq _ _
    rw [(hname p i hp).1, (hname q i hq).1]
  · intro i n hi hn
    obtain ⟨-, rfl⟩ := hname [] i hi
    rw [← some.inj hn]
    rfl

/-- The administrator runs it, and the user 0 is the user 7 of the new system. -/
def asRoot : Env where
  root := true
  me := (0, 0)
  now := 9
  idmap := [⟨.u, 0, 7⟩]
  fails _ _ := none
  vanishes _ := false
  leads _ _ := none

/-- Two names of one file: they stay that, and the file loses its rights. -/
theorem copy_keeps_links_twoFiles :
    ∃ s, cmdCopy asRoot (twoNames (.file [1]) (by decide)) emptyTree [['a'], ['b']] = some s ∧
      Shares s.disk.names ['a'] ['b'] ∧ ∀ n, s.disk.node ['a'] = some n → n.NoBits := by
  have hsome : (cmdCopy asRoot (twoNames (.file [1]) (by decide)) emptyTree
      [['a'], ['b']]).isSome := by
    decide +kernel
  obtain ⟨s, hs⟩ := isSome_iff_exists.1 hsome
  have hkeeps := copy_keeps_links_iff asRoot (twoNames (.file [1]) (by decide)) emptyTree
    [['a'], ['b']] s emptyTree_sound (by decide) (fun _ => rfl) hs
  have hcarried : ∀ p ∈ [['a'], ['b']], (twoNames (.file [1]) (by decide)).find p =
    some (0, 1) := by decide
  refine ⟨s, hs, ?_, fun n hn => ?_⟩
  · have hall := hkeeps.1.2 fun p hp q hq hne _ _ k _ _ => rfl
    exact (hall ['a'] (by decide) ['b'] (by decide) (by decide)
      ⟨(0, 1), hcarried _ (by decide), by rintro ⟨⟩⟩
      ⟨(0, 1), hcarried _ (by decide), by rintro ⟨⟩⟩).2 ⟨(0, 1), rfl, rfl⟩
  · exact (hkeeps.2.2.2.2 ['a'] (by decide) (0, 1) (hcarried _ (by decide)) (by rintro ⟨⟩)
      (by decide) n hn).1

/-- Two names of one link become two links. -/
theorem links_split :
    ∃ s, cmdCopy asRoot (twoNames (.link ['x']) (by decide)) emptyTree [['a'], ['b']] = some s ∧
      Shares (twoNames (.link ['x']) (by decide)).names ['a'] ['b'] ∧
      ¬ Shares s.disk.names ['a'] ['b'] := by
  have hrun : (cmdCopy asRoot (twoNames (.link ['x']) (by decide)) emptyTree [['a'], ['b']]).map
      (fun s => (s.disk.names ['a'], s.disk.names ['b'])) = some (some 1, some 2) := by
    decide +kernel
  obtain ⟨s, hs, hnames⟩ := map_eq_some_iff.1 hrun
  obtain ⟨ha, hb⟩ := Prod.mk.inj hnames
  refine ⟨s, hs, ⟨(0, 1), rfl, rfl⟩, ?_⟩
  rintro ⟨i, hi, hi'⟩
  rw [ha] at hi
  rw [hb, ← hi] at hi'
  cases hi'

end Mu300.CarryCopy
