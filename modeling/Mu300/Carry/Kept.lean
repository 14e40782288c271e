import Mu300.Carry.Plan

/-!
# The plan drops nothing

With a manifest, what the user made or changed is carried or set aside.

* `Tables.all` — the two systems with everything hashed; what the passes had hashed is enough
  (`state_sums`, `sameAsNew_sums`).
-/

namespace Mu300.Carry

open Shell FileTree List

/-! ## What is hashed -/

def Tables.all (T : Tables) : Sums where
  so := fun p => some (T.hashOld p)
  sn := fun p => some (T.hashNew p)
  pksame := T.packaged

namespace Tables

variable {T : Tables} {e : Entry} {S : Sums} (r : Run)

theorem asked_of_mem {ask : Entry → Bool} (he : e ∈ T.old.lines) (hs : T.skipped e = false)
    (ha : ask e) : T.asked ask e.path := by
  refine any_eq_true.2 ⟨e, he, ?_⟩
  rw [hs, ha, decide_eq_true rfl]
  rfl

theorem state_congr {so so' : Text → Option Text}
    (h : ∀ m, T.om e.path = some m → e.t.hashable m.t → (e.t = .l ∨ m.size = e.size) →
      so e.path = so' e.path) : T.state so e = T.state so' e := by
  rw [state, state]
  cases hm : T.om e.path with
  | none => rfl
  | some m =>
    have hso := h m hm
    by_cases ht : m.t = e.t.plain
    · cases het : e.t with
      | f =>
        rw [het] at ht hso
        by_cases hsize : m.size = e.size
        · have heq : so e.path = so' e.path := hso (by rw [ht]; rfl) (.inr hsize)
          simp [heq]
        · simp [hsize]
      | l =>
        rw [het] at ht hso
        have heq : so e.path = so' e.path := hso (by rw [ht]; rfl) (.inl rfl)
        simp [heq]
      | d | c | b | p | s | m => simp
    · simp [ht]

theorem askOld_of_image {m : Image} (hfb : T.fb = false) (hm : T.om e.path = some m)
    (ht : e.t.hashable m.t) (hs : e.t = .l ∨ m.size = e.size) : T.askOld e := by
  rw [askOld, hfb, hm]
  simpa [ht] using hs

theorem state_first (hfb : T.fb = false) (he : e ∈ T.old.lines) (hs : T.skipped e = false) :
    T.state T.first.so e = T.state T.all.so e := by
  refine state_congr fun m hm ht hsize => ?_
  exact if_pos (asked_of_mem he hs (askOld_of_image hfb hm ht hsize))

theorem state_sums (hfb : T.fb = false) (he : e ∈ T.old.lines) (hs : T.skipped e = false) :
    T.state T.sums.so e = T.state T.all.so e := by
  refine state_congr fun m hm ht hsize => ?_
  have ha : T.asked T.askOld e.path := asked_of_mem he hs (askOld_of_image hfb hm ht hsize)
  exact if_pos (by rw [ha]; rfl)

theorem sameAsNew_congr {S' : Sums} (h : T.comparable e → S.agree e.path = S'.agree e.path) :
    T.sameAsNew S e = T.sameAsNew S' e := by
  rw [sameAsNew, sameAsNew]
  cases hn : T.ns e.path with
  | none => rfl
  | some n =>
    rw [comparable, hn, Option.any_some] at h
    by_cases ht : n.t = e.t
    · cases het : e.t with
      | f =>
        rw [het] at ht h
        by_cases hsize : n.size = e.size
        · have heq : S.agree e.path = S'.agree e.path := h (by rw [ht]; simp [hsize, Typ.hashable])
          simp [heq]
        · simp [hsize]
      | l =>
        rw [het] at ht h
        have heq : S.agree e.path = S'.agree e.path := h (by rw [ht]; rfl)
        simp [heq]
      | d | c | b | p | s | m => rfl
    · simp [ht]

theorem askNew2_of_comparable (hu : T.undecided e) (h : T.comparable e) : T.askNew2 e := by
  rw [askNew2, hu, Bool.true_and]
  obtain ⟨n, hn, hc⟩ := (Option.any_eq_true ..).1 h
  refine (Option.any_eq_true ..).2 ⟨n, hn, ?_⟩
  rw [Typ.hashable] at hc
  simp only [Bool.and_eq_true, Bool.or_eq_true, decide_eq_true_eq] at hc ⊢
  rw [← hc.1.1]
  exact hc.1.2

/-- The third pass knows whether the new system has the same, of everything that it has to know that
of. -/
theorem sameAsNew_sums (he : e ∈ T.old.lines) (hs : T.skipped e = false)
    (hst : T.fb ∨ T.state T.all.so e = .new ∨ T.state T.all.so e = .mod) :
    T.sameAsNew T.sums e = T.sameAsNew T.all e := by
  refine sameAsNew_congr fun hc => ?_
  have hboth : T.sums.so e.path = some (T.hashOld e.path) ∧ T.sums.sn e.path =
      some (T.hashNew e.path) := by
    cases hfb : T.fb with
    | true =>
      have hold : T.asked T.askOld e.path := asked_of_mem he hs (by rw [askOld, hfb]; exact hc)
      have hnew : T.asked T.comparable e.path := asked_of_mem he hs hc
      exact ⟨if_pos (by rw [hold]; rfl), if_pos (by rw [hfb, hnew]; rfl)⟩
    | false =>
      rw [hfb] at hst
      have hu : T.undecided e := by
        rw [undecided, state_first hfb he hs, hfb]
        simpa using hst
      have hold : T.asked T.askOld2 e.path := asked_of_mem he hs (by rw [askOld2, hu]; exact hc)
      have hnew : T.asked T.askNew2 e.path := asked_of_mem he hs (askNew2_of_comparable hu hc)
      exact ⟨if_pos (by rw [hold, Bool.or_true]), if_pos (by rw [hnew, Bool.or_true])⟩
  rw [Sums.agree, Sums.agree, hboth.1, hboth.2]
  rfl

theorem pksame_of_packaged {p : Text} (h : T.packaged p = false) : T.sums.pksame p = false := by
  rw [sums]
  dsimp only
  rw [h, Bool.and_false]

/-! ## The lines of a pass -/

def freshLines (T : Tables) (S : Sums) (e : Entry) : List Line :=
  if T.skipped e then [] else if T.fb then (T.fallback S e).lines else (T.withManifest S e).lines

/-- The lines for an entry below a directory that cannot be there. -/
def blockedLines (T : Tables) (S : Sums) (b : Text) (pending : Bool) (e : Entry) : List Line :=
  if T.heldBelow S e then
    ((if pending then Emit.print (.r .x b) else .nothing).andThen (T.hold e none)).lines
  else []

def emitted (T : Tables) (S : Sums) (block : Option (Text × Bool)) (e : Entry) : List Line :=
  match block with
  | some (b, pending) =>
    if below b e.path then T.blockedLines S b pending e else T.freshLines S e
  | none => T.freshLines S e

theorem lines_fresh : (T.fresh S r e).lines = r.lines ++ T.freshLines S e := by
  rw [fresh, freshLines]
  split
  · rw [append_nil]
  · split
    · rfl
    · rfl

theorem lines_blocked (b : Text) (pending : Bool) :
    (T.blocked S r b pending e).lines = r.lines ++ T.blockedLines S b pending e := by
  rw [blocked, blockedLines]
  split
  · rfl
  · rw [append_nil]

theorem lines_step : (T.step S r e).lines = r.lines ++ T.emitted S r.block e := by
  rw [step]
  rcases r.block with _ | ⟨b, pending⟩
  · exact lines_fresh r
  · rw [emitted]
    dsimp only
    split
    · exact lines_blocked r b pending
    · exact lines_fresh r

theorem runOver_concat (es : List Entry) (e : Entry) :
    T.runOver S (es ++ [e]) = T.step S (T.runOver S es) e := by
  rw [runOver, foldl_append]
  rfl

theorem mem_runOver {es : List Entry} {l : Line} : l ∈ (T.runOver S es).lines ↔
    ∃ pre e post, es = pre ++ e :: post ∧ l ∈ T.emitted S (T.runOver S pre).block e := by
  induction es using reverseRecOn with
  | nil =>
    refine ⟨fun h => (nomatch h), ?_⟩
    rintro ⟨pre, e, post, hes, -⟩
    cases pre <;> cases hes
  | append_singleton es e ih =>
    rw [runOver_concat, lines_step, mem_append, ih]
    constructor
    · rintro (⟨pre, e', post, rfl, hl⟩ | hl)
      · exact ⟨pre, e', post ++ [e], by simp, hl⟩
      · exact ⟨es, e, [], rfl, hl⟩
    · rintro ⟨pre, e', post, hes, hl⟩
      rcases eq_nil_or_concat post with rfl | ⟨post', e'', rfl⟩
      · obtain ⟨rfl, he⟩ := append_inj' hes rfl
        cases he
        exact .inr hl
      · rw [concat_eq_append, ← cons_append, ← append_assoc] at hes
        obtain ⟨rfl, -⟩ := append_inj' hes rfl
        exact .inl ⟨pre, e', post', rfl, hl⟩

end Tables

/-! ## What carries an entry -/

/-- The line carries what is at a path, or sets it aside. -/
def Line.carries (p : Text) : Line → Bool
  | .L q | .V q | .A q | .H q => q = p
  | _ => false

def Emit.Carries (o : Emit) (p : Text) : Prop := ∃ l ∈ o.lines, l.carries p

namespace Emit.Carries

variable {a b : Emit} {p : Text}

theorem left (h : a.Carries p) (b : Emit) : (a.andThen b).Carries p := by
  obtain ⟨l, hl, hp⟩ := h
  exact ⟨l, mem_append_left _ hl, hp⟩

theorem right (h : b.Carries p) (a : Emit) : (a.andThen b).Carries p := by
  obtain ⟨l, hl, hp⟩ := h
  exact ⟨l, mem_append_right _ hl, hp⟩

end Emit.Carries

namespace Tables

variable {T : Tables} {e : Entry} {S : Sums}

theorem hold_carries (why : Option Code) : (T.hold e why).Carries e.path :=
  ⟨_, mem_cons_self, decide_eq_true rfl⟩

theorem live_carries : (T.live e).Carries e.path := by
  rw [live]
  split
  · split
    · exact ⟨_, mem_cons_self, decide_eq_true rfl⟩
    · exact hold_carries _
  · split
    · exact ⟨_, mem_cons_self, decide_eq_true rfl⟩
    · exact ⟨_, mem_cons_self, decide_eq_true rfl⟩

theorem newEntry_carries (hv : vendor T.kind e.path → T.ns e.path = none)
    (hown : T.ofPackage e.path = false) (hsame : T.sameAsNew S e = false) :
    (T.newEntry S e).Carries e.path := by
  rw [newEntry]
  cases hn : T.ns e.path with
  | none =>
    dsimp only
    rw [hown]
    split
    · exact live_carries
    · exact live_carries
  | some n =>
    have hv : ¬ vendor T.kind e.path := fun h => by rw [hv h] at hn; cases hn
    dsimp only
    rw [if_neg hv, hown, hsame, if_neg Bool.false_ne_true, if_neg Bool.false_ne_true]
    split
    · exact hold_carries _
    · exact (live_carries.right _).left _

theorem changedEntry_carries (hpk : S.pksame e.path = false) (hsame : T.sameAsNew S e = false) :
    (T.changedEntry S e).Carries e.path := by
  rw [changedEntry, hpk, hsame, if_neg Bool.false_ne_true]
  split
  · exact hold_carries _
  · split
    · exact live_carries.left _
    · rw [if_neg Bool.false_ne_true]
      split
      · split
        · exact (live_carries.right _).left _
        · exact hold_carries _
      · split
        · exact live_carries
        · exact (live_carries.right _).left _

theorem withManifest_carries (ht : e.t.plain ≠ .d)
    (hst : T.state S.so e = .new ∨ T.state S.so e = .mod)
    (hv : vendor T.kind e.path → T.om e.path ≠ none ∨ T.ns e.path = none)
    (hown : T.ofPackage e.path = false) (hpk : S.pksame e.path = false)
    (hsame : T.sameAsNew S e = false) : (T.withManifest S e).Carries e.path := by
  rw [withManifest, if_neg ht]
  rcases hst with hst | hst
  · have hom : T.om e.path = none := by
      rw [state] at hst
      cases hm : T.om e.path with
      | none => rfl
      | some m =>
        rw [hm] at hst
        dsimp only at hst
        split_ifs at hst
    rw [hst]
    dsimp only
    split
    · exact ⟨_, mem_cons_self, decide_eq_true rfl⟩
    · exact newEntry_carries (fun h => (hv h).resolve_left fun hne => hne hom) hown hsame
  · rw [hst]
    dsimp only
    split
    · rw [hsame, if_neg Bool.false_ne_true]
      exact hold_carries _
    · exact changedEntry_carries hpk hsame

/-- Nothing can be below a directory that an entry is below. -/
def blockedAt (T : Tables) (pre : List Entry) (e : Entry) : Bool :=
  (T.runOver T.sums pre).block.any fun b => below b.1 e.path

/-- **The plan drops nothing silently.** With a manifest, for all tables and both scans: what the
old system has and is neither a directory nor a socket, not left to another step, not of its image
or changed, not the same in the new system, not of a package (unless a configuration file) and not
what the package manager put there, is carried or set aside — unless it is a file of the device
itself that is below a directory that cannot be there, or that is not of the image and that the new
system has too. -/
theorem plan_carries (T : Tables) (hfb : T.fb = false) (pre post : List Entry) (e : Entry)
    (hold : T.old.lines = pre ++ e :: post) (ht : e.t.plain ≠ .d) (hs : e.t ≠ .s)
    (hnever : never T.kind e.path = false) (hother : other e.path = false)
    (hst : T.state T.all.so e = .new ∨ T.state T.all.so e = .mod)
    (hsame : T.sameAsNew T.all e = false) (hown : T.ofPackage e.path = false)
    (hpk : T.sums.pksame e.path = false) (hv : vendor T.kind e.path →
      T.blockedAt pre e = false ∧ (T.om e.path ≠ none ∨ T.ns e.path = none)) :
      ∃ l ∈ T.plan, l.carries e.path := by
  have he : e ∈ T.old.lines := by rw [hold]; exact mem_append_right _ mem_cons_self
  have hskip : T.skipped e = false := by
    rw [skipped, hnever, hother]
    simpa using hs
  rw [← state_sums hfb he hskip] at hst
  rw [← sameAsNew_sums he hskip (.inr (state_sums hfb he hskip ▸ hst))] at hsame
  suffices h : ∃ l ∈ T.emitted T.sums (T.runOver T.sums pre).block e, l.carries e.path by
    obtain ⟨l, hl, hc⟩ := h
    exact ⟨l, mem_append_left _ (mem_runOver.2 ⟨pre, e, post, hold, hl⟩), hc⟩
  have hfresh : ∃ l ∈ T.freshLines T.sums e, l.carries e.path := by
    rw [freshLines, hskip, hfb]
    exact withManifest_carries ht hst (fun h => (hv h).2) hown hpk hsame
  unfold emitted
  split
  · rename_i b pending hb
    split
    · -- what is below a directory that cannot be there is set aside
      rename_i hbelow
      have hvendor : vendor T.kind e.path = false := by
        refine Bool.eq_false_iff.2 fun h => ?_
        have hat := (hv h).1
        rw [blockedAt, hb, Option.any_some, hbelow] at hat
        cases hat
      have hheld : T.heldBelow T.sums e := by
        rw [heldBelow, hskip, hvendor, hown, hfb]
        rcases hst with hst | hst
        · rw [hst]
          simp
        · rw [hst]
          simp
      rw [blockedLines, if_pos hheld]
      exact (hold_carries none).right _
    · exact hfresh
  · exact hfresh

end Tables

/-! ## Examples -/

def sampleDir (path : String) : Entry := ⟨.d, 0o755, 0, 0, 0, 8, path.toList⟩

def sampleFile (mode : Mode) (path : String) : Entry := ⟨.f, mode, 0, 0, 1, 8, path.toList⟩

/-- A system with a setting, and with a file of the device. -/
def sampleLines (mode : Mode) : List Entry :=
  [sampleDir "etc", sampleFile mode "etc/a", sampleDir "lib", sampleDir "lib/firmware",
    sampleFile mode "lib/firmware/a"]

def openScan : Scan := ⟨sampleLines 0o644, by decide +kernel, by decide +kernel⟩

/-- Two systems with one account, and no package. -/
def sampleTables (image : Option (List Image)) (old new : Scan) (hashNew : Text) : Tables where
  kind := .openwrt
  image := image
  old := old
  new := new
  owned := []
  nown := []
  conf := []
  inst := []
  psum := []
  cmds := []
  keep := fun _ => false
  oldUid := fun _ => true
  oldGid := fun _ => true
  newUid := fun _ => true
  newGid := fun _ => true
  mapUid := fun _ => none
  mapGid := fun _ => none
  hashOld := fun _ => ['1']
  hashNew := fun _ => hashNew
  packaged := fun _ => false

/-- Both files are the user's, and the release has others of their names. -/
def sampleNew : Tables :=
  sampleTables (some [⟨.d, 0o755, 0, 0, 0, ['-'], "etc"⟩]) openScan openScan ['2']

theorem other_setting : other "etc/a" = false := by decide +kernel

/-- The setting is carried. -/
theorem plan_carries_setting :
    let e := sampleFile 0o644 "etc/a"
    sampleNew.fb = false ∧ (∃ l ∈ sampleNew.plan, l.carries e.path) :=
  ⟨rfl, Tables.plan_carries sampleNew rfl [sampleDir "etc"]
    [sampleDir "lib", sampleDir "lib/firmware", sampleFile 0o644 "lib/firmware/a"]
    (sampleFile 0o644 "etc/a") rfl (by decide) (by decide) (by decide +kernel) other_setting
    (.inl (by decide +kernel)) (by decide +kernel) (by decide +kernel)
    (Tables.pksame_of_packaged rfl) (fun h => absurd h (by decide +kernel))⟩

/-- The file of the device is dropped: the release has one of its name. -/
theorem vendor_dropped :
    let e := sampleFile 0o644 "lib/firmware/a"
    sampleNew.fb = false ∧ e ∈ sampleNew.old.lines ∧ e.t = .f ∧
      never sampleNew.kind e.path = false ∧ other e.path = false ∧
      sampleNew.state sampleNew.all.so e = .new ∧ sampleNew.sameAsNew sampleNew.all e = false ∧
      sampleNew.isOwned e.path = false ∧ sampleNew.sums.pksame e.path = false ∧
      ¬ ∃ l ∈ sampleNew.plan, l.carries e.path := by
  all_goals decide +kernel

end Mu300.Carry
