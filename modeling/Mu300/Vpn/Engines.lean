import Mu300.Vpn.Module

/-!
# No engine is lost

The set of an update is chosen so that an engine the device runs on is in it, whenever the core
would replace the `vpn` extra that carries it. Whether the engine also goes in is asked with the
same function that counts the one in the `vpn` extra, while that is still there: an engine whose
install fails counts as had, and the core that goes in next takes it away.
-/

namespace Mu300.Vpn

open Shell List Option

variable {s : State} {env : Env} {x : Engine} {src : Source} {set : Set} {f : File}

/-! ## The engines go in -/

/-- What the lines of a set leave, one after the other. -/
def installAll (env : Env) (set : Set) (s : State) : State :=
  set.foldl (fun s l => (moduleInstall env l.1 l.2 s).1) s

def EnginesOnly (set : Set) : Prop := ∀ l ∈ set, ∃ x, l.1 = .engine x

theorem puts_engine (x : Engine) (f : File) : puts env (.engine x) f = env.fits (.engine x) := by
  simp [puts]

theorem vpnEngineHave_of_isSome (h : (s.bin (.engine x)).isSome) : vpnEngineHave s x := by
  simp [vpnEngineHave, h]

theorem vpnEngineHave_iff : vpnEngineHave s x ↔
    (s.bin (.engine x)).isSome ∨ ((x = .xray ∨ x = .singbox) ∧ carries s (.engine x)) := by
  cases x <;> simp [vpnEngineHave]

theorem vpnEngineHave_install {y : Engine} (hy : env.fits (.engine y) = false) :
    vpnEngineHave (moduleInstall env (.engine x) f s).1 y = vpnEngineHave s y := by
  by_cases hx : env.fits (.engine x)
  · have hne : Extra.engine y ≠ .engine x := by
      intro h
      rw [h, hx] at hy
      cases hy
    rw [moduleInstall, puts_engine, if_pos hx]
    simp [vpnEngineHave, carries, hne]
  · rw [moduleInstall, puts_engine, if_neg hx]

theorem bin_install_engine (m : Extra) : (moduleInstall env (.engine x) f s).1.bin m =
      if m = .engine x ∧ env.fits (.engine x) then some f.asset.bin else s.bin m := by
  rw [moduleInstall, puts_engine]
  by_cases hx : env.fits (.engine x)
  · simp [hx]
  · simp [hx]

theorem bin_installAll (env : Env) (s : State) (hset : EnginesOnly set) :
    (installAll env set s).bin .vpn = s.bin .vpn ∧
    ∀ x, ((installAll env set s).bin (.engine x)).isSome ↔
        (s.bin (.engine x)).isSome ∨ (∃ f, (.engine x, f) ∈ set) ∧ env.fits (.engine x) := by
  induction set generalizing s with
  | nil => simp [installAll]
  | cons l set ih =>
    obtain ⟨n, f⟩ := l
    obtain ⟨y, rfl : n = .engine y⟩ := hset _ mem_cons_self
    obtain ⟨hvpn, heng⟩ :=
        ih (s := (moduleInstall env (.engine y) f s).1) fun l hl => hset l (.tail _ hl)
    refine ⟨hvpn.trans (by simp [bin_install_engine]), fun x => (heng x).trans ?_⟩
    rw [bin_install_engine]
    by_cases hxy : x = y
    · subst hxy
      by_cases hfit : env.fits (.engine x)
      · simp [hfit]
      · simp [hfit]
    · simp [hxy]

theorem modulesInstall_engines (env : Env) (s : State) (hset : EnginesOnly set) (rest : Set)
    (bad : List Engine) :
    ∃ bad', modulesInstall env (set ++ rest) bad s = modulesInstall env rest bad'
      (installAll env set s) ∧ (bad' = [] ↔ bad = [] ∧ ∀ x f, (.engine x, f) ∈ set →
        env.fits (.engine x) ∨ vpnEngineHave s x) := by
  induction set generalizing s bad with
  | nil => exact ⟨bad, rfl, by simp⟩
  | cons l set ih =>
    obtain ⟨n, f⟩ := l
    obtain ⟨x, rfl : n = .engine x⟩ := hset _ mem_cons_self
    have hset' : EnginesOnly set := fun l hl => hset l (.tail _ hl)
    -- the engine itself: it is held against the core when it is not there in the end
    have hbad : ∃ bad₁, modulesInstall env ((.engine x, f) :: (set ++ rest)) bad s =
          modulesInstall env (set ++ rest) bad₁ (moduleInstall env (.engine x) f s).1 ∧
        (bad₁ = [] ↔ bad = [] ∧ (env.fits (.engine x) ∨ vpnEngineHave s x)) := by
      by_cases hfit : env.fits (.engine x)
      · refine ⟨bad, ?_, by simp [hfit]⟩
        have hhave : vpnEngineHave (moduleInstall env (.engine x) f s).1 x :=
          vpnEngineHave_of_isSome (by simp [bin_install_engine, hfit])
        simp [modulesInstall, hhave]
      · have hsame : moduleInstall env (.engine x) f s = (s, false) := by
          rw [moduleInstall, puts_engine, if_neg hfit]
        refine ⟨if vpnEngineHave s x then bad else bad ++ [x], ?_, ?_⟩
        · simp [modulesInstall, hsame]
        · by_cases hh : vpnEngineHave s x
          · simp [hh]
          · simp [hfit, hh]
    obtain ⟨bad₁, hstep, hnil⟩ := hbad
    obtain ⟨bad', hrest, hnil'⟩ := ih (s := (moduleInstall env (.engine x) f s).1) hset' bad₁
    refine ⟨bad', hstep.trans hrest, hnil'.trans ?_⟩
    rw [hnil]
    constructor
    · rintro ⟨⟨hb, hx⟩, hothers⟩
      refine ⟨hb, fun y g hmem => ?_⟩
      rcases mem_cons.1 hmem with heq | hmem
      · obtain ⟨rfl, -⟩ : y = x ∧ g = f := by simpa using heq
        exact hx
      · rcases Bool.eq_false_or_eq_true (env.fits (.engine y)) with hy | hy
        · exact .inl hy
        · exact .inr ((vpnEngineHave_install hy).symm.trans
            ((hothers y g hmem).resolve_left (by simp [hy])))
    · rintro ⟨hb, hall⟩
      refine ⟨⟨hb, hall x f mem_cons_self⟩, fun y g hmem => ?_⟩
      rcases Bool.eq_false_or_eq_true (env.fits (.engine y)) with hy | hy
      · exact .inl hy
      · exact .inr ((vpnEngineHave_install hy).trans
          ((hall y g (.tail _ hmem)).resolve_left (by simp [hy])))

/-! ## What is in the set -/

theorem moduleGet_ne_same (h : s.bin (.engine x) = none) : moduleGet s src x ≠ .same := by
  intro hsame
  rw [moduleGet, moduleAsset] at hsame
  split at hsame
  · rw [moduleDownload] at hsame
    split at hsame
    · simp only [h, isSome_none, Bool.false_eq_true, false_and, if_false] at hsame
      split at hsame
      · cases hsame
      · cases hsame
    · cases hsame
  · rw [moduleFrom] at hsame
    split at hsame
    · split at hsame
      · cases hsame
      · cases hsame
    · cases hsame

theorem collect_engines {bundle : Bool} (xs : List Engine) :
    EnginesOnly (collect s src bundle xs).1 := by
  induction xs with
  | nil => exact fun _ h => nomatch h
  | cons x xs ih =>
    simp only [collect]
    split
    · exact ih
    · split
      · exact forall_mem_cons.2 ⟨⟨x, rfl⟩, ih⟩
      · exact ih
      · split
        · exact ih
        · split
          · exact ih
          · exact ih

/-- Without the bundle, an engine that only the `vpn` extra carries is in the set or missing. -/
theorem mem_collect {xs : List Engine} (hx : x ∈ xs)
    (hnone : s.bin (.engine x) = none) (hhave : vpnEngineHave s x) :
    (∃ f, (.engine x, f) ∈ (collect s src false xs).1) ∨ (collect s src false xs).2 ≠ [] := by
  induction xs with
  | nil => cases hx
  | cons y xs ih =>
    -- a later engine stays where it is, whatever becomes of this one
    have later : ∀ c : Set × List Engine, (∀ l ∈ (collect s src false xs).1, l ∈ c.1) →
        ((collect s src false xs).2 ≠ [] → c.2 ≠ []) → x ∈ xs →
        (∃ f, (.engine x, f) ∈ c.1) ∨ c.2 ≠ [] := by
      intro c h₁ h₂ hmem
      exact (ih hmem).imp (fun ⟨f, hf⟩ => ⟨f, h₁ _ hf⟩) h₂
    simp only [collect, Bool.false_eq_true, false_and, if_false]
    rcases mem_cons.1 hx with rfl | hmem
    · split
      · exact .inl ⟨_, mem_cons_self⟩
      · next hsame => exact absurd hsame (moduleGet_ne_same hnone)
      · simp [hnone, hhave]
    · split
      · exact later _ (fun l hl => mem_cons_of_mem _ hl) id hmem
      · exact later _ (fun _ hl => hl) id hmem
      · split
        · exact later _ (fun _ hl => hl) id hmem
        · split
          · exact later _ (fun _ hl => hl) (fun _ => cons_ne_nil _ _) hmem
          · exact later _ (fun _ hl => hl) id hmem

/-- The set of an update: engines, and at the end a file for `vpn` or none. -/
structure SetOf (s : State) (set : Set) (engines : Set) (tail : Option File) : Prop where
  eq : set = engines ++ tail.toList.map (Extra.vpn, ·)
  only : EnginesOnly engines
  /-- a file for `vpn` without engines comes with every engine that only the extra carries -/
  core : ∀ f ∈ tail, Program.engine .xray ∉ f.asset.bin → ∀ x, s.bin (.engine x) = none →
    vpnEngineHave s x → ∃ g, (Extra.engine x, g) ∈ engines

theorem moduleAsset_got {n : Extra} {a : Asset} (h : moduleAsset s src n a = .got f) :
    f.asset = a := by
  rw [moduleAsset] at h
  split at h
  · rw [moduleDownload] at h
    split at h
    · split at h
      · cases h
      · split at h
        · cases h
          rfl
        · cases h
    · cases h
  · rw [moduleFrom] at h
    split at h
    · split at h
      · cases h
        rfl
      · cases h
    · cases h

theorem vpnLine_eq (r : Status) : ∃ tail : Option File,
    vpnLine r = tail.toList.map (Extra.vpn, ·) ∧ ∀ f ∈ tail, r = .got f := by
  cases r with
  | got f => exact ⟨some f, rfl, fun g hg => by rw [mem_some.1 hg]⟩
  | _ => exact ⟨none, rfl, fun g hg => nomatch hg⟩

theorem mem_vpnEnginesWanted (h : vpnEngineHave s x) : x ∈ vpnEnginesWanted s env := by
  rw [vpnEnginesWanted, mem_filter]
  refine ⟨by cases x <;> simp, ?_⟩
  rw [h]
  rfl

theorem setOf_vpnModuleGet (h : vpnModuleGet s env = some set) :
    ∃ engines tail, SetOf s set engines tail := by
  simp only [vpnModuleGet] at h
  -- with a status of 0 or 3 for the core
  have chosen : ∀ r, (if (collect s env.source (moduleBundle s r) (vpnEnginesWanted s env)).2 = []
        then some ((collect s env.source (moduleBundle s r) (vpnEnginesWanted s env)).1 ++
          vpnLine r)
        else (moduleGetBundle s env.source).map
          (bundleSet (collect s env.source (moduleBundle s r) (vpnEnginesWanted s env)).1)) =
            some set →
      ∃ engines tail, SetOf s set engines tail := by
    intro r h
    have hengines :
        EnginesOnly (collect s env.source (moduleBundle s r) (vpnEnginesWanted s env)).1 :=
      collect_engines _
    split at h
    · next hmissing =>
      obtain ⟨tail, htail, hgot⟩ := vpnLine_eq r
      refine ⟨_, tail, (htail ▸ some.inj h).symm, hengines, fun f hf hx x hnone hhave => ?_⟩
      have hb : moduleBundle s r = false := by
        rw [hgot f hf]
        exact decide_eq_false hx
      rw [hb] at hmissing ⊢
      exact (mem_collect (mem_vpnEnginesWanted hhave) hnone hhave).resolve_right
        fun hne => hne hmissing
    · obtain ⟨r', hr', hset⟩ := map_eq_some_iff.1 h
      obtain ⟨tail, htail, hgot⟩ := vpnLine_eq r'
      refine ⟨_, tail, by rw [← hset, bundleSet, htail], fun l hl => ?_, fun f hf hx => ?_⟩
      · exact hengines l (mem_of_mem_filter hl)
      · -- the bundle has xray
        rw [hgot f hf, moduleGetBundle] at hr'
        split at hr'
        · next f' hbundle =>
          cases hr'
          rw [moduleAsset_got hbundle] at hx
          exact absurd (by decide) hx
        · split at hr'
          · cases hr'
          · cases hr'
        · cases hr'
  split at h
  · cases h
  · cases h
  · exact chosen _ h

theorem enginesAlone_engines : EnginesOnly (enginesAlone s src) := by
  intro l hl
  obtain ⟨x, -, hx⟩ := mem_filterMap.1 hl
  split at hx
  · split at hx
    · cases hx
      exact ⟨x, rfl⟩
    · cases hx
  · cases hx

theorem setOf_modulesFetch (h : modulesFetch s env = some set) :
    ∃ engines tail, SetOf s set engines tail := by
  have none_of : some [] = some set → ∃ engines tail, SetOf s set engines tail := by
    rintro ⟨⟩
    exact ⟨[], none, rfl, nofun, nofun⟩
  rw [modulesFetch] at h
  split at h
  · split at h
    · next hget =>
      cases h
      exact setOf_vpnModuleGet hget
    · split at h
      · exact none_of h
      · split at h
        · cases h
        · exact none_of h
  · cases h
    exact ⟨_, none, (append_nil _).symm, enginesAlone_engines, nofun⟩

/-! ## The update -/

/-- The core takes the place of the `vpn` extra: it is in the set, its install works, and no
engine of the set is in the way. -/
def CoreGoesIn (s : State) (env : Env) (set : Set) : Prop :=
  (∃ f, (.vpn, f) ∈ set ∧ f.asset = .core) ∧ env.fits .vpn ∧
    ∀ x f, (.engine x, f) ∈ set → env.fits (.engine x) ∨ vpnEngineHave s x

/-- Where the core goes in, so does every engine of the set that only the `vpn` extra carried. -/
def Covered (s : State) (env : Env) : Prop :=
  ∀ set, modulesFetch s env = some set → CoreGoesIn s env set →
    ∀ x f, (.engine x, f) ∈ set → s.bin (.engine x) = none → vpnEngineHave s x →
      env.fits (.engine x)

/-- The file for `vpn` behind the engines: it is left out, it stops the update, or it goes in. -/
theorem modulesInstall_vpn (f : File) (bad : List Engine) (s : State) :
    (bad = [] ∧ puts env .vpn f ∧ ∃ s', modulesInstall env [(.vpn, f)] bad s = some s' ∧
        s'.bin .vpn = some f.asset.bin ∧ ∀ x, s'.bin (.engine x) = s.bin (.engine x)) ∨
      ((bad ≠ [] ∨ puts env .vpn f = false) ∧
        ∀ s', modulesInstall env [(.vpn, f)] bad s = some s' → s' = s) := by
  by_cases hbad : bad = []
  · by_cases hputs : puts env .vpn f
    · refine .inl ⟨hbad, hputs, (moduleInstall env .vpn f s).1, ?_, ?_, fun x => ?_⟩
      · have htool : Program.toolkit ∈ f.asset.bin := by
          simp only [puts, ne_eq, not_true_eq_false, decide_false, Bool.false_or, Bool.and_eq_true,
            decide_eq_true_eq] at hputs
          exact hputs.2
        have hin : vpnModuleIn (moduleInstall env .vpn f s).1 := by
          simp [vpnModuleIn, carries, moduleInstall, hputs, htool]
        simp [modulesInstall, hbad, hin]
      · simp [moduleInstall, hputs]
      · simp [moduleInstall, hputs]
    · refine .inr ⟨.inr (by simpa using hputs), fun s' hs' => ?_⟩
      simp only [modulesInstall, hbad, ne_eq, not_true_eq_false, if_false, moduleInstall, hputs,
        Bool.false_eq_true] at hs'
      split at hs'
      · exact (some.inj hs').symm
      · cases hs'
  · refine .inr ⟨.inl hbad, fun s' hs' => ?_⟩
    simp only [modulesInstall, ne_eq, hbad, not_false_eq_true, if_true] at hs'
    split at hs'
    · exact (some.inj hs').symm
    · cases hs'

theorem eq_core_or_bundle (h : puts env .vpn f) : f.asset = .core ∨ f.asset = .bundle := by
  cases hf : f.asset with
  | core => exact .inl rfl
  | bundle => exact .inr rfl
  | engine x => simp [puts, hf, Asset.bin] at h

theorem vpnEngineHave_installAll (hset : EnginesOnly set)
    (h : vpnEngineHave s x) : vpnEngineHave (installAll env set s) x := by
  obtain ⟨hvpn, heng⟩ := bin_installAll env s hset
  rw [vpnEngineHave_iff] at h ⊢
  exact h.imp (fun hown => (heng x).2 (.inl hown)) fun hc =>
    ⟨hc.1, by rw [carries, hvpn]; exact hc.2⟩

/-- **An update loses no engine**, exactly when the engines that only the `vpn` extra carried go in
wherever the core does: then every engine the device has before the module step it has after it,
unless the update stopped. -/
theorem no_engine_lost_iff (s : State) (env : Env) :
    (∀ x, vpnEngineHave s x → ∀ s', update s env = some s' → vpnEngineHave s' x) ↔
      Covered s env := by
  constructor
  · intro h set hset hcore x f hmem hnone hhave
    obtain ⟨engines, tail, hs⟩ := setOf_modulesFetch hset
    obtain ⟨⟨g, hg, hgcore⟩, hvpn, hgood⟩ := hcore
    -- the core is the file at the end, and every engine is in its own line before it
    have htail : tail = some g := by
      rw [hs.eq, mem_append] at hg
      rcases hg with hg | hg
      · obtain ⟨y, hy⟩ := hs.only _ hg
        cases hy
      · simpa using hg
    have hline : ∀ y e, (.engine y, e) ∈ set ↔ (.engine y, e) ∈ engines := by
      intro y e
      rw [hs.eq, mem_append]
      simp
    obtain ⟨bad, hrun, hbad⟩ := modulesInstall_engines env s hs.only [(.vpn, g)] []
    have hputs : puts env .vpn g := by simp [puts, hvpn, hgcore, Asset.bin]
    have hnil : bad = [] := hbad.2 ⟨rfl, fun y e hy => hgood y e ((hline y e).2 hy)⟩
    rcases modulesInstall_vpn g bad (installAll env engines s) with hin | hout
    · obtain ⟨-, -, s', hs', hbin, heng⟩ := hin
      have hup : update s env = some s' := by
        rw [update, hset, bind_some, hs.eq, htail]
        exact hrun.trans hs'
      rcases vpnEngineHave_iff.1 (h x hhave s' hup) with hown | hcarried
      · rw [heng x, (bin_installAll env s hs.only).2 x] at hown
        rcases hown with hown | hown
        · rw [hnone] at hown
          cases hown
        · exact hown.2
      · simp [carries, hbin, hgcore, Asset.bin] at hcarried
    · rcases hout.1 with hb | hp
      · exact absurd hnil hb
      · rw [hputs] at hp
        cases hp
  · intro hcov x hhave s' hup
    obtain ⟨set, hset, hrun⟩ := bind_eq_some_iff.1 hup
    obtain ⟨engines, tail, hs⟩ := setOf_modulesFetch hset
    have hkeep : vpnEngineHave (installAll env engines s) x :=
      vpnEngineHave_installAll hs.only hhave
    rw [hs.eq] at hrun
    obtain ⟨bad, hengines, hbad⟩ :=
      modulesInstall_engines env s hs.only (tail.toList.map (.vpn, ·)) []
    rw [hengines] at hrun
    rcases tail with _ | g
    · cases hrun
      exact hkeep
    rcases modulesInstall_vpn g bad (installAll env engines s) with hin | hout
    · obtain ⟨hnil, hputs, s'', hs'', hbin, heng⟩ := hin
      obtain rfl : s'' = s' := some.inj (hs''.symm.trans hrun)
      rcases eq_core_or_bundle hputs with hcore | hbundle
      · -- the core: what only the extra carried was in the set, and went in
        refine vpnEngineHave_of_isSome ?_
        rw [heng x, (bin_installAll env s hs.only).2 x]
        by_cases hown : (s.bin (.engine x)).isSome
        · exact .inl hown
        have hnone : s.bin (.engine x) = none := by simpa using hown
        obtain ⟨e, he⟩ := hs.core g rfl (by simp [hcore, Asset.bin]) x hnone hhave
        refine .inr ⟨⟨e, he⟩, hcov set hset ⟨⟨g, ?_, hcore⟩, ?_, fun y e' hy => ?_⟩ x e
          ?_ hnone hhave⟩
        · rw [hs.eq]
          simp
        · simp only [puts, Bool.and_eq_true] at hputs
          exact hputs.1
        · rw [hs.eq, mem_append] at hy
          exact (hbad.1 hnil).2 y e' (hy.resolve_right (by simp))
        · rw [hs.eq]
          exact mem_append_left _ he
      · -- the bundle carries both engines that an extra can carry
        rw [vpnEngineHave_iff] at hkeep ⊢
        rcases hkeep with hown | ⟨hx, -⟩
        · exact .inl (by rw [heng x]; exact hown)
        · refine .inr ⟨hx, ?_⟩
          rw [carries, hbin, hbundle]
          rcases hx with rfl | rfl
          · decide
          · decide
    · rw [hout.2 s' hrun]
      exact hkeep

namespace Sample

/-- The first version of the module: one extra with both engines. -/
def combined : State where
  bin n := if n = .vpn then some Asset.bundle.bin else none
  sha _ := none

/-- A download in which everything is to be had, and systems to update. -/
def online (fits : Extra → Bool) : Env where
  source := ⟨.download, fun _ => some ['s'], fun _ => true, fun _ => ['s'], false⟩
  enabled := true
  systems := []
  words := ["vpn-xray"]
  todo := true
  fits := fits
  records _ := true

end Sample

open Sample in
/-- Everything is downloaded, and the install of `vpn-xray` fails: the core goes in all the same,
and the device that ran on xray has none. -/
theorem engine_lost :
    vpnEngineHave combined .xray ∧ ∃ s', update combined (online (· ≠ .engine .xray)) = some s' ∧
        vpnEngineHave s' .xray = false ∧ vpnEngineHave s' .singbox := by
  refine ⟨by decide, _, rfl, by decide, by decide⟩

end Mu300.Vpn
