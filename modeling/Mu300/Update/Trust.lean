import Mu300.Update.Fetch
import Mathlib.Data.Set.Function

/-!
# What a run of the updater trusts

`fetch_verified` returns 0 only for a file whose hash stands in checksums that this run
has judged, whatever the network answers and whatever is staged from earlier runs.

SHA-256 has no collision among the texts the run sees: it is injective on a set `S` that
they are all in.
-/

namespace Mu300.Update

open Shell Crash Crash.Prog List

variable {cfg : Config} {S : Set Text} {s s' : Run} {tag asset base w : Text}
  {Q : ℕ × Text → Run → Prop} {content : Option Text} (url : Text)

/-! ## Verdicts -/

/-- Checksums that were let through for their release. -/
def Judgement.Trusted (cfg : Config) (j : Judgement) : Prop :=
  (sigState cfg j.sums j.sig = .valid ∧ releaseSha j.sums ≠ [] ∧ releaseSha j.sums =
    tagSha cfg j.tag) ∨ (cfg.allowUnsigned ∧ sigState cfg j.sums j.sig ≠ .bad ∧
      (releaseSha j.sums ≠ [] → releaseSha j.sums = tagSha cfg j.tag))

theorem sigState_ne_nokey (hkey : cfg.keyState = .ok) (sums : Text) (sig : Option Text) :
    sigState cfg sums sig ≠ .nokey := by
  simp only [sigState, hkey]
  split
  · nofun
  · nofun
  · split <;> nofun

theorem trusted_of_accepts (hkey : cfg.keyState = .ok) {j : Judgement}
    (h : (sumsVerdict cfg j.tag (sigState cfg j.sums j.sig) j.sums).accepts) : j.Trusted cfg := by
  have hnokey := sigState_ne_nokey hkey j.sums j.sig
  by_cases hother : releaseSha j.sums ≠ [] ∧ releaseSha j.sums ≠ tagSha cfg j.tag
  · unfold sumsVerdict at h
    split_ifs at h <;> cases h
  have hname : releaseSha j.sums ≠ [] → releaseSha j.sums = tagSha cfg j.tag :=
    fun hne => not_not.1 fun h => hother ⟨hne, h⟩
  unfold sumsVerdict at h
  split_ifs at h with hbad hbadkey hvalid hunnamed hallow
  · cases h
  · cases h
  · cases h
  · exact .inl ⟨hvalid, hunnamed, hname hunnamed⟩
  · exact .inr ⟨hallow, hbad, hname⟩
  · cases h

/-! ## The invariant -/

/-- A judgement of this run that trusts checksums for a release. -/
def Approved (cfg : Config) (s : Run) (tag sums : Text) : Prop :=
  ∃ j ∈ s.judged, j.tag = tag ∧ j.sums = sums ∧ j.Trusted cfg

/-- A hash that trusted checksums of this run list for a file. -/
def Listed (cfg : Config) (s : Run) (tag asset w : Text) : Prop :=
  ∃ sums, Approved cfg s tag sums ∧ want sums asset = w

/-- The pin, if there is one, is of checksums approved for `tag`. -/
def PinnedFor (cfg : Config) (S : Set Text) (tag : Text) (s : Run) : Prop :=
  s.sumsPin ≠ [] → ∃ sums ∈ S, Approved cfg s tag sums ∧ cfg.sha sums = s.sumsPin

/-- What holds between any two steps of a run. -/
structure Inv (cfg : Config) (S : Set Text) (s : Run) : Prop where
  sums : ∀ t ∈ s.files sumsFile, t ∈ S
  pinned : PinnedFor cfg S s.sumsOk s

/-- The answers that stay among the texts without a collision. -/
def Reply.In (S : Set Text) (e : Reply) : Prop :=
  (∀ url, line (captured (e.get url).2) ∈ S) ∧ ∀ url, ∀ t ∈ (e.download url).2, t ∈ S

theorem Approved.mono {sums : Text} (h : Approved cfg s tag sums) (hj : s.judged ⊆ s'.judged) :
    Approved cfg s' tag sums := by
  obtain ⟨j, hmem, hrest⟩ := h
  exact ⟨j, hj hmem, hrest⟩

theorem Listed.mono (h : Listed cfg s tag asset w) (hj : s.judged ⊆ s'.judged) :
    Listed cfg s' tag asset w := by
  obtain ⟨sums, hsums, hw⟩ := h
  exact ⟨sums, hsums.mono hj, hw⟩

theorem mem_of_some {t : Text} (h : t ∈ S) : ∀ t' ∈ some t, t' ∈ S := by
  rintro _ ⟨⟩
  exact h

theorem Inv.put_other (h : Inv cfg S s) {name : Text} (hn : sumsFile ≠ name)
    (content : Option Text) : Inv cfg S (s.put name content) := by
  refine ⟨fun t ht => ?_, h.pinned⟩
  rw [Run.put_files_of_ne s hn] at ht
  exact h.sums t ht

theorem Inv.put (h : Inv cfg S s) (name : Text) (hc : ∀ t ∈ content, t ∈ S) :
    Inv cfg S (s.put name content) := by
  by_cases hn : sumsFile = name
  · subst hn
    exact ⟨hc, h.pinned⟩
  · exact h.put_other hn content

theorem Inv.leaveMirror (h : Inv cfg S s) : Inv cfg S (leaveMirror cfg s) := by
  unfold Update.leaveMirror
  split
  · exact h
  · split
    · exact ⟨h.sums, fun hne => absurd rfl hne⟩
    · exact ⟨h.sums, h.pinned⟩

theorem leaveMirror_judged : (leaveMirror cfg s).judged = s.judged := by
  unfold leaveMirror
  split
  · rfl
  · split <;> rfl

/-! ## Steps -/

/-- Every end of a program satisfies `Q`, for all answers among the texts in `S`. -/
abbrev Always {α : Type} (S : Set Text) (Q : α → Run → Prop) (p : Prog Reply Run α)
    (s : Run) : Prop :=
  wp (Reply.In S) (fun _ => True) Q p s

theorem wp_fetchOnce {again : ℕ × Text → Prog Reply Run (ℕ × Text)}
    (h : ∀ rc out, (rc = 0 → line out ∈ S) → Q (rc, out) s)
    (hagain : ∀ failed, failed.1 ≠ 0 → Always S Q (again failed) s) :
    Always S Q (fetchOnce cfg url again) s := by
  simp only [fetchOnce, wp_bind, wp_look, wp_ite, wp_pure, true_and]
  intro e he e' _
  have hne : fetchUnreachableRc s (e.get url).1 none ≠ 0 := by
    unfold fetchUnreachableRc
    split_ifs <;> decide
  exact ⟨fun _ => h 0 _ fun _ => he.1 url, fun _ =>
    ⟨fun _ => h _ _ fun h0 => absurd h0 hne, fun _ => hagain _ hne⟩⟩

theorem wp_fetchTries (h : ∀ rc out, (rc = 0 → line out ∈ S) → Q (rc, out) s) :
    ∀ left, Always S Q (fetchTries cfg url left) s := by
  intro left
  induction left with
  | zero => exact wp_fetchOnce url h fun failed hne => h _ _ fun h0 => absurd h0 hne
  | succ left ih =>
    refine wp_fetchOnce url h fun _ _ => ?_
    simp only [wp_bind, wp_look, wp_ite, wp_pure, true_and]
    exact fun e _ => ⟨fun _ => h 1 [] (by rintro ⟨⟩), fun _ => ih⟩

theorem wp_fetchStdout
    (h : ∀ rc out, (rc = 0 → line out ∈ S) → Q (rc, out) s) :
    Always S Q (fetchStdout cfg url) s := wp_fetchTries url h 3

theorem wp_fetchSig {Q : Unit → Run → Prop} (base : Text)
    (h : ∀ sig, Q () (s.put sigFile sig)) : Always S Q (fetchSig cfg base) s := by
  simp only [fetchSig, wp_bind, wp_act, true_and]
  intro e _
  refine wp_fetchStdout _ fun rc sig _ => ?_
  simp only [wp_ite, wp_act, true_and, wp_pure, Run.put_put]
  exact ⟨fun _ _ _ => h _, fun _ => h _⟩

theorem shaOf_eq_some {file : Option Text} {h : Text} (hsha : shaOf cfg file = some h) :
    ∃ t ∈ file, cfg.sha t = h := by
  obtain ⟨t, ht, hif⟩ := Option.bind_eq_some_iff.1 hsha
  split at hif
  · exact ⟨t, ht, Option.some.inj hif⟩
  · cases hif

/-- What `sums_trusted` leaves: the invariant, and with a yes staged checksums that are
approved for the tag. -/
structure Judged (cfg : Config) (S : Set Text) (tag : Text) (s : Run) (yes : Bool) (s' : Run) :
    Prop where
  inv : Inv cfg S s'
  kept : s.judged ⊆ s'.judged
  ok : yes → s'.sumsOk = tag
  approved : yes → ∃ sums ∈ s'.files sumsFile, Approved cfg s' tag sums

theorem wp_judgeSums (hkey : cfg.keyState = .ok) (hS : ∀ t ∈ s.files sumsFile, t ∈ S) :
    Always S (Judged cfg S tag s) (judgeSums cfg tag) s := by
  have hno : ∀ {s' : Run}, s'.files = s.files → s.judged ⊆ s'.judged → s'.sumsPin = [] →
      Judged cfg S tag s false s' := fun hf hj hp =>
    ⟨⟨by rw [hf]; exact hS, fun hne => absurd hp hne⟩, hj, nofun, nofun⟩
  simp only [judgeSums, wp_bind, wp_look, wp_act, true_and]
  intro e _ e' _
  cases hsums : s.files sumsFile with
  | none => exact hno rfl (fun _ h => h) rfl
  | some sums =>
    cases hpin : shaOf cfg (some sums) with
    | none => exact hno rfl (fun _ h => h) rfl
    | some pin =>
      have hsha : cfg.sha sums = pin := by
        obtain ⟨t, ht, h⟩ := shaOf_eq_some hpin
        cases ht
        exact h
      have hgrow : s.judged ⊆ s.judged ++ [⟨tag, sums, s.files sigFile⟩] := subset_append_left ..
      simp only [judge, wp_bind, wp_op, wp_look, wp_ite, wp_act, wp_pure, true_and]
      refine fun _ _ => ⟨fun hyes _ _ => ⟨fun _ _ _ => ?_, fun _ _ _ => hno rfl hgrow rfl⟩,
        fun _ _ _ => hno rfl hgrow rfl⟩
      -- accepted, and still the same bytes: this judgement is the one the pin is of
      have happroved : ∀ s' : Run, s'.judged = s.judged ++ [⟨tag, sums, s.files sigFile⟩] →
          Approved cfg s' tag sums := fun s' hs' =>
        ⟨⟨tag, sums, s.files sigFile⟩, by rw [hs']; exact mem_append_right _ mem_cons_self,
          rfl, rfl, trusted_of_accepts hkey hyes⟩
      exact ⟨⟨hS, fun _ => ⟨sums, hS sums hsums, happroved _ rfl, hsha⟩⟩, hgrow, fun _ => rfl,
        fun _ => ⟨sums, hsums, happroved _ rfl⟩⟩

/-! ## Checksums, fetched -/

theorem wp_mirrorFellBack {Q : Bool → Run → Prop} (h : ∀ yes, Q yes (leaveMirror cfg s)) :
    Always S Q (mirrorFellBack cfg) s := ⟨trivial, fun _ _ => h _⟩

theorem wp_fetchSums {Q : ℕ × Text × Text → Run → Prop} (hs : Inv cfg S s)
    (h : ∀ rc sums base s', Inv cfg S s' → s'.judged = s.judged → (rc = 0 → line sums ∈ S) →
      Q (rc, sums, base) s') : Always S Q (fetchSums cfg tag) s := by
  simp only [fetchSums, wp_bind, wp_look, true_and]
  refine fun _ _ => wp_fetchStdout _ fun rc sums hsums => ?_
  simp only [wp_ite, wp_bind, wp_pure]
  refine ⟨fun _ => wp_mirrorFellBack fun yes => ?_, fun _ => h _ _ _ _ hs rfl hsums⟩
  have hleft := hs.leaveMirror
  simp only [wp_ite, wp_bind, wp_look, wp_pure, true_and]
  refine ⟨fun _ _ _ => wp_fetchStdout _ fun rc' sums' hsums' => ?_, fun _ => ?_⟩
  · exact h _ _ _ _ hleft leaveMirror_judged hsums'
  · exact h _ _ _ _ hleft leaveMirror_judged hsums

theorem wp_getSums (hs : Inv cfg S s) :
    Always S (fun _ s' => Inv cfg S s') (getSums cfg tag) s := by
  simp only [getSums, wp_bind, wp_look, wp_ite, true_and]
  refine fun _ _ => ⟨fun _ => ⟨trivial, fun _ _ => hs⟩, fun _ => ?_⟩
  refine wp_fetchSums hs fun rc sums base s' hs' _ hsums => ?_
  simp only [wp_bind, wp_act, wp_ite, wp_test, wp_pure, true_and]
  refine ⟨fun hrc _ _ => ?_, fun _ _ _ => ⟨fun _ => hs', fun _ => hs'⟩⟩
  have hput := mem_of_some (hsums hrc.1)
  have hnew := (hs'.put sumsFile hput).put_other (by decide : sumsFile ≠ tagFile) (some (line tag))
  exact ⟨hnew.sums, hnew.pinned⟩

/-! ## fetch_verified -/

/-- While a file is fetched: the hash to look for came out of trusted checksums, and the
pin is this release's or none. -/
structure Fetching (cfg : Config) (S : Set Text) (tag asset w : Text) (s : Run) : Prop where
  inv : Inv cfg S s
  own : s.sumsOk = tag ∨ s.sumsPin = []
  listed : Listed cfg s tag asset w

/-- What a call leaves: status 0 stands for a staged file with a hash that is listed. -/
structure Fetched (cfg : Config) (S : Set Text) (tag asset : Text) (status : ℕ) (s : Run) :
    Prop where
  inv : Inv cfg S s
  trusted : status = 0 → ∃ t ∈ s.files asset, Listed cfg s tag asset (cfg.sha t)

theorem Judged.fetching (h : Judged cfg S tag s true s') :
    Fetching cfg S tag asset (wanted s' asset) s' := by
  obtain ⟨sums, hsums, happroved⟩ := h.approved rfl
  refine ⟨h.inv, .inl (h.ok rfl), sums, happroved, ?_⟩
  rw [wanted, hsums, Option.getD_some]

theorem Fetching.put (h : Fetching cfg S tag asset w s) (name : Text) (hc : ∀ t ∈ content, t ∈ S) :
    Fetching cfg S tag asset w (s.put name content) :=
  ⟨h.inv.put name hc, h.own, h.listed⟩

theorem Fetching.leaveMirror (h : Fetching cfg S tag asset w s) :
    Fetching cfg S tag asset w (leaveMirror cfg s) := by
  refine ⟨h.inv.leaveMirror, ?_, h.listed.mono (by rw [leaveMirror_judged]; exact fun _ h => h)⟩
  unfold Update.leaveMirror
  split
  · exact h.own
  · split
    · exact .inr rfl
    · exact h.own

theorem wp_fetchFile {Q : ℕ → Run → Prop} (name : Text)
    (h : ∀ rc content, (∀ t ∈ content, t ∈ S) → Q rc (s.put name content)) :
    Always S Q (fetchFile url name) s := ⟨trivial, fun _ he => h _ _ (he.2 url)⟩

theorem wp_moveSource {Q : Text → Run → Prop} (rc : ℕ) (hs : Fetching cfg S tag asset w s)
    (h : ∀ base s', Fetching cfg S tag asset w s' → Q base s') :
    Always S Q (moveSource cfg tag rc base) s := by
  simp only [moveSource, wp_ite, wp_bind, wp_pure]
  refine ⟨fun _ => wp_mirrorFellBack fun yes => ?_, fun _ => h _ _ hs⟩
  simp only [wp_ite, wp_look, wp_pure, true_and]
  exact ⟨fun _ _ _ => h _ _ hs.leaveMirror, fun _ => h _ _ hs.leaveMirror⟩

theorem wp_stagePrivate {Q : Bool → Run → Prop} (hs : Inv cfg S s)
    (h : ∀ yes s', Inv cfg S s' → Q yes s') : Always S Q stagePrivate s := by
  refine ⟨trivial, fun e _ => h _ _ ?_⟩
  dsimp only
  cases e.stage with
  | refused | kept => exact hs
  | emptied => exact ⟨by simp, hs.pinned⟩

section

variable (hkey : cfg.keyState = .ok) (hinj : Set.InjOn cfg.sha S)
include hkey hinj

theorem wp_sumsTrusted (base : Text) (hS : ∀ t ∈ s.files sumsFile, t ∈ S)
    (hpin : s.sumsOk = tag → PinnedFor cfg S tag s) :
    Always S (Judged cfg S tag s) (sumsTrusted cfg tag base) s := by
  simp only [sumsTrusted, wp_bind, wp_look, wp_ite, wp_test, true_and]
  refine fun _ _ => ⟨fun hok _ _ => ?_, fun _ _ _ => ⟨fun _ => ?_, fun _ => ?_⟩⟩
  · refine ⟨⟨hS, by rw [hok]; exact hpin hok⟩, fun _ h => h, fun _ => hok, fun hyes => ?_⟩
    obtain ⟨hne, hsha⟩ := of_decide_eq_true hyes
    obtain ⟨t, ht, htsha⟩ := shaOf_eq_some hsha
    obtain ⟨sums, hmem, happroved, hpinned⟩ := hpin hok hne
    -- the pin has one text in `S`
    obtain rfl : t = sums := hinj (hS t ht) hmem (htsha.trans hpinned.symm)
    exact ⟨t, ht, happroved⟩
  · refine wp_fetchSig base fun sig => ?_
    have hsame : (s.put sigFile sig).files sumsFile = s.files sumsFile :=
      Run.put_files_of_ne s (by decide) sig
    refine wp_mono (fun _ h => h) (fun yes s' h => ?_) (wp_judgeSums hkey (by rw [hsame]; exact hS))
    exact ⟨h.inv, h.kept, h.ok, h.approved⟩
  · exact wp_judgeSums hkey hS

theorem wp_refetchSums (hs : Fetching cfg S tag asset w s) :
    Always S (fun result s' => match result with
        | .error status => Fetched cfg S tag asset status s'
        | .ok w' => Fetching cfg S tag asset w' s')
      (refetchSums cfg tag asset base w) s := by
  simp only [refetchSums, wp_bind]
  refine wp_fetchStdout _ fun rc sums hsums => ?_
  simp only [wp_ite, wp_bind, wp_act, wp_pure, true_and]
  refine ⟨fun hrc _ _ => ?_, fun _ => hs⟩
  have hput := mem_of_some (hsums hrc.1)
  refine wp_mono (fun _ h => h) (fun yes s' h => ?_)
    (wp_sumsTrusted hkey hinj base (hs.inv.put sumsFile hput).sums fun htag hne => ?_)
  · cases yes with
    | false => exact ⟨h.inv, by rintro ⟨⟩⟩
    | true =>
      simp only [if_true, wp_bind, wp_look, wp_ite, wp_pure, true_and]
      exact fun _ _ => ⟨fun _ => ⟨h.inv, by rintro ⟨⟩⟩, fun _ => h.fetching⟩
  · -- the empty tag is what `SUMS_OK=` makes it, and then the pin is its own
    rcases hs.own with hown | hnone
    · obtain ⟨sums', hmem, happroved, hsha⟩ := hs.inv.pinned hne
      exact ⟨sums', hmem, by rw [hown] at happroved; exact happroved, hsha⟩
    · exact absurd hnone hne

theorem wp_fetchAsset : ∀ (tries : ℕ) {base w : Text} {s : Run}, Fetching cfg S tag asset w s →
      Always S (Fetched cfg S tag asset) (fetchAsset cfg tag asset tries base w) s := by
  intro tries
  induction tries with
  | zero =>
    intro base w s hs
    exact ⟨hs.inv, by rintro ⟨⟩⟩
  | succ tries ih =>
    intro base w s hs
    -- a staged file with the hash of `w`
    have hdone : ∀ {s' : Run}, Fetching cfg S tag asset w s' → staged cfg s' asset w →
        Fetched cfg S tag asset 0 s' := by
      rintro s' h ⟨t, ht, hsha⟩
      exact ⟨h.inv, fun _ => ⟨t, ht, by rw [hsha]; exact h.listed⟩⟩
    simp only [fetchAsset, wp_bind, wp_test, wp_ite, wp_pure, true_and, decide_eq_true_eq]
    refine fun _ _ => ⟨fun h => hdone hs h.2, fun _ => ?_⟩
    refine wp_fetchFile _ _ fun rc content hcontent => ?_
    have hput := hs.put asset hcontent
    simp only [wp_bind, wp_test, wp_ite, wp_pure, true_and, decide_eq_true_eq]
    refine fun _ _ => ⟨fun h => hdone hput h.2, fun _ => ?_⟩
    refine wp_moveSource rc hput fun base' s' hs' => ?_
    simp only [wp_act, wp_bind, true_and]
    intro _ _
    refine wp_mono (fun _ h => h) (fun result s'' h => ?_)
      (wp_refetchSums hkey hinj (hs'.put asset (by rintro _ ⟨⟩)))
    cases result with
    | error status => exact h
    | ok w' => exact ih h

theorem wp_fetchVerified (hs : Inv cfg S s) :
    Always S (Fetched cfg S tag asset) (fetchVerified cfg tag asset) s := by
  have hstop : ∀ {s' : Run} (status : ℕ), status ≠ 0 → Inv cfg S s' →
      Fetched cfg S tag asset status s' := fun _ hne h => ⟨h, fun h0 => absurd h0 hne⟩
  simp only [fetchVerified, wp_bind]
  refine wp_stagePrivate hs fun yes s₁ hs₁ => ?_
  simp only [wp_ite, wp_bind, wp_pure]
  refine ⟨fun _ => ?_, fun _ => hstop 1 (by decide) hs₁⟩
  refine wp_mono (fun _ h => h) (fun found s₂ hs₂ => ?_) (wp_getSums hs₁)
  cases found with
  | none => exact hstop 1 (by decide) hs₂
  | some base =>
    simp only [wp_bind]
    refine wp_mono (fun _ h => h) (fun yes s₃ h => ?_)
      (wp_sumsTrusted hkey hinj base hs₂.sums fun htag => by rw [← htag]; exact hs₂.pinned)
    cases yes with
    | false => exact hstop 3 (by decide) h.inv
    | true =>
      simp only [if_true, wp_bind, wp_look, wp_ite, wp_pure, true_and]
      exact fun _ _ => ⟨fun _ => hstop 2 (by decide) h.inv,
        fun _ => wp_fetchAsset hkey hinj 3 h.fetching⟩

end

/-! ## Runs -/

/-- A state of one run: it starts with nothing judged, calls `fetch_verified` for any
files, and between the calls does anything to the staged files. -/
inductive Reachable (cfg : Config) (S : Set Text) : Run → Prop where
  | start {s : Run} : s.sumsOk = [] → s.sumsPin = [] → s.judged = [] →
      (∀ t ∈ s.files sumsFile, t ∈ S) → Reachable cfg S s
  | call {s s' : Run} {tag asset : Text} {es : List Reply} {status : ℕ} : Reachable cfg S s →
      (∀ e ∈ es, e.In S) → exec (fetchVerified cfg tag asset) es s = .done status s' →
      Reachable cfg S s'
  | other {s : Run} {files : Text → Option Text} : Reachable cfg S s →
      (∀ t ∈ files sumsFile, t ∈ S) → Reachable cfg S { s with files := files }

theorem Reachable.inv (hkey : cfg.keyState = .ok) (hinj : Set.InjOn cfg.sha S)
    (h : Reachable cfg S s) : Inv cfg S s := by
  induction h with
  | start _ hpin _ hS => exact ⟨hS, fun hne => absurd hpin hne⟩
  | call _ hes hrun ih => exact (exec_done_of_wp hes (wp_fetchVerified hkey hinj ih) hrun).inv
  | other _ hS ih => exact ⟨hS, ih.pinned⟩

/-- Status 0 of any call in any run: the staged file has the hash that checksums judged in
this run list for it, and they were signed and name the release, or the owner allowed
unsigned ones and they are not badly signed and name no other release. -/
theorem fetchVerified_zero_trusted (hkey : cfg.keyState = .ok) (hinj : Set.InjOn cfg.sha S)
    (hs : Reachable cfg S s) {es : List Reply} (hes : ∀ e ∈ es, e.In S)
    (hrun : exec (fetchVerified cfg tag asset) es s = .done 0 s') :
    ∃ t ∈ s'.files asset, ∃ j ∈ s'.judged, j.tag = tag ∧ want j.sums asset = cfg.sha t ∧
      ((sigState cfg j.sums j.sig = .valid ∧ releaseSha j.sums ≠ [] ∧ releaseSha j.sums =
        tagSha cfg tag) ∨ (cfg.allowUnsigned ∧ sigState cfg j.sums j.sig ≠ .bad ∧
          (releaseSha j.sums ≠ [] → releaseSha j.sums = tagSha cfg tag))) := by
  have hfetched := exec_done_of_wp hes (wp_fetchVerified hkey hinj (hs.inv hkey hinj)) hrun
  obtain ⟨t, ht, _, ⟨j, hj, rfl, rfl, htrusted⟩, hwant⟩ := hfetched.trusted rfl
  exact ⟨t, ht, j, hj, rfl, hwant, htrusted⟩

/-! ## A run -/

/-- A stand-in for SHA-256: the length, in 64 hex digits. -/
def lengthSha (t : Text) : Text :=
  let digits := Nat.toDigits 16 t.length
  replicate (64 - digits.length) '0' ++ digits

/-- A system with a key, and a signature check that always says yes. -/
def exampleConfig : Config :=
  ⟨"r", true, .auto, false, .ok, fun _ _ => .valid, lengthSha⟩

/-- Checksums of the release `v1` with one file, `f`. -/
def exampleSums : Text :=
  lengthSha "hello" ++ "  f\n" ++ lengthSha "v1\n" ++ "  mu300-release"

def exampleReply : Reply where
  get url := (0, if endsWith url ".sig" then "sig" else exampleSums)
  download _ := (0, some "hello")
  blocked := false
  stage := .kept

/-- A run that has done nothing, with an empty staging directory. -/
def exampleRun : Run := ⟨fun _ => none, [], [], [], false, false, [], [], [], []⟩

def exampleTexts : Set Text := {line exampleSums, "sig\n".toList, "hello".toList}

/-- `fetch_verified v1 f`. -/
def exampleFetch : Outcome Run ℕ :=
  exec (fetchVerified exampleConfig "v1" "f") (replicate 30 exampleReply) exampleRun

set_option maxRecDepth 100000 in
/-- The file arrives, and its hash is in checksums that were judged. -/
theorem fetchVerified_zero_trusted_sample :
    exampleFetch.result = some 0 ∧ ∃ t ∈ exampleFetch.state.files "f",
      ∃ j ∈ exampleFetch.state.judged, j.tag = "v1" ∧
        want j.sums "f" = lengthSha t := by
  have hzero : exampleFetch.result = some 0 := by decide +kernel
  have hinj : Set.InjOn exampleConfig.sha exampleTexts := by
    rintro x (rfl | rfl | rfl) y (rfl | rfl | rfl) h
    all_goals first | rfl | exact absurd h (by decide +kernel)
  have hreply : ∀ e ∈ replicate 30 exampleReply, e.In exampleTexts := by
    intro e he
    obtain rfl := eq_of_mem_replicate he
    refine ⟨fun url => ?_, fun url t ht => .inr (.inr (Option.some.inj ht).symm)⟩
    by_cases hsig : endsWith url ".sig"
    · exact .inr (.inl (by simp only [exampleReply, hsig, if_true]; decide))
    · exact .inl (by simp only [exampleReply, hsig]; decide +kernel)
  obtain ⟨t, ht, j, hj, htag, hwant, -⟩ := fetchVerified_zero_trusted rfl hinj
    (Reachable.start rfl rfl rfl (by simp [exampleRun])) hreply (Outcome.eq_done hzero)
  exact ⟨hzero, t, ht, j, hj, htag, hwant⟩

end Mu300.Update
