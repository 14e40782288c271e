import Mu300.BootChain.Script

/-!
# The boot chain is copied whole or not at all

The writes of `bc_sync` may leave anything and return anything; what it reads back
decides. `wp_copyAll` carries the argument: outside the images done so far nothing
changed, and those hold what Android's slot holds.

`bcSync_all_or_nothing` adds where the writes can go: no link but the Linux slot's five.
-/

namespace Mu300.BootChain

open Bytes Crash Crash.Prog Refuse List Option

/-! ## Links -/

theorem slotted_inj {p q : Name} {s t : Slot} (h : slotted p s = slotted q t) : p = q ∧ s = t := by
  have hlen : p.length = q.length := by
    have := congrArg length h
    simpa [slotted] using this
  obtain ⟨hp, hs⟩ := append_inj h hlen
  exact ⟨hp, Slot.char_inj (List.cons.inj (List.cons.inj hs).2).1⟩

/-- Two slotted links to one partition are the same name; its slots may still be two. -/
theorem ByName.part_eq (by_ : ByName) {p q : Name} {s t : Slot} {d : Dev}
    (hp : by_.link (slotted p s) = some d) (hq : by_.link (slotted q t) = some d) : p = q := by
  rcases by_.apart hp hq with h | ⟨r, ⟨hp', hq'⟩ | ⟨hp', hq'⟩⟩
  · exact (slotted_inj h).1
  · exact (slotted_inj hp').1.trans (slotted_inj hq').1.symm
  · exact (slotted_inj hp').1.trans (slotted_inj hq').1.symm

/-! ## What the checks establish -/

section Checks

variable {H : Type} [DecidableEq H] {sha : Buf → H} {by_ : ByName} {w : World} {bcA bcL : Slot}
  {caller : Caller}

structure Pair (by_ : ByName) (bcA bcL : Slot) (p : Name) (da dl : Dev) : Prop where
  android : by_.link (slotted p bcA) = some da
  linux : by_.link (slotted p bcL) = some dl
  ne : da ≠ dl

/-- An image on the list of those that differ, with the hashes of both partitions. -/
def Listed (sha : Buf → H) (by_ : ByName) (w : World) (bcA bcL : Slot) (d : Diff H) : Prop :=
  bcAllowed d.part ∧ ∃ da dl, Pair by_ bcA bcL d.part da dl ∧ d.ha = sha (w.content da) ∧
    d.hl = sha (w.content dl)

/-- The list and what was left off it. -/
structure Scanned (sha : Buf → H) (by_ : ByName) (w : World) (bcA bcL : Slot) (ps : List Name)
    (ds : List (Diff H)) : Prop where
  listed : ∀ d ∈ ds, d.part ∈ ps ∧ Listed sha by_ w bcA bcL d
  pair : ∀ p ∈ ps, ∃ da dl, Pair by_ bcA bcL p da dl ∧
    (p ∉ ds.map Diff.part → sha (w.content da) = sha (w.content dl))

theorem scanPart_eq_ok {p : Name} {r : Option (Diff H)} (h : scanPart sha by_ w bcA bcL p = .ok r) :
    ∃ da dl, Pair by_ bcA bcL p da dl ∧ ((r = none ∧ sha (w.content da) = sha (w.content dl)) ∨
        ∃ d, r = some d ∧ d.part = p ∧ Listed sha by_ w bcA bcL d) := by
  rw [scanPart, bind_eq_ok] at h
  obtain ⟨_, hallowed, h⟩ := h
  rw [refuse_eq_ok, not_not] at hallowed
  cases hA : by_.link (slotted p bcA) with
  | none =>
    rw [hA] at h
    cases h
  | some da =>
    cases hL : by_.link (slotted p bcL) with
    | none =>
      rw [hA, hL] at h
      cases h
    | some dl =>
      simp only [hA, hL, bcSha, map_some, bind_eq_ok, refuse_eq_ok, exists_const] at h
      obtain ⟨hne, -, h⟩ := h
      have hpair : Pair by_ bcA bcL p da dl := ⟨hA, hL, hne⟩
      refine ⟨da, dl, hpair, ?_⟩
      by_cases hsha : sha (w.content da) = sha (w.content dl)
      · rw [if_pos hsha] at h
        exact .inl ⟨(Except.ok.inj h).symm, hsha⟩
      · rw [if_neg hsha] at h
        exact .inr ⟨_, (Except.ok.inj h).symm, rfl, hallowed, da, dl, hpair, rfl, rfl⟩

theorem bcScan_eq_ok : ∀ {ps : List Name} {ds : List (Diff H)},
    bcScan sha by_ w bcA bcL ps = .ok ds → Scanned sha by_ w bcA bcL ps ds
  | [], ds, h => by
    obtain rfl : [] = ds := Except.ok.inj h
    exact ⟨nofun, nofun⟩
  | p :: ps, ds, h => by
    rw [bcScan, bind_eq_ok] at h
    obtain ⟨r, hr, h⟩ := h
    rw [bind_eq_ok] at h
    obtain ⟨ds', hds', h⟩ := h
    obtain rfl : r.toList ++ ds' = ds := Except.ok.inj h
    have ih := bcScan_eq_ok hds'
    obtain ⟨da, dl, hpair, hr⟩ := scanPart_eq_ok hr
    refine ⟨?_, ?_⟩
    · intro d hd
      rcases mem_append.1 hd with hd | hd
      · rcases hr with ⟨rfl, -⟩ | ⟨d', rfl, hpart, hlisted⟩
        · cases hd
        · obtain rfl := mem_singleton.1 hd
          exact ⟨hpart ▸ mem_cons_self, hlisted⟩
      · exact ⟨mem_cons_of_mem p (ih.listed d hd).1, (ih.listed d hd).2⟩
    · intro q hq
      rcases mem_cons.1 hq with rfl | hq
      · refine ⟨da, dl, hpair, fun hnot => ?_⟩
        rcases hr with ⟨-, hsha⟩ | ⟨d', rfl, hpart, -⟩
        · exact hsha
        · exact absurd (mem_map.2 ⟨d', mem_cons_self, hpart⟩) hnot
      · obtain ⟨da', dl', hpair', hsame⟩ := ih.pair q hq
        refine ⟨da', dl', hpair', fun hnot => hsame fun hmem => hnot ?_⟩
        rw [map_append]
        exact mem_append_right _ hmem

/-- The slot Android runs from, and the other one. -/
def Caller.slots (caller : Caller) : Option (Slot × Slot) :=
  caller.props.bind fun props => BootChain.slots props.slotSuffix

theorem slots_ne {suffix : List Char} {s t : Slot} (h : slots suffix = some (s, t)) : t ≠ s := by
  rw [slots] at h
  split_ifs at h <;> cases h <;> decide

theorem bcSetup_eq_ok (h : bcSetup by_ w caller = .ok (bcA, bcL)) :
    caller.slots = some (bcA, bcL) := by
  rw [bcSetup, bind_eq_ok] at h
  obtain ⟨-, -, h⟩ := h
  cases hprops : caller.props with
  | none =>
    rw [hprops] at h
    cases h
  | some props =>
    simp only [hprops, bind_eq_ok] at h
    obtain ⟨-, -, h⟩ := h
    cases hslots : slots props.slotSuffix with
    | none =>
      rw [hslots] at h
      cases h
    | some st =>
      simp only [hslots, bind_eq_ok, refuse_eq_ok, exists_const] at h
      obtain ⟨-, -, -, -, -, h⟩ := h
      cases h
      rw [Caller.slots, hprops, bind_some, hslots]

theorem plan_eq_ok {ds : List (Diff H)} (h : plan sha by_ caller w = .ok (bcA, bcL, ds)) :
    caller.slots = some (bcA, bcL) ∧ bcL ≠ bcA ∧ Scanned sha by_ w bcA bcL bootchainParts ds := by
  rw [plan, bind_eq_ok] at h
  obtain ⟨⟨s, t⟩, hsetup, h⟩ := h
  rw [bind_eq_ok] at h
  obtain ⟨ds', hscan, h⟩ := h
  cases h
  have hslots := bcSetup_eq_ok hsetup
  refine ⟨hslots, ?_, bcScan_eq_ok hscan⟩
  rw [Caller.slots, bind_eq_some_iff] at hslots
  obtain ⟨props, -, hslots⟩ := hslots
  exact slots_ne hslots

end Checks

/-! ## Where the writes go -/

section Writes

variable {H : Type} [DecidableEq H] {sha : Buf → H} {by_ : ByName} {bcA bcL : Slot}
  {T : Set Dev} {w₀ : World}

/-- The Linux slot's partitions of a list of images. -/
def targets (by_ : ByName) (bcL : Slot) (ds : List (Diff H)) : Set Dev :=
  { d | ∃ e ∈ ds, by_.link (slotted e.part bcL) = some d }

omit [DecidableEq H] in
theorem targets_mono {ds es : List (Diff H)} (h : ds ⊆ es) :
    targets by_ bcL ds ⊆ targets by_ bcL es := by
  rintro d ⟨e, he, hlink⟩
  exact ⟨e, h he, hlink⟩

/-- Only partitions of `T` were written since `w₀`, and only they may have changed. -/
structure Frame (T : Set Dev) (w₀ w : World) : Prop where
  written : ∀ d ∈ w.written, d ∈ w₀.written ∨ d ∈ T
  content : ∀ d, d ∉ T → w.content d = w₀.content d

theorem Frame.refl (T : Set Dev) (w : World) : Frame T w w := ⟨fun _ h => .inl h, fun _ _ => rfl⟩

theorem Frame.put {w : World} (h : Frame T w₀ w) {d : Dev} (hd : d ∈ T) (x : Buf) :
    Frame T w₀ (w.put d x) := by
  refine ⟨?_, ?_⟩
  · intro d' hd'
    rcases mem_append.1 hd' with hd' | hd'
    · exact h.written d' hd'
    · obtain rfl := mem_singleton.1 hd'
      exact .inr hd
  · intro d' hd'
    have hne : d' ≠ d := fun he => hd' (he ▸ hd)
    rw [w.put_content_of_ne x hne]
    exact h.content d' hd'

theorem Frame.files {w : World} (h : Frame T w₀ w) (files : Name → Option Buf) :
    Frame T w₀ { w with files } := ⟨h.written, h.content⟩

variable {A : Answer → Prop} {C : World → Prop} {w : World} {Q : Bool → World → Prop}

theorem wp_call (hC : C w) (h : ∀ b, Q b w) : wp A C Q call w :=
  ⟨hC, fun e _ => h e.ok⟩

/-- One image put and read back: the partition may hold anything now, and holds an image
of the right hash when the call says so. -/
theorem wp_putVerified {p image : Name} {h : H} {da dl : Dev}
    (hne : bcL ≠ bcA) (hallowed : bcAllowed p) (hpair : Pair by_ bcA bcL p da dl) (hC : C w)
    (hCput : ∀ x, C (w.put dl x)) (hnone : Q false w) (hfalse : ∀ x, Q false (w.put dl x))
    (htrue : ∀ x, sha x = h → Q true (w.put dl x)) :
    wp A C Q (putVerified sha by_ bcA bcL p image h) w := by
  have hlinks : by_.link (slotted p bcL) ≠ by_.link (slotted p bcA) := by
    rw [hpair.linux, hpair.android]
    exact fun he => hpair.ne (some.inj he).symm
  have hguard : ¬ (¬ bcAllowed p ∨ bcL = bcA ∨
      by_.link (slotted p bcL) = by_.link (slotted p bcA)) := by
    rw [not_or, not_or, not_not]
    exact ⟨hallowed, hne, hlinks⟩
  rw [putVerified, wp_bind, bcPut, if_neg hguard]
  simp only [hpair.linux]
  rw [wp_op]
  refine ⟨hC, fun e _ => ?_⟩
  cases hfile : w.files image with
  | none =>
    rw [isSome_none, Bool.and_false]
    exact hnone
  | some img =>
    rw [isSome_some, Bool.and_true]
    cases e.ok with
    | false => exact hfalse _
    | true =>
      simp only [if_true, wp_look]
      refine ⟨hCput _, fun _ _ => ?_⟩
      have hsha : bcSha sha by_ (w.put dl (e.left.getD img)) (slotted p bcL) =
          some (sha (e.left.getD img)) := by
        rw [bcSha, hpair.linux, map_some, w.put_content_self]
      rw [hsha]
      by_cases hok : some (sha (e.left.getD img)) = some h
      · rw [decide_eq_true hok]
        exact htrue _ (some.inj hok)
      · rw [decide_eq_false hok]
        exact hfalse _

theorem wp_backupAll : ∀ {ds : List (Diff H)} {w : World}
    {Q : Option Refusal → World → Prop}, Frame T w₀ w → w.content = w₀.content →
    (∀ r w', Frame T w₀ w' → w'.content = w₀.content → Q r w') →
    wp A (Frame T w₀) Q (backupAll sha by_ bcA bcL ds) w
  | [], w, Q, hw, hsame, hQ => hQ none w hw hsame
  | d :: ds, w, Q, hw, hsame, hQ => by
    have hone : ∀ {Q' : Bool → World → Prop} {p : Name} {s : Slot} {h : H} {w : World},
        Frame T w₀ w → w.content = w₀.content →
        (∀ b w', Frame T w₀ w' → w'.content = w₀.content → Q' b w') →
        wp A (Frame T w₀) Q' (backupOne sha by_ p s h) w := by
      intro Q' p s h w hw hsame hQ'
      refine wp_step hw fun e _ => ?_
      exact ⟨hw.files _, fun _ _ => hQ' _ _ (hw.files _) hsame⟩
    rw [backupAll, wp_bind]
    refine hone hw hsame fun b w hw hsame => ?_
    cases b with
    | false => exact hQ _ w hw hsame
    | true =>
      simp only [if_true, wp_bind]
      refine hone hw hsame fun b w hw hsame => ?_
      cases b with
      | false => exact hQ _ w hw hsame
      | true => exact wp_backupAll hw hsame hQ

end Writes

/-! ## What the copy owes -/

section Copied

variable {H : Type} {by_ : ByName} {bcA bcL : Slot} {w₀ : World}

/-- The images of a list hold what Android's slot held at the start, and nothing outside
their partitions changed. -/
structure Copied (by_ : ByName) (bcA bcL : Slot) (w₀ : World) (ds : List (Diff H)) (w : World) :
    Prop where
  same : ∀ d ∈ ds, ∀ da dl, Pair by_ bcA bcL d.part da dl → w.content dl = w₀.content da
  rest : ∀ d, d ∉ targets by_ bcL ds → w.content d = w₀.content d

/-- What the copy loop owes at its end. -/
structure CopyEnd (by_ : ByName) (bcA bcL : Slot) (T : Set Dev) (w₀ : World) (ds : List (Diff H))
    (ret : Ret) (w : World) : Prop where
  frame : Frame T w₀ w
  copied : ret.code = 0 → Copied by_ bcA bcL w₀ ds w
  restored : ret.code = 1 → w.content = w₀.content

theorem Copied.put {done : List (Diff H)} {w : World} (h : Copied by_ bcA bcL w₀ done w)
    {d : Diff H} {da dl : Dev} (hpair : Pair by_ bcA bcL d.part da dl) {x : Buf}
    (hx : x = w₀.content da) : Copied by_ bcA bcL w₀ (done ++ [d]) (w.put dl x) := by
  refine ⟨?_, ?_⟩
  · intro e he da' dl' hpair'
    by_cases hdl : dl' = dl
    · -- one partition has one name, so this is the image just put
      have hpart := by_.part_eq hpair'.linux (hdl ▸ hpair.linux)
      have hda : da' = da := by
        have := hpair'.android
        rw [hpart, hpair.android] at this
        exact (some.inj this).symm
      rw [hdl, w.put_content_self, hx, hda]
    · rw [w.put_content_of_ne x hdl]
      rcases mem_append.1 he with he | he
      · exact h.same e he da' dl' hpair'
      · obtain rfl := mem_singleton.1 he
        exact absurd (some.inj (hpair'.linux.symm.trans hpair.linux)) hdl
  · intro d' hd'
    have hne : d' ≠ dl := fun he =>
      hd' ⟨d, mem_append_right done mem_cons_self, he ▸ hpair.linux⟩
    rw [w.put_content_of_ne x hne]
    exact h.rest d' fun hmem => hd' (targets_mono (subset_append_left done [d]) hmem)

end Copied

/-! ## The loops -/

section Loops

variable {H : Type} [DecidableEq H] {sha : Buf → H} {by_ : ByName} {bcA bcL : Slot}
  {A : Answer → Prop} {T : Set Dev} {w₀ : World} (hsha : Function.Injective sha) (hne : bcL ≠ bcA)
include hsha hne

/-- The restore loop touches the images of its list only, and with none left bad each of
them holds what it held at the start. -/
theorem wp_restore : ∀ {qs : List (Diff H)} {w : World},
    (∀ q ∈ qs, Listed sha by_ w₀ bcA bcL q) → targets by_ bcL qs ⊆ T → Frame T w₀ w →
    wp A (Frame T w₀)
      (fun bad w' => Frame T w₀ w' ∧ (∀ d, d ∉ targets by_ bcL qs → w'.content d = w.content d) ∧
        (bad = [] → ∀ d ∈ targets by_ bcL qs, w'.content d = w₀.content d))
      (restore sha by_ bcA bcL qs) w
  | [], w, _, _, hw => by
    refine ⟨hw, fun _ _ => rfl, fun _ d hd => ?_⟩
    obtain ⟨e, he, -⟩ := hd
    cases he
  | q :: qs, w, hlisted, hT, hw => by
    obtain ⟨hallowed, da, dl, hpair, -, hhl⟩ := hlisted q mem_cons_self
    have hdl : dl ∈ targets by_ bcL (q :: qs) := ⟨q, mem_cons_self, hpair.linux⟩
    have hsub : targets by_ bcL qs ⊆ targets by_ bcL (q :: qs) :=
        targets_mono (subset_cons_self q qs)
    have hcase : ∀ d ∈ targets by_ bcL (q :: qs), d = dl ∨ d ∈ targets by_ bcL qs := by
      intro d hd
      obtain ⟨e, he, hlink⟩ := hd
      rcases mem_cons.1 he with rfl | he
      · exact .inl (some.inj (hlink.symm.trans hpair.linux))
      · exact .inr ⟨e, he, hlink⟩
    have ih : ∀ w, Frame T w₀ w → _ := fun w hw =>
      wp_restore (fun e he => hlisted e (mem_cons_of_mem q he)) (hsub.trans hT) hw
    -- the rest of the loop, from the world the write of `q` left
    have hrest : ∀ (ok : Bool) w₁, Frame T w₀ w₁ → (∀ d, d ≠ dl → w₁.content d = w.content d) →
        (ok → w₁.content dl = w₀.content dl) →
        wp A (Frame T w₀)
          (fun bad w' => Frame T w₀ w' ∧
            (∀ d, d ∉ targets by_ bcL (q :: qs) → w'.content d = w.content d) ∧
            (bad = [] → ∀ d ∈ targets by_ bcL (q :: qs), w'.content d = w₀.content d))
          (do
            let bad ← restore sha by_ bcA bcL qs
            return if ok then bad else q.part :: bad) w₁ := by
      intro ok w₁ hw₁ hother hok
      refine wp_seq (ih w₁ hw₁) fun bad w' hbad => ?_
      obtain ⟨hw', hout, hin⟩ := hbad
      refine ⟨hw', ?_, ?_⟩
      · intro d hd
        have hd' : d ≠ dl := fun he => hd (he ▸ hdl)
        rw [hout d fun hmem => hd (hsub hmem), hother d hd']
      · intro hnil d hd
        cases ok with
        | false => cases hnil
        | true =>
          by_cases hmem : d ∈ targets by_ bcL qs
          · exact hin hnil d hmem
          · obtain rfl := (hcase d hd).resolve_right hmem
            rw [hout d hmem, hok rfl]
    rw [restore, wp_bind]
    refine wp_putVerified hne hallowed hpair hw (fun x => hw.put (hT hdl) x) ?_ ?_ ?_
    · exact hrest false w hw (fun _ _ => rfl) nofun
    · intro x
      exact hrest false _ (hw.put (hT hdl) x) (fun d hd => w.put_content_of_ne x hd) nofun
    · intro x hx
      refine hrest true _ (hw.put (hT hdl) x) (fun d hd => w.put_content_of_ne x hd) fun _ => ?_
      rw [w.put_content_self]
      exact hsha (hx.trans hhl)

theorem wp_back {done ds : List (Diff H)} {d : Diff H} {da dl : Dev} {w w₁ : World}
    (hlisted : ∀ q ∈ done ++ [d], Listed sha by_ w₀ bcA bcL q)
    (hT : targets by_ bcL (done ++ [d]) ⊆ T) (hpair : Pair by_ bcA bcL d.part da dl)
    (hdone : Copied by_ bcA bcL w₀ done w) (hw₁ : Frame T w₀ w₁)
    (hother : ∀ d', d' ≠ dl → w₁.content d' = w.content d') :
    wp A (Frame T w₀) (CopyEnd by_ bcA bcL T w₀ ds)
      (do
        match ← restore sha by_ bcA bcL (done ++ [d]) with
        | [] => return .restored d.part
        | bad => return .unrestored d.part bad) w₁ := by
  refine wp_seq (wp_restore hsha hne hlisted hT hw₁) fun bad w' hbad => ?_
  obtain ⟨hw', hout, hin⟩ := hbad
  cases bad with
  | cons b bs => exact ⟨hw', by rintro ⟨⟩, by rintro ⟨⟩⟩
  | nil =>
    refine ⟨hw', by rintro ⟨⟩, fun _ => funext fun d' => ?_⟩
    by_cases hd' : d' ∈ targets by_ bcL (done ++ [d])
    · exact hin rfl d' hd'
    · have hne' : d' ≠ dl := fun he =>
        hd' ⟨d, mem_append_right done mem_cons_self, he ▸ hpair.linux⟩
      rw [hout d' hd', hother d' hne']
      exact hdone.rest d' fun hmem => hd' (targets_mono (subset_append_left done [d]) hmem)

theorem wp_copyAll {names : List Name} : ∀ {ds done : List (Diff H)} {w : World},
    (∀ d ∈ done ++ ds, Listed sha by_ w₀ bcA bcL d) → targets by_ bcL (done ++ ds) ⊆ T →
    Frame T w₀ w → Copied by_ bcA bcL w₀ done w →
    wp A (Frame T w₀) (CopyEnd by_ bcA bcL T w₀ (done ++ ds))
      (copyAll sha by_ bcA bcL names done ds) w
  | [], done, w, _, _, hw, hdone => by
    rw [append_nil]
    exact ⟨hw, fun _ => hdone, by rintro ⟨⟩⟩
  | d :: ds, done, w, hlisted, hT, hw, hdone => by
    have hmem : d ∈ done ++ d :: ds := mem_append_right done mem_cons_self
    obtain ⟨hallowed, da, dl, hpair, hha, -⟩ := hlisted d hmem
    have hdl : dl ∈ T := hT ⟨d, hmem, hpair.linux⟩
    rw [append_cons] at hlisted hT ⊢
    have hsub : targets by_ bcL (done ++ [d]) ⊆ T :=
      (targets_mono (subset_append_left _ ds)).trans hT
    have hlist' : ∀ q ∈ done ++ [d],
        Listed sha by_ w₀ bcA bcL q := fun q hq => hlisted q (mem_append_left _ hq)
    rw [copyAll, wp_bind]
    refine wp_putVerified hne hallowed hpair hw (fun x => hw.put hdl x) ?_ ?_ ?_
    · exact wp_back hsha hne hlist' hsub hpair hdone hw fun _ _ => rfl
    · intro x
      exact wp_back hsha hne hlist' hsub hpair hdone (hw.put hdl x) fun d' hd' =>
        w.put_content_of_ne x hd'
    · intro x hx
      have hput := hdone.put hpair (hsha (hx.trans hha))
      exact wp_copyAll hlisted hT (hw.put hdl x) hput

end Loops

/-! ## The whole command -/

section Sync

variable {H : Type} [DecidableEq H] {sha : Buf → H} {by_ : ByName} {caller : Caller} {w₀ : World}

/-- The partitions that may be written, given what the checks found. -/
def writable (sha : Buf → H) (by_ : ByName) (caller : Caller) (w₀ : World) : Set Dev :=
  { d | ∃ bcA bcL ds, plan sha by_ caller w₀ = .ok (bcA, bcL, ds) ∧ d ∈ targets by_ bcL ds }

theorem not_mem_writable {n : Name} {d : Dev} (hn : by_.link n = some d)
    (hother : ∀ bcA bcL, caller.slots = some (bcA, bcL) → ∀ p ∈ bootchainParts, n ≠ slotted p bcL) :
    d ∉ writable sha by_ caller w₀ := by
  rintro ⟨bcA, bcL, ds, hplan, e, he, hlink⟩
  obtain ⟨hslots, hne, hscan⟩ := plan_eq_ok hplan
  obtain ⟨hpart, -, da, dl, hpair, -⟩ := hscan.listed e he
  obtain rfl : dl = d := some.inj (hpair.linux.symm.trans hlink)
  -- the other slot's link of the same name is another partition: the scan looked
  have hslot : ∀ s, s ≠ bcL → s = bcA := by
    intro s hs
    cases s <;> cases bcL <;> cases bcA <;> first | rfl | exact absurd rfl hs | exact absurd rfl hne
  have hpairs : ∀ s t, n = slotted e.part s → slotted e.part bcL = slotted e.part t →
      s ≠ t → False := by
    intro s t hs ht hst
    rw [(slotted_inj ht).2] at hslot
    rw [hs, hslot s hst, hpair.android] at hn
    exact hpair.ne (some.inj hn)
  rcases by_.apart hn hlink with h | ⟨r, ⟨hr, hr'⟩ | ⟨hr, hr'⟩⟩
  · exact hother bcA bcL hslots e.part hpart h
  · obtain rfl := (slotted_inj hr').1
    exact hpairs .a .b hr hr' (by decide)
  · obtain rfl := (slotted_inj hr').1
    exact hpairs .b .a hr hr' (by decide)

/-- What the command owes when it returns. -/
structure SyncEnd (by_ : ByName) (caller : Caller) (w₀ : World) (ret : Ret) (w : World) : Prop where
  copied : ret.code = 0 → ∃ bcA bcL, caller.slots = some (bcA, bcL) ∧
    ∀ p ∈ bootchainParts, ∃ da dl, by_.link (slotted p bcA) = some da ∧
      by_.link (slotted p bcL) = some dl ∧ w.content dl = w.content da
  restored : ret.code = 1 → w.content = w₀.content

/-- A complete copy makes the pairs equal, the ones that were not on the list included. -/
theorem Copied.syncEnd {bcA bcL : Slot} {ds : List (Diff H)} {w : World}
    (hsha : Function.Injective sha) (hplan : plan sha by_ caller w₀ = .ok (bcA, bcL, ds))
    (h : Copied by_ bcA bcL w₀ ds w) {p : Name} (hp : p ∈ bootchainParts) :
    ∃ da dl, by_.link (slotted p bcA) = some da ∧ by_.link (slotted p bcL) = some dl ∧
      w.content dl = w.content da := by
  obtain ⟨-, hne, hscan⟩ := plan_eq_ok hplan
  obtain ⟨da, dl, hpair, hsame⟩ := hscan.pair p hp
  refine ⟨da, dl, hpair.android, hpair.linux, ?_⟩
  -- Android's partition is none of the targets
  have hda : w.content da = w₀.content da := by
    refine h.rest da ?_
    rintro ⟨e, he, hlink⟩
    have hpart := by_.part_eq hpair.android hlink
    rw [← hpart, hpair.linux] at hlink
    exact hpair.ne (some.inj hlink).symm
  rw [hda]
  by_cases hmem : p ∈ ds.map Diff.part
  · obtain ⟨d, hd, rfl⟩ := mem_map.1 hmem
    exact h.same d hd da dl hpair
  · rw [hsha (hsame hmem)]
    refine h.rest dl ?_
    rintro ⟨e, he, hlink⟩
    exact hmem (mem_map.2 ⟨e, he, by_.part_eq hlink hpair.linux⟩)

theorem wp_bcSync {A : Answer → Prop} (hsha : Function.Injective sha) :
    wp A (Frame (writable sha by_ caller w₀) w₀)
      (fun ret w => Frame (writable sha by_ caller w₀) w₀ w ∧ SyncEnd by_ caller w₀ ret w)
      (bcSync sha by_ caller) w₀ := by
  have hstart := Frame.refl (writable sha by_ caller w₀) w₀
  -- the refusals: nothing has been written
  have hrefused : ∀ r w, Frame (writable sha by_ caller w₀) w₀ w → w.content = w₀.content →
      Frame (writable sha by_ caller w₀) w₀ w ∧ SyncEnd by_ caller w₀ (.refused r) w :=
    fun r w hw hsame => ⟨hw, nofun, fun _ => hsame⟩
  refine wp_step hstart fun _ _ => ?_
  cases hplan : plan sha by_ caller w₀ with
  | error r => exact hrefused r w₀ hstart rfl
  | ok found =>
    obtain ⟨bcA, bcL, ds⟩ := found
    obtain ⟨hslots, hne, hscan⟩ := plan_eq_ok hplan
    have hend : ∀ {w}, Copied by_ bcA bcL w₀ ds w → ∀ p ∈ bootchainParts, _ := fun h p hp =>
      h.syncEnd hsha hplan hp
    cases ds with
    | nil =>
      refine ⟨hstart, fun _ => ⟨bcA, bcL, hslots, hend ⟨nofun, fun _ _ => rfl⟩⟩, nofun⟩
    | cons d ds =>
      have hT : targets by_ bcL ([] ++ d :: ds) ⊆ writable sha by_ caller w₀ := fun x hx =>
        ⟨bcA, bcL, d :: ds, hplan, hx⟩
      simp only [copyChain, wp_bind]
      refine wp_call hstart fun made => ?_
      cases made with
      | false => exact hrefused _ w₀ hstart rfl
      | true =>
        simp only [if_true, wp_bind]
        refine wp_call hstart fun sums => ?_
        cases sums with
        | false => exact hrefused _ w₀ hstart rfl
        | true =>
          simp only [if_true, wp_bind]
          refine wp_backupAll hstart rfl fun r w hw hsame => ?_
          cases r with
          | some r => exact hrefused r w hw hsame
          | none =>
            refine wp_step hw fun e _ => ?_
            refine wp_if (fun _ => ?_) fun _ => hrefused _ w hw hsame
            have hnone : Copied by_ bcA bcL w₀ ([] : List (Diff H)) w :=
              ⟨nofun, fun x _ => congrFun hsame x⟩
            refine wp_mono (fun _ h => h) (fun ret w' hret => ?_)
              (wp_copyAll hsha hne (fun x hx => (hscan.listed x hx).2) hT hw hnone)
            exact ⟨hret.frame, fun hcode => ⟨bcA, bcL, hslots, hend (hret.copied hcode)⟩,
              hret.restored⟩

/-- **The copy is all or nothing.** Whatever the writes leave and return, and wherever the
command is cut off: a partition whose link is not one of the Linux slot's five is neither
written nor changed. When the command returns 0 the Linux slot's five are Android's, and
when it returns 1 every partition holds what it held before. -/
theorem bcSync_all_or_nothing (hsha : Function.Injective sha) (by_ : ByName) (caller : Caller)
    (answers : List Answer) (w₀ : World) {o : Outcome World Ret}
    (ho : exec (bcSync sha by_ caller) answers w₀ = o) : (∀ n d, by_.link n = some d →
      (∀ bcA bcL, caller.slots = some (bcA, bcL) → ∀ p ∈ bootchainParts, n ≠ slotted p bcL) →
      o.state.content d = w₀.content d ∧ (d ∈ o.state.written → d ∈ w₀.written)) ∧
    ∀ ret, o.result = some ret → (ret.code = 0 → ∃ bcA bcL, caller.slots = some (bcA, bcL) ∧
        ∀ p ∈ bootchainParts, ∃ da dl, by_.link (slotted p bcA) = some da ∧
          by_.link (slotted p bcL) = some dl ∧ o.state.content dl = o.state.content da) ∧
      (ret.code = 1 → o.state.content = w₀.content) := by
  have hwp : wp (fun _ : Answer => True) _ _ (bcSync sha by_ caller) w₀ := wp_bcSync hsha
  have hframe : Frame (writable sha by_ caller w₀) w₀ o.state := by
    rw [← ho]
    exact exec_state_of_wp (fun _ _ => trivial)
      (wp_mono (fun _ h => h) (fun _ _ h => h.1) hwp)
  refine ⟨?_, ?_⟩
  · intro n d hn hother
    have hd : d ∉ writable sha by_ caller w₀ := not_mem_writable hn hother
    exact ⟨hframe.content d hd, fun hmem => (hframe.written d hmem).resolve_right hd⟩
  · intro ret hret
    rw [Outcome.eq_done hret] at ho
    obtain ⟨-, hend⟩ := exec_done_of_wp (fun _ _ => trivial) hwp ho
    exact ⟨hend.copied, hend.restored⟩

end Sync

def sampleNames : List Name :=
  ["misc".toList, "boot_a".toList, "boot_b".toList] ++
    bootchainParts.flatMap fun p => [slotted p .a, slotted p .b]

/-- Each link is a partition of its own. -/
def sampleByName : ByName where
  link n := sampleNames.idxOf? n
  apart := by
    intro n m d hn hm
    have hget : ∀ {k : Name}, sampleNames.idxOf? k = some d → sampleNames[d]? = some k := by
      intro k hk
      rw [idxOf?, findIdx?_eq_some_iff_getElem] at hk
      obtain ⟨hlt, heq, -⟩ := hk
      rw [List.getElem?_eq_getElem hlt, eq_of_beq heq]
    exact .inl (some.inj ((hget hn).symm.trans (hget hm)))

/-- Android on slot a, booted and marked good; `uboot` differs between the slots. -/
def sampleWorld : World where
  content d := if d = 0 then
      replicate 2052 0 ++ [0x42, 0x43, 0x41, 0x42, 0, 0, 0, 0, 0x8f, 0, 0x0e] ++ replicate 17 0
    else if d = 4 then [2] else [1]
  files _ := none
  written := []

def sampleCaller : Caller where
  skipRootCheck := false
  root := true
  props := some {
    model := "F50".toList
    device := "MU300".toList
    platform := "ums9620".toList
    slotSuffix := "_a".toList }

def sampleAnswer : Answer where
  ok := true
  left := none
  slotSuffix := "_a".toList

set_option maxRecDepth 100000 in
/-- The one image that differs is copied. -/
theorem bcSync_all_or_nothing_sample :
    (exec (bcSync id sampleByName sampleCaller) (replicate 10 sampleAnswer)
        sampleWorld).result = some (.copied ["uboot".toList]) ∧
      ∃ bcA bcL, sampleCaller.slots = some (bcA, bcL) ∧
        ∀ p ∈ bootchainParts, ∃ da dl, sampleByName.link (slotted p bcA) = some da ∧
          sampleByName.link (slotted p bcL) = some dl ∧
          (exec (bcSync id sampleByName sampleCaller) (replicate 10 sampleAnswer)
              sampleWorld).state.content dl =
            (exec (bcSync id sampleByName sampleCaller) (replicate 10 sampleAnswer)
              sampleWorld).state.content da := by
  have hret : (exec (bcSync id sampleByName sampleCaller) (replicate 10 sampleAnswer)
      sampleWorld).result = some (.copied ["uboot".toList]) := by decide +kernel
  obtain ⟨-, hend⟩ := bcSync_all_or_nothing Function.injective_id sampleByName
    sampleCaller (replicate 10 sampleAnswer) sampleWorld rfl
  exact ⟨hret, (hend _ hret).1 rfl⟩

end Mu300.BootChain
