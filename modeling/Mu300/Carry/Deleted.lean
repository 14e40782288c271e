import Mu300.Carry.Kept

/-!
# What the user deleted

With a manifest, what the image had and the old system has not is removed from the new system, or
named in the report. Where directories were deleted with it, the topmost of them is what the plan
looks at.
-/

namespace Mu300.Carry

open Shell FileTree List Option

/-! ## Paths below one another -/

theorem below_iff {d p : Text} : below d p ↔ d ∈ above p := by
  rw [below, isPrefixOf_iff_prefix, mem_above_iff]
  constructor
  · rintro ⟨r, rfl⟩
    exact ⟨r, by simp⟩
  · rintro ⟨r, rfl⟩
    exact ⟨r, by simp⟩

section Above

variable {dirs : List String} {kind : OsKind} {q p : Text} (hq : q ∈ above p)

include hq

theorem under_of_above (h : under q dirs) : under p dirs := by
  obtain ⟨d, hd, hbelow⟩ := any_eq_true.1 h
  exact any_eq_true.2 ⟨d, hd, below_iff.2 (above_trans (below_iff.1 hbelow) hq)⟩

theorem within_of_above (h : within q dirs) : within p dirs := by
  obtain ⟨d, hd, hor⟩ := any_eq_true.1 h
  refine any_eq_true.2 ⟨d, hd, ?_⟩
  rw [Bool.or_eq_true, decide_eq_true_eq] at hor ⊢
  rcases hor with rfl | hbelow
  · exact .inr (below_iff.2 hq)
  · exact .inr (below_iff.2 (above_trans (below_iff.1 hbelow) hq))

theorem pycache_of_above (h : pycache q) : pycache p := by
  obtain ⟨r, rfl⟩ := mem_above_iff.1 hq
  have hsplit : (q ++ '/' :: r).splitOn '/' = q.splitOn '/' ++ r.splitOn '/' :=
    splitOnP_append_cons q r (beq_self_eq_true '/')
  rw [pycache] at h ⊢
  rw [hsplit]
  rcases hparts : q.splitOn '/' with _ | ⟨top, _ | ⟨second, rest⟩⟩
  · rw [hparts] at h
    cases h
  · rw [hparts] at h
    cases h
  · rw [hparts] at h
    rw [Bool.and_eq_true, decide_eq_true_eq, decide_eq_true_eq] at h
    change (decide (top = "usr".toList) && decide ("__pycache__".toList ∈ rest ++ r.splitOn '/'))
    rw [Bool.and_eq_true, decide_eq_true_eq, decide_eq_true_eq]
    exact ⟨h.1, mem_append_left _ h.2⟩

theorem under_local_of_pycache (h : pycache q) (hp : under p ["usr/local"]) :
    under q ["usr/local"] := by
  have hshort : (range 11).all (fun k => !pycache ("usr/local/".toList.take k) ||
      under ("usr/local/".toList.take k) ["usr/local"]) := by decide +kernel
  obtain ⟨r, rfl⟩ := mem_above_iff.1 hq
  have hbelow : "usr/local/" <+: q ++ '/' :: r := by
    rw [under, any_cons, any_nil, Bool.or_false] at hp
    exact isPrefixOf_iff_prefix.1 hp
  rcases Nat.lt_or_ge q.length 11 with hlen | hlen
  · have hq : q = "usr/local/".toList.take q.length := by
      have hpre := prefix_of_prefix_length_le (prefix_append q ('/' :: r)) hbelow (by
        change q.length ≤ 10
        omega)
      exact (prefix_iff_eq_take.1 hpre)
    have := all_eq_true.1 hshort q.length (mem_range.2 hlen)
    rw [← hq, h] at this
    simpa using this
  · rw [under, any_cons, any_nil, Bool.or_false]
    refine isPrefixOf_iff_prefix.2
      (prefix_of_prefix_length_le hbelow (prefix_append q ('/' :: r)) ?_)
    change 10 ≤ q.length
    omega

theorem never_of_above (h : never kind q) : never kind p := by
  rw [never, Bool.or_eq_true, Bool.or_eq_true, Bool.or_eq_true] at h ⊢
  rcases h with ((h | h) | h) | h
  · exact .inl (.inl (.inl (under_of_above hq h)))
  · rw [Bool.and_eq_true] at h
    exact .inl (.inl (.inr (by rw [h.1, under_of_above hq h.2]; rfl)))
  · rw [Bool.and_eq_true] at h
    refine .inl (.inr ?_)
    rw [pycache_of_above hq h.1, Bool.true_and, Bool.not_eq_true']
    by_contra hlocal
    rw [under_local_of_pycache hq h.1 (by simpa using hlocal)] at h
    cases h.2
  · exact .inr (within_of_above hq h)

theorem vendor_of_above (h : vendor kind q) : vendor kind p := by
  rw [vendor, Bool.or_eq_true] at h ⊢
  rcases h with h | h
  · exact .inl (under_of_above hq h)
  · rw [Bool.and_eq_true] at h
    exact .inr (by rw [h.1, under_of_above hq h.2]; rfl)

end Above

/-! ## What a line is of -/

/-- The line removes what is at a path, or names it in the report. A package is not a path. -/
def Line.tells (q : Text) : Line → Bool
  | .R p => p = q
  | .r .p _ => false
  | .r _ p => p = q
  | _ => false

def Line.path : Line → Option Text
  | .L p | .V p | .A p | .H p | .S p | .R p | .M _ _ _ p | .r _ p => some p
  | .n _ _ | .c _ _ => none

theorem Line.path_of_tells {q : Text} {l : Line} (h : l.tells q) : l.path = some q := by
  cases l with
  | R p => exact congrArg some (of_decide_eq_true h)
  | r c p => cases c <;> first | cases h | exact congrArg some (of_decide_eq_true h)
  | _ => cases h

/-- All lines are of one path, and so is the directory that cannot be there. -/
structure Emit.Of (o : Emit) (p : Text) : Prop where
  lines : ∀ l ∈ o.lines, l.path = some p
  block : ∀ b pending, o.block = some (b, pending) → b = p

namespace Emit.Of

variable {o a b : Emit} {p : Text}

theorem nothing : Emit.nothing.Of p := ⟨by rintro l ⟨⟩, by rintro b pending ⟨⟩⟩

theorem packageFile : Emit.packageFile.Of p := ⟨by rintro l ⟨⟩, by rintro b pending ⟨⟩⟩

theorem print {l : Line} (h : l.path = some p) : (Emit.print l).Of p := by
  refine ⟨fun l' hl' => ?_, by rintro b pending ⟨⟩⟩
  rw [mem_singleton.1 hl']
  exact h

theorem andThen (ha : a.Of p) (hb : b.Of p) : (a.andThen b).Of p := by
  refine ⟨forall_mem_append.2 ⟨ha.lines, hb.lines⟩, fun d pending hd => ?_⟩
  change (b.block <|> a.block) = some (d, pending) at hd
  cases hblock : b.block with
  | none =>
    rw [hblock] at hd
    exact ha.block d pending hd
  | some x =>
    rw [hblock] at hd
    cases hd
    exact hb.block d pending hblock

theorem blocking (ha : a.Of p) : (a.blocking p).Of p := by
  refine ⟨ha.lines, fun b pending hb => ?_⟩
  exact (Prod.mk.inj (some.inj hb)).1.symm

end Emit.Of

namespace Tables

variable {T : Tables} {e : Entry} {S : Sums} {q d q' : Text} {r : Run} {l : Line}

theorem of_narrowed : ∀ l ∈ T.narrowed e, l.path = some e.path := by
  intro l hl
  rw [narrowed] at hl
  split at hl
  · cases hl
  · split at hl
    · rw [mem_singleton.1 hl]
      rfl
    · cases hl

theorem of_hold (why : Option Code) : (T.hold e why).Of e.path := by
  refine ⟨forall_mem_append.2 ⟨forall_mem_cons.2 ⟨rfl, fun l hl => ?_⟩, of_narrowed⟩,
    by rintro b pending ⟨⟩⟩
  obtain ⟨c, -, rfl⟩ := mem_map.1 hl
  rfl

theorem of_live : (T.live e).Of e.path := by
  rw [live]
  split
  · split
    · exact (of_hold _).blocking
    · exact of_hold _
  · split
    · exact ⟨fun l hl => by rw [mem_singleton.1 hl]; rfl, by rintro b pending ⟨⟩⟩
    · exact ⟨fun l hl => by rw [mem_singleton.1 hl]; rfl, by rintro b pending ⟨⟩⟩

theorem of_save (p : Text) : (T.save p).Of p := by
  rw [save]
  split
  · exact .print rfl
  · split
    · exact ⟨fun l hl => by rw [mem_singleton.1 hl]; rfl, by rintro b pending ⟨⟩⟩
    · exact .nothing

theorem of_metaOf : (T.metaOf e).Of e.path := by
  rw [metaOf]
  split
  · exact .nothing
  · split
    · exact .nothing
    · split
      · exact .print rfl
      · split
        · exact .print rfl
        · split
          · exact .print rfl
          · exact .nothing

theorem of_replace : (((T.save e.path).andThen (T.live e)).andThen (.print (.r .u e.path))).Of
    e.path :=
  ((of_save _).andThen of_live).andThen (.print rfl)

theorem of_directoryEntry (st : State) : (T.directoryEntry st e).Of e.path := by
  rw [directoryEntry]
  dsimp only
  split
  · split
    · exact of_live
    · exact .nothing
  · split
    · split
      · exact (((of_save _).andThen (.print rfl)).andThen of_live).andThen (.print rfl)
      · split
        · exact (of_hold _).blocking
        · exact ⟨by rintro l ⟨⟩, fun b pending hb => (Prod.mk.inj (some.inj hb)).1.symm⟩
    · split
      · exact of_metaOf
      · exact .nothing

theorem of_newEntry : (T.newEntry S e).Of e.path := by
  rw [newEntry]
  split
  · split
    · exact of_live
    · split
      · exact .packageFile
      · exact of_live
  · split
    · exact .nothing
    · split
      · exact .packageFile
      · split
        · exact .nothing
        · split
          · exact of_hold _
          · exact of_replace

theorem of_changedEntry : (T.changedEntry S e).Of e.path := by
  rw [changedEntry]
  split
  · exact .nothing
  · split
    · split
      · exact .nothing
      · exact of_hold _
    · split
      · exact of_live.andThen (.print rfl)
      · split
        · exact .nothing
        · split
          · split
            · exact ((Emit.Of.print rfl).andThen of_live).andThen (.print rfl)
            · exact of_hold _
          · split
            · exact of_live
            · exact of_replace

theorem of_withManifest : (T.withManifest S e).Of e.path := by
  rw [withManifest]
  split
  · exact of_directoryEntry (e := e.plain) _
  · split
    · exact .nothing
    · exact of_metaOf
    · split
      · exact .print rfl
      · exact of_newEntry
    · split
      · split
        · exact .nothing
        · exact of_hold _
      · exact of_changedEntry

/-! ## What a pass says is of the old system -/

/-- What is so far there is of entries of the old system, and what it has noted are no directories
of it. -/
structure OfOld (T : Tables) (r : Run) : Prop where
  lines : ∀ l ∈ r.lines, ∃ e ∈ T.old.lines, l.path = some e.path
  block : ∀ b pending, r.block = some (b, pending) → ∃ e ∈ T.old.lines, b = e.path
  retyped : ∀ d ∈ r.retyped, ∃ e ∈ T.old.lines, d = e.path ∧ e.t.plain ≠ .d ∧ T.wasDir d

theorem OfOld.fresh (hfb : T.fb = false) (he : e ∈ T.old.lines) (h : T.OfOld r) :
    T.OfOld (T.fresh S r e) := by
  rw [Tables.fresh]
  split
  · exact ⟨h.lines, by rintro b pending ⟨⟩, h.retyped⟩
  · rw [hfb]
    refine ⟨forall_mem_append.2 ⟨h.lines, fun l hl => ⟨e, he, of_withManifest.lines l hl⟩⟩,
      fun b pending hb => ⟨e, he, of_withManifest.block b pending hb⟩, fun d hd => ?_⟩
    dsimp only at hd
    split at hd
    · next hnoted =>
      simp only [Bool.and_eq_true, decide_eq_true_eq] at hnoted
      rcases mem_cons.1 hd with rfl | hd
      · exact ⟨e, he, rfl, hnoted.1.1.1.2, hnoted.2⟩
      · exact h.retyped d hd
    · exact h.retyped d hd

theorem OfOld.blocked (he : e ∈ T.old.lines) (h : T.OfOld r) {b : Text} {pending : Bool}
    (hb : r.block = some (b, pending)) : T.OfOld (T.blocked S r b pending e) := by
  rw [Tables.blocked]
  split
  · refine ⟨forall_mem_append.2 ⟨h.lines, forall_mem_append.2 ⟨fun l hl => ?_, fun l hl =>
      ⟨e, he, (of_hold none).lines l hl⟩⟩⟩, fun d x hd => ?_, h.retyped⟩
    · split at hl
      · rw [mem_singleton.1 hl]
        obtain ⟨e', he', rfl⟩ := h.block b pending hb
        exact ⟨e', he', rfl⟩
      · cases hl
    · obtain ⟨rfl, -⟩ := Prod.mk.inj (some.inj hd)
      exact h.block _ pending hb
  · exact h

theorem OfOld.step (hfb : T.fb = false) (he : e ∈ T.old.lines) (h : T.OfOld r) :
    T.OfOld (T.step S r e) := by
  rw [Tables.step]
  split
  · next b pending hb =>
    split
    · exact h.blocked he hb
    · exact h.fresh hfb he
  · exact h.fresh hfb he

theorem ofOld_runOver (hfb : T.fb = false) : T.OfOld (T.runOver S T.old.lines) :=
  foldlRecOn T.old.lines (T.step S) (motive := T.OfOld)
    ⟨by rintro l ⟨⟩, by rintro b pending ⟨⟩, by rintro d ⟨⟩⟩ fun _ h _ he => h.step hfb he

/-! ## Deletions -/

def ImageTree (T : Tables) : Prop :=
  ∀ m ∈ T.image.getD [], m.path ≠ [] ∧
    ∀ d ∈ above m.path, ∃ m' ∈ T.image.getD [], m'.path = d ∧ m'.t = .d

/-- The old system has something at this path. -/
def hasOld (T : Tables) (p : Text) : Bool := p ∈ T.old.lines.map Entry.path

/-- Something of the image in a user area that was deleted, alone or with directories above it, and
that the new system has: nothing that the update leaves to others, and not of a package that was
removed. -/
structure Deleted (T : Tables) (p : Text) : Prop where
  fb : T.fb = false
  tree : T.ImageTree
  image : (T.om p).isSome
  old : T.hasOld p = false
  /-- what is above it is a directory, if it is there -/
  parents : ∀ e ∈ T.old.lines, e.path ∈ above p → e.t.plain = .d
  new : (T.ns p).isSome
  userarea : userarea p
  quiet : quiet p = false
  never : never T.kind p = false
  other : other p = false
  vendor : vendor T.kind p = false
  uciDefaults : under p ["etc/uci-defaults"] = false
  package : T.removedPackage p = none

/-- The plan has a line for it, or for a directory that was deleted with it. -/
def Told (T : Tables) (p : Text) : Prop :=
  ∃ q, (q = p ∨ q ∈ above p ∧ T.hasOld q = false) ∧ ∃ l ∈ T.plan, l.tells q

/-- The topmost of what was deleted with it. -/
structure Topmost (T : Tables) (p g : Text) : Prop where
  path : g = p ∨ g ∈ above p
  old : T.hasOld g = false
  above : ∀ d ∈ above g, T.hasOld d

/-- It enables a service of a package that the user removed and that is back. -/
def switchedOff (T : Tables) (q : Text) : Bool :=
  let back := T.back (T.runOver T.sums T.old.lines).retyped
  enableLink q && (serviceOf q ∈ T.services back false || serviceOf q ∈ T.services back true)

theorem om_isSome_iff : (T.om q).isSome ↔ ∃ m ∈ T.image.getD [], m.path = q := by
  constructor
  · intro h
    obtain ⟨m, hm⟩ := isSome_iff_exists.1 h
    exact ⟨m, Awk.mem_of_last? hm, Awk.key_of_last? hm⟩
  · rintro ⟨m, hm, rfl⟩
    obtain ⟨m', hm'⟩ := Awk.last?_isSome Image.path hm
    exact isSome_iff_exists.2 ⟨m', hm'⟩

theorem mem_gone_iff : q ∈ T.gone ↔ (T.om q).isSome ∧ T.hasOld q = false := by
  rw [gone, mem_filter, Awk.mem_keys, ← om_isSome_iff, seen]
  constructor
  · rintro ⟨himage, hseen⟩
    rw [himage, Bool.true_and, Bool.not_eq_true'] at hseen
    exact ⟨himage, hseen⟩
  · rintro ⟨himage, hold⟩
    refine ⟨himage, ?_⟩
    rw [hasOld] at hold
    rw [hold, Bool.and_false]
    rfl

theorem ImageTree.above (h : T.ImageTree) (hq : (T.om q).isSome) (hd : d ∈ above q) :
    (T.om d).isSome := by
  obtain ⟨m, hm, rfl⟩ := om_isSome_iff.1 hq
  obtain ⟨m', hm', hpath, -⟩ := (h m hm).2 d hd
  exact om_isSome_iff.2 ⟨m', hm', hpath⟩

theorem ImageTree.root (h : T.ImageTree) : T.om [] = none := by
  by_contra hroot
  obtain ⟨m, hm, hpath⟩ := om_isSome_iff.1 (isSome_iff_ne_none.2 hroot)
  exact (h m hm).1 hpath

theorem hasOld_above (hq : T.hasOld q) (hd : d ∈ above q) : T.hasOld d := by
  obtain ⟨e, he, rfl⟩ := mem_map.1 (of_decide_eq_true hq)
  obtain ⟨e', he', rfl, -⟩ := T.old.tree e he d hd
  exact decide_eq_true (mem_map.2 ⟨e', he', rfl⟩)

theorem ns_above (hq : (T.ns q).isSome) (hd : d ∈ above q) : (T.ns d).isSome := by
  obtain ⟨n, hn⟩ := isSome_iff_exists.1 hq
  rw [← Awk.key_of_last? hn] at hd
  obtain ⟨n', hn', rfl, -⟩ := T.new.tree n (Awk.mem_of_last? hn) d hd
  obtain ⟨n'', hn''⟩ := Awk.last?_isSome Entry.path hn'
  exact isSome_iff_exists.2 ⟨n'', hn''⟩

theorem topmost_of_gone (htree : T.ImageTree) {p : Text} (hp : q = p ∨ q ∈ above p)
    (hq : q ∈ T.gone) (hdir : directory q ∉ T.gone) : T.Topmost p q := by
  obtain ⟨himage, hold⟩ := mem_gone_iff.1 hq
  refine ⟨hp, hold, fun d hd => ?_⟩
  obtain ⟨hmem, hor⟩ := directory_of_above hd
  have hdirOld : T.hasOld (directory q) := by
    by_contra hno
    exact hdir (mem_gone_iff.2 ⟨htree.above himage hmem, by simpa using hno⟩)
  rcases hor with rfl | hd
  · exact hdirOld
  · exact hasOld_above hdirOld hd

namespace Deleted

variable {p g : Text} (h : T.Deleted p)

include h

theorem image_of_path (hg : g = p ∨ g ∈ above p) : (T.om g).isSome := by
  rcases hg with rfl | hg
  · exact h.image
  · exact h.tree.above h.image hg

theorem directory_there (hg : T.Topmost p g) :
    directory g ∉ T.gone ∧ directory g ∉ (T.runOver S T.old.lines).retyped := by
  rcases directory_eq g with hroot | hdir
  · rw [hroot]
    refine ⟨fun hmem => ?_, fun hmem => ?_⟩
    · have himage := (mem_gone_iff.1 hmem).1
      rw [h.tree.root] at himage
      cases himage
    · obtain ⟨e, -, -, -, hwas⟩ := (ofOld_runOver h.fb).retyped [] hmem
      rw [wasDir, h.tree.root] at hwas
      cases hwas
  · refine ⟨fun hmem => ?_, fun hmem => ?_⟩
    · have hold := (mem_gone_iff.1 hmem).2
      rw [hg.above _ hdir] at hold
      cases hold
    · obtain ⟨e, he, heq, hplain, -⟩ := (ofOld_runOver h.fb).retyped _ hmem
      refine hplain (h.parents e he ?_)
      rw [← heq]
      exact hg.path.elim (fun he => he ▸ hdir) (above_trans hdir)

theorem of_path (hg : g = p ∨ g ∈ above p) : (T.ns g).isSome ∧ Carry.never T.kind g = false ∧
    Carry.vendor T.kind g = false ∧ Carry.quiet g = false ∧
    under g ["etc/uci-defaults"] = false := by
  rcases hg with rfl | hg
  · exact ⟨h.new, h.never, h.vendor, h.quiet, h.uciDefaults⟩
  have hfalse : ∀ {a b : Bool}, (a → b) → b = false → a = false := by
    intro a b hab hb
    cases a
    · rfl
    · rw [hab rfl] at hb
      cases hb
  exact ⟨ns_above h.new hg, hfalse (never_of_above hg) h.never,
    hfalse (vendor_of_above hg) h.vendor,
    hfalse (under_of_above hg) h.quiet, hfalse (under_of_above hg) h.uciDefaults⟩

theorem deletedThere (hg : T.Topmost p g) (hother : Carry.other g = false) :
    T.deletedThere (T.runOver S T.old.lines).retyped g := by
  obtain ⟨hgone, hretyped⟩ := h.directory_there (S := S) hg
  obtain ⟨hnew, hnever, hvendor, hquiet, huci⟩ := h.of_path hg.path
  rw [Tables.deletedThere, hnew, hnever, hother, hvendor, hquiet, huci]
  simp [hgone, hretyped]

end Deleted

theorem tells_deleted (hpackage : T.removedPackage q = none) (harea : userarea q) :
    ∃ l ∈ T.deleted q, l.tells q := by
  rw [deleted, hpackage, harea]
  rw [if_neg (by decide)]
  split
  · exact ⟨.R q, mem_cons_self, decide_eq_true rfl⟩
  · exact ⟨.r .k q, mem_cons_self, decide_eq_true rfl⟩

theorem of_tells_deleted (hl : l ∈ T.deleted q) (ht : l.tells q') :
    q = q' ∧ T.removedPackage q = none ∧ userarea q := by
  rw [deleted] at hl
  split at hl
  · cases hl
  next hnot =>
  rw [Bool.or_eq_true, not_or, Bool.not_eq_true, Bool.not_eq_true', Bool.not_eq_false] at hnot
  have hboth : T.removedPackage q = none ∧ userarea q := ⟨by simpa using hnot.1, hnot.2⟩
  have hpath := Line.path_of_tells ht
  split at hl
  · rcases mem_cons.1 hl with rfl | hl
    · exact ⟨some.inj hpath, hboth⟩
    · rw [mem_singleton.1 hl] at hpath
      exact ⟨some.inj hpath, hboth⟩
  · rw [mem_singleton.1 hl] at hpath
    exact ⟨some.inj hpath, hboth⟩

theorem of_tells_linkLines (hfb : T.fb = false) {back : List Text} (hl : l ∈ T.linkLines back q)
    (ht : l.tells q') :
    q = q' ∧ (serviceOf q ∈ T.services back false ∨ serviceOf q ∈ T.services back true) := by
  have hpath := Line.path_of_tells ht
  rw [linkLines, hfb] at hl
  split at hl
  · next hfalse =>
    rw [mem_singleton.1 hl] at hpath
    exact ⟨some.inj hpath, .inl hfalse⟩
  · split at hl
    · next htrue =>
      rw [Bool.and_eq_true, decide_eq_true_eq] at htrue
      rw [mem_singleton.1 hl] at hpath
      exact ⟨some.inj hpath, .inr htrue.1⟩
    · rw [Bool.false_and, Bool.false_and, if_neg Bool.false_ne_true] at hl
      cases hl

theorem of_tells_ending (hfb : T.fb = false) (hl : l ∈ T.ending r) (ht : l.tells q) :
    (q ∈ T.gone ∧ T.deletedThere r.retyped q ∧ T.removedPackage q = none ∧ userarea q) ∨
      (enableLink q ∧ (serviceOf q ∈ T.services (T.back r.retyped) false ∨
        serviceOf q ∈ T.services (T.back r.retyped) true)) := by
  simp only [ending, mem_append] at hl
  rcases hl with (((hl | hl) | hl) | hl) | hl
  · obtain ⟨q', hq', hl⟩ := mem_flatMap.1 hl
    obtain ⟨rfl, hboth⟩ := of_tells_deleted hl ht
    obtain ⟨hgone, hthere⟩ := mem_filter.1 hq'
    exact .inl ⟨hgone, hthere, hboth⟩
  · obtain ⟨a, -, rfl⟩ := mem_map.1 hl
    cases ht
  · obtain ⟨q', hq', hl⟩ := mem_flatMap.1 hl
    obtain ⟨rfl, hservice⟩ := of_tells_linkLines hfb hl ht
    exact .inr ⟨(mem_filter.1 hq').2, hservice⟩
  · obtain ⟨e, -, hl⟩ := mem_flatMap.1 hl
    rw [sudoLines, hfb] at hl
    cases hl
  · simp only [mem_cons, not_mem_nil, or_false] at hl
    rcases hl with rfl | rfl | rfl | rfl <;> cases ht

theorem tells_switchedOff (hnew : (T.ns q).isSome) (hold : T.hasOld q = false)
    (h : T.switchedOff q) : ∃ l ∈ T.plan, l.tells q := by
  rw [switchedOff, Bool.and_eq_true, Bool.or_eq_true, decide_eq_true_eq, decide_eq_true_eq] at h
  obtain ⟨n, hn⟩ := isSome_iff_exists.1 hnew
  have hseen : T.seen q = false := by
    rw [hasOld] at hold
    rw [seen, hold, Bool.and_false]
  refine ⟨.R q, ?_, decide_eq_true rfl⟩
  rw [plan, ending]
  simp only [mem_append]
  refine .inr (.inl (.inl (.inr (mem_flatMap.2 ⟨q, ?_, ?_⟩))))
  · refine mem_filter.2 ⟨mem_map.2 ⟨n, Awk.mem_of_last? hn, Awk.key_of_last? hn⟩, h.1⟩
  · rw [linkLines, hseen]
    split
    · exact mem_cons_self
    next hfalse =>
    rw [if_pos (by simpa using h.2.resolve_left hfalse)]
    exact mem_cons_self

/-- **Deleted stays deleted or is told**, exactly when the topmost of what was deleted with it is
itself in a user area, is nothing that another step of the update has, and is not of a package that
was removed; or when one of them enables a service of a package that is back. -/
theorem deleted_told_iff (T : Tables) (p : Text) (h : T.Deleted p) :
    T.Told p ↔ (∃ g, T.Topmost p g ∧ Carry.userarea g ∧ Carry.other g = false ∧
      T.removedPackage g = none) ∨
        ∃ q, (q = p ∨ q ∈ above p) ∧ T.hasOld q = false ∧ T.switchedOff q := by
  constructor
  · rintro ⟨q, hpath, l, hl, ht⟩
    have hold : T.hasOld q = false := hpath.elim (fun hq => by rw [hq]; exact h.old) And.right
    have hway : q = p ∨ q ∈ above p := hpath.imp_right And.left
    rcases mem_append.1 hl with hl | hl
    · -- the lines before the end are of what the old system has
      obtain ⟨e, he, hline⟩ := (ofOld_runOver h.fb).lines l hl
      rw [Line.path_of_tells ht, some.injEq] at hline
      rw [hasOld, hline, decide_eq_false_iff_not] at hold
      exact absurd (mem_map.2 ⟨e, he, rfl⟩) hold
    · rcases of_tells_ending h.fb hl ht with ⟨hgone, hthere, hpackage, harea⟩ | ⟨hlink, hservice⟩
      · simp only [deletedThere, Bool.and_eq_true, decide_eq_true_eq, Bool.not_eq_true'] at hthere
        exact .inl ⟨q, topmost_of_gone h.tree hway hgone (by tauto), harea, by tauto, hpackage⟩
      · refine .inr ⟨q, hway, hold, ?_⟩
        rw [switchedOff, hlink, Bool.true_and, Bool.or_eq_true, decide_eq_true_eq,
          decide_eq_true_eq]
        exact hservice
  · rintro (⟨g, hg, harea, hother, hpackage⟩ | ⟨q, hway, hold, hoff⟩)
    · obtain ⟨l, hl, ht⟩ := tells_deleted hpackage harea
      refine ⟨g, hg.path.imp_right fun hmem => ⟨hmem, hg.old⟩, l, ?_, ht⟩
      have hgone : g ∈ T.gone := mem_gone_iff.2 ⟨h.image_of_path hg.path, hg.old⟩
      rw [plan, ending]
      simp only [mem_append]
      exact .inr (.inl (.inl (.inl (.inl (mem_flatMap.2
        ⟨g, mem_filter.2 ⟨hgone, h.deletedThere hg hother⟩, hl⟩)))))
    · exact ⟨q, hway.imp_right fun hmem => ⟨hmem, hold⟩,
        tells_switchedOff (h.of_path hway).1 hold hoff⟩

end Tables

/-! ## Samples -/

/-- A setting, and a file of a server. -/
def bothScan : Scan :=
  ⟨[sampleDir "etc", sampleFile 0o644 "etc/a", sampleDir "srv", sampleFile 0o644 "srv/a"],
    by decide +kernel, by decide +kernel⟩

def noSetting : Scan :=
  ⟨[sampleDir "etc", sampleDir "srv", sampleFile 0o644 "srv/a"],
  by decide +kernel, by decide +kernel⟩

/-- The files of the server were deleted, with their directory. -/
def noServerLines : List Entry := [sampleDir "etc", sampleFile 0o644 "etc/a"]

def noServer : Scan := ⟨noServerLines, by decide +kernel, by decide +kernel⟩

def bothImage : List Image :=
  [⟨.d, 0o755, 0, 0, 0, ['-'], "etc"⟩, ⟨.f, 0o644, 0, 0, 1, ['1'], "etc/a"⟩,
    ⟨.d, 0o755, 0, 0, 0, ['-'], "srv"⟩, ⟨.f, 0o644, 0, 0, 1, ['1'], "srv/a"⟩]

/-- The image had both, and so has the new one. -/
def afterDeletion (old : Scan) : Tables := sampleTables (some bothImage) old bothScan ['1']

theorem afterDeletion_tree (old : Scan) : (afterDeletion old).ImageTree := by
  have htree : ∀ m ∈ bothImage, m.path ≠ [] ∧
      ∀ d ∈ above m.path, ∃ m' ∈ bothImage, m'.path = d ∧ m'.t = .d := by
    decide +kernel
  exact htree

theorem deleted_setting : (afterDeletion noSetting).Deleted "etc/a" := by
  refine ⟨rfl, afterDeletion_tree _, ?_, ?_, ?_, ?_, ?_, ?_, ?_, ?_, ?_, ?_, ?_⟩
  all_goals decide +kernel

/-- The setting stays deleted. -/
theorem deleted_told_setting : (afterDeletion noSetting).Told "etc/a" := by
  refine (Tables.deleted_told_iff _ _ deleted_setting).2 (.inl ⟨_, ⟨.inl rfl, ?_, ?_⟩, ?_, ?_, ?_⟩)
  all_goals decide +kernel

/-- **The files of the server come back**, and nobody is told: `srv` itself is not in a user area,
and what was below it is left to its line. -/
theorem srv_comes_back : ∃ (T : Tables) (p : Text), T.Deleted p ∧ ¬ T.Told p := by
  refine ⟨afterDeletion noServer, "srv/a",
    ⟨rfl, afterDeletion_tree _, ?_, ?_, ?_, ?_, ?_, ?_, ?_, ?_, ?_, ?_, ?_⟩, ?_⟩
  on_goal 12 =>
    rintro ⟨q, -, l, hl, ht⟩
    have hplan : (afterDeletion noServer).plan = [.n 0 .l, .n 0 .h, .n 0 .s, .c 0 0] := by
      decide +kernel
    rw [hplan] at hl
    simp only [mem_cons, not_mem_nil, or_false] at hl
    rcases hl with rfl | rfl | rfl | rfl <;> cases ht
  all_goals decide +kernel

end Mu300.Carry
