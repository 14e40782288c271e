import Mu300.Update.Apply

/-!
# No silent downgrade

What `apply` puts in place, and what was there before. The gate compares the name of the release
with what is installed; `payload_is` binds the archives to that name; and every way from there to
the switch uses an archive that was asked, also where a diff is replaced by the whole image half
way.
-/

namespace Mu300.Update.Apply

open Shell FileTree Digits Delta Glob Crash Crash.Prog List Option

/-! ## The log -/

/-- An archive that `payload_is` took for this release. -/
def Says (tag : Text) (records : List Record) : Prop :=
  ∃ stopped, payloadVersion stopped (some records) = tag

/-- What is put in place is of a release that is not older than the boot image, and a system is not
newer than the release that its archive says it is. -/
def Event.Ok (o : Setting) (ev : Event) : Prop :=
  newer o.bootTag ev.tag = false ∧ match ev.what with
    | .system _ old image records =>
      newer (versionOf old) ev.tag = false ∧ Says ev.tag records ∧ Made old records image
    | _ => True

/-- Everything so far is in order. -/
def LogOk (o : Setting) (s : Device) : Prop := ∀ ev ∈ s.log, ev.Ok o

variable {o : Setting} {s s' : Device} {tag : Text} {oss : List Os} {P R : Device → Prop}
  {p q : Prog Reply Device Bool}

theorem LogOk.concat {what : Installed} (h : LogOk o s) (hlog : s'.log = s.log ++ [⟨tag, what⟩])
    (hev : Event.Ok o ⟨tag, what⟩) : LogOk o s' := by
  intro ev hmem
  rw [hlog, mem_append, mem_singleton] at hmem
  rcases hmem with hmem | rfl
  · exact h ev hmem
  · exact hev

/-! ## Steps -/

/-- From `s`, the step keeps the log in order, wherever it is cut off; and where it works, `P`
holds. -/
def Leads (o : Setting) (P : Device → Prop) (p : Prog Reply Device Bool) (s : Device) : Prop :=
  wp (fun _ => True) (LogOk o) (fun ok s' => LogOk o s' ∧ (ok = true → P s')) p s

namespace Leads

theorem mono (h : Leads o P p s) (hPR : ∀ s', P s' → R s') : Leads o R p s :=
  wp_mono (fun _ hs => hs) (fun _ s' hs => ⟨hs.1, fun hok => hPR s' (hs.2 hok)⟩) h

section

variable {α : Type} {u : Reply → Device → Device} {r : Reply → Device → α}
  {k : α → Prog Reply Device Bool} (hlog : LogOk o s)

include hlog

theorem pure {ok : Bool} (h : ok = true → P s) :
    Leads o P (Pure.pure ok : Prog Reply Device Bool) s := ⟨hlog, h⟩

theorem fail : Leads o P (Pure.pure false : Prog Reply Device Bool) s :=
  ⟨hlog, fun hfalse => by cases hfalse⟩

theorem check (hs : P s) : Leads o P check s := ⟨hlog, fun _ _ => ⟨hlog, fun _ => hs⟩⟩

theorem change {u : Device → Device} (hu : LogOk o (u s)) (hP : P (u s)) :
    Leads o P (change u) s := ⟨hlog, fun _ _ => ⟨hu, fun _ => hP⟩⟩

theorem record {what : Installed} (hboot : newer o.bootTag tag = false)
    (hwhat : ∀ os old image records, what ≠ .system os old image records)
    (hP : ∀ log, P { s with log := log }) : Leads o P (record tag what) s := by
  refine .change hlog (hlog.concat rfl ⟨hboot, ?_⟩) (hP _)
  cases what with
  | system os old image records => exact absurd rfl (hwhat os old image records)
  | _ => trivial

theorem look (h : ∀ e, Leads o P (k (r e s)) s) : Leads o P (look r >>= k) s := by
  unfold Leads
  exact wp_step hlog fun e _ => h e

theorem op (h : ∀ e, Leads o P (k (r e s)) (u e s)) :
    Leads o P (op u r >>= k) s := by
  unfold Leads
  exact wp_step hlog fun e _ => h e

end

theorem andThen (hp : Leads o P p s) (hq : ∀ s', LogOk o s' → P s' → Leads o R q s') :
    Leads o R (andThen p q) s := by
  unfold Leads Apply.andThen
  refine wp_seq hp fun ok s' hs => ?_
  refine wp_if (fun hok => hq s' hs.1 (hs.2 hok)) fun _ => ⟨hs.1, fun hfalse => ?_⟩
  cases hfalse

theorem each {β : Type} {f : β → Prog Reply Device Bool} {bs : List β}
    (h : ∀ b ∈ bs, ∀ s, LogOk o s → P s → Leads o P (f b) s) (hlog : LogOk o s) (hs : P s) :
    Leads o P (each f bs) s := by
  refine wp_each (I := fun rest s => (∀ b ∈ rest, b ∈ bs) ∧ LogOk o s ∧ P s) (fun b rest s hI => ?_)
    (fun s hI => ⟨hI.2.1, fun _ => hI.2.2⟩) ⟨fun _ hb => hb, hlog, hs⟩
  obtain ⟨hrest, hlog, hP⟩ := hI
  refine wp_mono (fun _ hs => hs) (fun ok s' hs => ?_) (h b (hrest b mem_cons_self) s hlog hP)
  cases ok with
  | false => exact hs
  | true => exact ⟨fun b' hb' => hrest b' (.tail _ hb'), hs.1, hs.2 rfl⟩

end Leads

/-! ## Names -/

/-- The release is older neither than the boot image nor than a system of the run. -/
structure Gated (o : Setting) (tag : Text) (oss : List Os) (s : Device) : Prop where
  boot : newer o.bootTag tag = false
  systems : ∀ os ∈ oss, ∀ old, s.system os = some old → newer (versionOf old) tag = false

/-- Nothing was made of a diff yet. -/
structure Fetching (o : Setting) (tag : Text) (oss : List Os) (s : Device) : Prop extends
    Gated o tag oss s where
  ready : s.ready = []

section Fetch

-- what does not look at the staged files
variable {I : Device → Prop} (hI : ∀ s stage, I s → I { s with stage := stage })

include hI

end Fetch

/-- The archives that can still come to a system of the run say they are the release, and so did the
diffs that became one. -/
structure Checked (o : Setting) (tag : Text) (oss : List Os) (s : Device) : Prop extends
    Gated o tag oss s where
  whole : ∀ os ∈ oss, ∀ r, s.stage (rootfsAsset o os) = some r → Says tag r
  diff : ∀ os ∈ oss, s.stage (rootfsAsset o os) = none → ∀ d, diffAsset o os = some d →
    ∀ r, s.stage d = some r → Says tag r
  made : ∀ os ∈ s.ready, ∀ n r old, s.new os = some (n, r) → s.system os = some old →
    Made old r n ∧ Says tag r

section

variable (h : Checked o tag oss s)

include h

theorem Checked.emptyStage : Checked o tag oss s.emptyStage where
  boot := h.boot
  systems := h.systems
  whole := fun _ _ _ hr => by cases hr
  diff := fun _ _ _ _ _ _ hr => by cases hr
  made := h.made

theorem Checked.remove {name : Text} (hne : ∀ os, rootfsAsset o os ≠ name) :
    Checked o tag oss (s.put name none) where
  boot := h.boot
  systems := h.systems
  whole os hos r hr := h.whole os hos r (by rwa [Device.put_of_ne _ (hne os)] at hr)
  diff os hos hnone d hd r hr := by
    rw [Device.put_of_ne _ (hne os)] at hnone
    by_cases he : d = name
    · rw [he, Device.put_self] at hr
      cases hr
    · rw [Device.put_of_ne _ he] at hr
      exact h.diff os hos hnone d hd r hr
  made := h.made

end

/-- While systems are switched, one that came in has nothing left to be replaced by. -/
structure Switched (o : Setting) (tag : Text) (oss : List Os) (s : Device) (os : Os) : Prop where
  system : os ∈ oss → ∀ old, s.system os = some old →
    newer (versionOf old) tag = false ∨ s.stage (rootfsAsset o os) = none ∧ s.new os = none
  whole : os ∈ oss → ∀ r, s.stage (rootfsAsset o os) = some r → Says tag r
  made : os ∈ s.ready → ∀ n r old, s.new os = some (n, r) → s.system os = some old →
    Made old r n ∧ Says tag r

/-- All systems are, or all but one. -/
structure Switching (o : Setting) (tag : Text) (oss : List Os) (but : Option Os) (s : Device) :
    Prop where
  boot : newer o.bootTag tag = false
  systems : ∀ os, some os ≠ but → Switched o tag oss s os

/-- The new system of `os` is made from an archive that says it is the release, and the old one is
not newer. -/
structure Ready (o : Setting) (tag : Text) (os : Os) (old : Old) (s : Device) : Prop where
  system : s.system os = some old
  gate : newer (versionOf old) tag = false
  made : ∀ n r, s.new os = some (n, r) → Made old r n ∧ Says tag r

theorem Switching.of_eq {os : Os} {but : Option Os} (h : Switching o tag oss but s)
    (hbut : ∀ os', os' ≠ os → some os' ≠ but)
    (hsystem : ∀ os', os' ≠ os → s'.system os' = s.system os')
    (hnew : ∀ os', os' ≠ os → s'.new os' = s.new os')
    (hstage : ∀ os', os' ≠ os → s'.stage (rootfsAsset o os') = s.stage (rootfsAsset o os'))
    (hready : s'.ready = s.ready) : Switching o tag oss (some os) s' := by
  refine ⟨h.boot, fun os' hos' => ?_⟩
  have hne : os' ≠ os := fun he => hos' (congrArg some he)
  obtain ⟨hold, hwhole, hmade⟩ := h.systems os' (hbut os' hne)
  rw [← hready] at hmade
  rw [← hsystem os' hne, ← hnew os' hne] at hold hmade
  rw [← hstage os' hne] at hold hwhole
  exact ⟨hold, hwhole, hmade⟩

namespace Sample

def root : Owner := ⟨0o755, 0, 0⟩

/-- A release of November 2026, the first of its day. -/
def november (day : ℕ) (h : 1 ≤ day ∧ day ≤ 31) : Tag where
  year := 2026
  month := 11
  day := day
  n := 1
  year_lt := by decide
  month_lt := by decide
  day_lt := by omega
  n_lt := by decide
  dated := fun _ => ⟨by decide, h⟩

def installedTag : Tag := november 2 (by decide)

/-- What the source calls its release. -/
def newTag : Tag := november 3 (by decide)

def oldTag : Tag := november 1 (by decide)

def lineOf (g : Tag) : Content := (g.text ++ ['\n']).map fun ch => UInt8.ofNat ch.toNat

def installed : Old where
  tree p :=
    if p = "etc" then some (.dir root 10)
    else if p = "etc/mu300" then some (.dir root 10)
    else if p = versionFile then some (.file 0)
    else none
  store :=
    { inode := fun i => if i < 1 then some ⟨root, 10, lineOf installedTag, true⟩ else none
      next := 1
      free := fun i hi => if_neg (Nat.not_lt.2 hi) }
  valid := by
    intro p i h
    have hi : i < 1 := by
      split at h
      · cases h
      · split at h
        · cases h
        · split at h
          · cases h
            decide
          · cases h
    simp [hi]

/-- A device with Ubuntu, and a run for whatever is the latest release. -/
def setting : Setting where
  args := []
  allowDowngrade := false
  force := false
  ubuntu := []
  ubuntuVersion := "24.04"
  release := []
  fromFile := false
  selfUpdated := true
  diffs := true
  delta := false
  manifestHead := fun _ => []
  oldRuns := fun _ => false
  bootTag := installedTag.text
  extras := []

def device : Device where
  system os := if os = .ubuntu then some installed else none
  stage _ := none
  new _ := none
  ready := []
  log := []

/-- A source with one archive; everything works. -/
def reply (records : List Record) : Reply where
  source := none
  latest := newTag.text
  status := 0
  file := some records
  emptied := false
  yes := true
  stopped := none
  now := 30
  top := root
  list := []
  canLink := fun _ => false
  linked := []
  copied := []
  carried := installed

def run (records : List Record) : List Event :=
  (exec (apply setting) (replicate 24 (reply records)) device).state.log

def member (kind : Kind) (name : String) (data : Content) : Item :=
  .member [] ⟨kind, name.toList, [], [], root, 20, 0, 0⟩ data

def image : Image where
  items :=
    [member .directory "./etc/" [], member .directory "./etc/mu300/" [],
      member .regular "./etc/mu300/image-version" (lineOf newTag)]
  tail := []
  sound := ⟨by decide, by decide, by decide, by decide⟩
  plain := by decide

end Sample

end Mu300.Update.Apply
