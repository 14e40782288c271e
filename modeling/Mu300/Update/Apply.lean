import Mu300.Lib.Crash
import Mu300.Update.Payload

/-!
# `mu300-update apply`

From the name of a release to the systems of a device. Everything is fetched and checked first, and
only then is anything changed.

* `Device` — what a run changes: the systems, what is staged, the new systems that are being made.
  `log` records what was put in place of something, and of which release.
* `Reply` — the world's answer to a step: any file from any source, and how every other check turns
  out.

A step ends the run where its result is `false`. How files are fetched and checked against their
sums is the subject of `Update.Fetch`: here the source is free to give any file.
-/

namespace Mu300.Update.Apply

open Shell FileTree Digits Delta Glob Crash Crash.Prog

/-! ## Names -/

inductive Os : Type where
  | ubuntu
  | openwrt
  | openwrtLuci
  deriving DecidableEq

def Os.name : Os → Text
  | .ubuntu => "ubuntu"
  | .openwrt => "openwrt"
  | .openwrtLuci => "openwrt-luci"

def systems : List Os := [.ubuntu, .openwrt, .openwrtLuci]

def Os.ofName (word : Text) : Option Os := systems.find? fun os => os.name = word

/-- What a run is started with, and what it reads of the device and leaves as it is. -/
structure Setting where
  args : List Text
  /-- `MU300_ALLOW_DOWNGRADE` is set -/
  allowDowngrade : Bool
  /-- `MU300_FORCE` is set -/
  force : Bool
  /-- `MU300_UBUNTU` -/
  ubuntu : Text
  /-- the `VERSION_ID` of the installed Ubuntu -/
  ubuntuVersion : Text
  /-- `MU300_RELEASE` -/
  release : Text
  /-- `MU300_FROM` is set -/
  fromFile : Bool
  /-- `MU300_SELF_UPDATED` is set -/
  selfUpdated : Bool
  /-- `MU300_DIFF` is not 0 -/
  diffs : Bool
  /-- `MU300_DELTA` is not 0 -/
  delta : Bool
  /-- the first line of a system's image-manifest.gz -/
  manifestHead : Os → Text
  /-- `is_root OS.old` -/
  oldRuns : Os → Bool
  /-- `$(cat BOOTDIR/installed.tag)` -/
  bootTag : Text
  /-- the extras that are fetched -/
  extras : List Text

section

variable (o : Setting)

/-- `rootfs_asset`, without `.tar.gz`. -/
def rootfsBase : Os → Text
  | .ubuntu =>
    if (if o.ubuntu ≠ [] then o.ubuntu else o.ubuntuVersion) = "26.04" then
      "mu300-ubuntu-26.04-rootfs"
    else "mu300-ubuntu-rootfs"
  | .openwrt => "mu300-openwrt-rootfs"
  | .openwrtLuci => "mu300-openwrt-luci-rootfs"

def rootfsAsset (os : Os) : Text := rootfsBase o os ++ ".tar.gz"

/-- `image_kind`, by the name without its ending. -/
def imageKind (base : Text) : Option Text :=
  if base = "mu300-ubuntu-rootfs" then some "ubuntu-24.04"
  else if base = "mu300-ubuntu-26.04-rootfs" then some "ubuntu-26.04"
  else if base = "mu300-openwrt-rootfs" then some "openwrt"
  else if base = "mu300-openwrt-luci-rootfs" then some "openwrt-luci"
  else none

def diffAsset (os : Os) : Option Text :=
  match fields (o.manifestHead os) with
  | [what, one, kind, tag] =>
    if what = "mu300-image-manifest" ∧ one = ['1'] ∧ some kind = imageKind (rootfsBase o os) ∧
      tagOk tag then
      some (rootfsBase o os ++ ".diff-" ++ tag ++ ".tar.gz")
    else none
  | _ => none

/-! ## State -/

/-- What can be put in place. A system comes with the one it replaces, with the image as it was
unpacked, and with the archive that it came from. -/
inductive Installed : Type where
  | updater
  | modules
  | system (os : Os) (old : Old) (image : New) (records : List Record)
  | extras
  | boot

/-- Something was put in place, for a release. -/
structure Event where
  tag : Text
  what : Installed

structure Device where
  /-- `DISK/OS` -/
  system : Os → Option Old
  /-- the files in `STAGE` that are not empty -/
  stage : Text → Option (List Record)
  /-- `DISK/OS.new`, and the archive it was made from -/
  new : Os → Option (New × List Record)
  /-- `DIFF_READY` -/
  ready : List Os
  log : List Event

structure Reply where
  /-- `from_begin`: refused, or the release and the one system of the file -/
  source : Option (Text × Option Os)
  /-- `latest_release` -/
  latest : Text
  /-- a download: its status, the file then, and whether the staging directory was emptied before it
  -/
  status : ℕ
  file : Option (List Record)
  emptied : Bool
  /-- how a check turns out, or a command -/
  yes : Bool
  /-- `tar -O` failed behind so many bytes -/
  stopped : Option ℕ
  /-- how an archive is unpacked -/
  now : Time
  top : Owner
  list : List Text
  canLink : Text → Bool
  /-- what a diff takes from the installed system -/
  linked : List Text
  copied : List Text
  /-- the image with the user's files in it -/
  carried : Old

variable (s : Device)

/-- A staged file, written or removed. -/
def Device.put (name : Text) (file : Option (List Record)) : Device :=
  { s with stage := fun n => if n = name then file else s.stage n }

theorem Device.put_self (name : Text) (file : Option (List Record)) :
    (s.put name file).stage name = file := if_pos rfl

theorem Device.put_of_ne {name n : Text} (h : n ≠ name) (file : Option (List Record)) :
    (s.put name file).stage n = s.stage n := if_neg h

/-- A new system, made or removed. -/
def Device.putNew (os : Os) (n : Option (New × List Record)) : Device :=
  { s with new := fun os' => if os' = os then n else s.new os' }

/-- A system, put in place or moved away. -/
def Device.putSystem (os : Os) (old : Option Old) : Device :=
  { s with system := fun os' => if os' = os then old else s.system os' }

/-- `stage_private` finds the directory not to be its own. -/
def Device.emptyStage : Device := { s with stage := fun _ => none }

/-! ## Steps -/

/-- One step, and the next one if it works. -/
def andThen (p q : Prog Reply Device Bool) : Prog Reply Device Bool := do
  if ← p then q else return false

/-- Something that can fail, and changes nothing of what is modelled here. -/
def check : Prog Reply Device Bool := look fun e _ => e.yes

def change (u : Device → Device) : Prog Reply Device Bool := op (fun _ s => u s) fun _ _ => true

def record (tag : Text) (what : Installed) : Prog Reply Device Bool :=
  change fun s => { s with log := s.log ++ [⟨tag, what⟩] }

/-- `fetch_verified` of an archive. -/
def fetchArchive (name : Text) : Prog Reply Device ℕ :=
  op (fun e s => (if e.emptied then s.emptyStage else s).put name e.file) fun e _ => e.status

/-- `fetch_verified` of any other file. -/
def fetchOther : Prog Reply Device ℕ :=
  op (fun e s => if e.emptied then s.emptyStage else s) fun e _ => e.status

/-- A file that there is no going on without. -/
def fetchNeeded : Prog Reply Device Bool := do
  let r ← fetchOther
  return r = 0

def diffFetch (os : Os) : Prog Reply Device Bool :=
  match diffAsset o os with
  | none => return false
  | some d =>
    if o.diffs then do
      -- the diff, and the manifest of the image
      if ← andThen (do return (← fetchArchive d) = 0) fetchNeeded then return true
      else
        act fun s => s.put d none
        return false
    else return false

/-- The download of one system: its diff, or the whole image. -/
def fetchSystem (os : Os) : Prog Reply Device Bool := do
  if ← diffFetch o os then return true
  else return (← fetchArchive (rootfsAsset o os)) = 0

/-! ## Gates -/

/-- `$(cat DISK/WORD/etc/mu300/image-version)`. -/
def versionAt (word : Text) : Text := (((Os.ofName word).bind s.system).map versionOf).getD []

def downgradeOk (tag : Text) (targets : List Text) : Bool :=
  o.allowDowngrade ||
    (targets.all fun word => !newer (versionAt s word) tag) && !newer o.bootTag tag

/-- The file that stands for a system: the whole image, or the diff. -/
def payloadFile (os : Os) : Option (List Record) :=
  match s.stage (rootfsAsset o os) with
  | some r => some r
  | none => (diffAsset o os).bind s.stage

def payloadIs (tag : Text) (oss : List Os) : Prog Reply Device Bool :=
  each (fun os => look fun e s => payloadVersion e.stopped (payloadFile o s os) = tag) oss

/-! ## Diffs -/

/-- How `diff_unpack` ends. -/
inductive Unpacking : Type where
  | ready
  | unused
  | dies

def diffNew (os : Os) (d : Text) (e : Reply) (s : Device) : Option (New × List Record) := do
  let old ← s.system os
  let records ← s.stage d
  let n ← diffTree e.now e.top old e.list e.canLink e.linked e.copied records
  return (n, records)

def diffUnpack (os : Os) (d : Text) : Prog Reply Device Unpacking := do
  -- the parts that an update runs, and the manifest of the release
  if ← check then
    -- the room
    if ← check then
      if ← op (fun e s => s.putNew os (diffNew os d e s))
        (fun e s => (diffNew os d e s).isSome) then
        -- what it says it is, the files it left out, and the whole tree against the manifest
        if ← check then
          act fun s => s.put d none
          return .ready
        else return .unused
      else return .unused
    else return .dies
  else return .unused

/-- One system of `diffs_unpack`: a diff that does not give the image of the release is replaced by
the whole image. -/
def diffOne (tag : Text) (os : Os) : Prog Reply Device Bool :=
  match diffAsset o os with
  | none => return true
  | some d => do
    if ← test fun s => s.stage (rootfsAsset o os) = none ∧ s.stage d ≠ none then
      match ← diffUnpack os d with
      | .ready => change fun s => { s with ready := os :: s.ready }
      | .dies => return false
      | .unused => do
        act fun s => (s.putNew os none).put d none
        let status ← fetchArchive (rootfsAsset o os)
        if status = 0 then payloadIs o tag [os] else return false
    else return true

def diffsUnpack (tag : Text) (oss : List Os) : Prog Reply Device Bool := each (diffOne o tag) oss

/-! ## One system -/

/-- The image is unpacked whole, or without what the installed system has. -/
def unpackWith (delta : Bool) (e : Reply) (old : Old) (records : List Record) : Option New :=
  if delta then deltaUnpack e.now e.top old e.list e.canLink records
  else untar e.now (emptyDir e.top e.now old.store) records

def imageNew (os : Os) (delta : Bool) (e : Reply) (s : Device) : Option (New × List Record) := do
  let old ← s.system os
  let records ← s.stage (rootfsAsset o os)
  let n ← unpackWith delta e old records
  return (n, records)

/-- The image is unpacked, where no diff was. -/
def unpackImage (os : Os) : Prog Reply Device Bool := do
  if ← test fun s => s.stage (rootfsAsset o os) ≠ none then
    -- the image brings the parts
    let delta ← look fun e _ => o.delta && e.yes
    -- the comparison, and the room
    andThen (if delta then check else return true) <|
      op (fun e s => s.putNew os (imageNew o os delta e s)) fun e s =>
        (imageNew o os delta e s).isSome
  else return false

/-- The new system comes in with the user's files; where it cannot, the old one comes back. -/
def switchIn (tag : Text) (os : Os) (old : Old) (e : Reply) (s : Device) : Device :=
  match e.yes, s.new os with
  | true, some (image, records) =>
    { (s.putSystem os (some e.carried)).putNew os none with
      log := s.log ++ [⟨tag, .system os old image records⟩] }
  | _, _ => s.putSystem os (some old)

/-- The switch: the old system goes aside, and the new one comes in its place. -/
def switchOver (tag : Text) (os : Os) (old : Old) : Prog Reply Device Bool :=
  andThen (op (fun e s => if e.yes then s.putSystem os none else s) fun e _ => e.yes) <|
    op (switchIn tag os old) fun e s => e.yes && (s.new os).isSome

def applyOne (tag : Text) (os : Os) : Prog Reply Device Bool := do
  match ← look fun _ s => s.system os with
  | none => return false
  | some old =>
    let ready ← test fun s => os ∈ s.ready ∧ s.new os ≠ none
    andThen (if ready then return true else unpackImage o os) <|
      andThen (change fun s => s.put (rootfsAsset o os) none) <|
        -- a system that can start, with the user's and the vendor's files, and OS.old does not run
        andThen check <| switchOver tag os old

/-! ## The run -/

def installedSystems : List Text :=
  (systems.filter fun os => (s.system os).isSome).map Os.name

/-- `apply_targets`, for the gate. -/
def applyTargets (only : Option Os) (s : Device) : List Text :=
  match only with
  | some os => [os.name]
  | none =>
    let named := o.args.filter fun a => a.head? ≠ some '-'
    if named = [] then installedSystems s else named

/-- `list`: the systems the run is about. -/
def applyList (only : Option Os) (s : Device) : List Text :=
  match only with
  | some os => [os.name]
  | none =>
    let named := o.args.filter fun a => a ∉ ["--no-reinstall".toList, "--no-rollback".toList]
    if named = [] then installedSystems s else named

/-- Ubuntu moves to the other release. -/
def otherUbuntu (os : Os) : Bool := os = .ubuntu && o.ubuntu ≠ [] && o.ubuntu ≠ o.ubuntuVersion

/-- `todo`: those that are not there yet; nothing where a word is no installed system, or one that
still runs its old copy. -/
def todo (s : Device) (tag : Text) : List Text → Option (List Os)
  | [] => some []
  | word :: words =>
    match Os.ofName word with
    | none => none
    | some os =>
      match s.system os with
      | none => none
      | some old =>
        if versionOf old = tag ∧ !o.force ∧ !otherUbuntu o os then todo s tag words
        else if o.oldRuns os then none
        else (todo s tag words).map (os :: ·)

/-- The extras and the boot image: a release without them is no error. -/
def fetchOptional : Prog Reply Device Bool := do
  let r ← fetchOther
  return r = 0 ∨ r = 2

/-- From the downloads to the boot image. -/
def install (tag : Text) (oss : List Os) : Prog Reply Device Bool :=
  andThen (each (fetchSystem o) oss) <|
  andThen (payloadIs o tag oss) <|
  andThen (each (fun _ => fetchOptional) o.extras) <|
  -- `modules_fetch`
  andThen fetchNeeded <|
  andThen fetchOptional <|
  -- `bundle_finds_root`
  andThen check <|
  andThen (diffsUnpack o tag oss) <|
  -- `retire_call_audio`
  andThen check <|
  andThen (record tag .modules) <|
  andThen (each (applyOne o tag) oss) <|
  andThen (record tag .extras) <|
  record tag .boot

/-- The run behind the gate and the hand-over. -/
def work (tag : Text) (only : Option Os) : Prog Reply Device Bool :=
  -- Ubuntu 26.04 on kernel 5.4
  andThen check do
    match ← look fun _ s => todo o s tag (applyList o only s) with
    | none => return false
    | some oss =>
      -- `delta_clean`; the manifests of the images, for the room
      andThen (change fun s => { s with new := fun _ => none }) <| andThen fetchNeeded <|
        install o tag oss

/-- The release of the run, and the one system of a file. -/
def releaseOf : Prog Reply Device (Option (Text × Option Os)) :=
  look fun e _ =>
    if o.fromFile then e.source
    else some (if o.release ≠ [] then o.release else captured e.latest, none)

/-- Whether the updater of the release goes on: it is another one, and none has been handed the run
before. -/
def handOver : Prog Reply Device Bool :=
  if o.selfUpdated then return false else andThen fetchNeeded check

/-- `apply`, up to a hand-over. -/
def applyOnce (again : Setting → Prog Reply Device Bool) : Prog Reply Device Bool :=
  andThen (change fun s => { s with ready := [] }) do
    match ← releaseOf o with
    | none => return false
    | some (tag, only) =>
      if tag = [] then return false
      else if ← look fun _ s => downgradeOk o s tag (applyTargets o only s) then
        if ← handOver o then
          andThen (record tag .updater) <| again { o with selfUpdated := true, release := tag }
        else work o tag only
      else return false

/-- `apply`. The updater of the release does not hand over again. -/
def apply : Prog Reply Device Bool := applyOnce o fun o' => applyOnce o' fun _ => return false

end

end Mu300.Update.Apply
