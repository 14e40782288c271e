import Mu300.Lib.Crash
import Mu300.PickRoot

/-!
# The kernel step

`boot_update` of `mu300-update` replaces the boot image in the Linux slot and, with it, the set of
kernel modules in every system; `rollback-boot` goes back to the image before. A kernel does not
come up with the modules of another build, also one of the same release, and image and modules
cannot be written at once. What ties them together:

* `pending` — written before the systems' sets are touched and removed after the image is written:
  the release and the banner of the kernel on its way in.
* `prevModulesNew`, `prevModules` — the sets that were in place, kept for the image before.
* `written`, `installedId` — what the last image written was. The ramdisk of an image that was not
  written by the updater is the device's own part; one that was already has it in `device`.

A checksum stands for what it was taken of. Downloads, room on the disk and the checks of a bundle
come in as answers. `write_boot` leaves the old or the new image. A directory that is being filled
or emptied can be found with anything in it. Tags, kernel choices and the kept AVB data play no
part.
-/

namespace Mu300.KernelStep

open Shell Crash Crash.Prog

/-! ## Kernels, images, bundles -/

structure Module where
  name : Text
  content : Text
  deriving DecidableEq

@[ext]
structure Kernel where
  /-- `uname -r` -/
  release : Text
  /-- `uname -v`: the number of the build, and its time -/
  version : Text
  /-- a version starts with the number sign, and has no other -/
  numbered : ∃ w, version = '#' :: w ∧ '#' ∉ w
  deriving DecidableEq

def Kernel.front (k : Kernel) : Text :=
  ['L', 'i', 'n', 'u', 'x', ' ', 'v', 'e', 'r', 's', 'i', 'o', 'n', ' '] ++ k.release ++ [' ']

/-- The banner: what is known of a kernel from its image. -/
def Kernel.banner (k : Kernel) : Text := k.front ++ k.version

/-- Part of a ramdisk: LZ4 archives are unpacked one after the other. -/
abbrev Segment := Text

structure Image where
  kernel : Kernel
  ramdisk : List Segment
  deriving DecidableEq

/-- A boot bundle of a release. -/
structure Bundle where
  /-- `./Image` -/
  kernel : Kernel
  /-- `./ramdisk-generic.lz4` -/
  generic : Segment
  /-- `./modules`, in a bundle with a `./kernel.release` -/
  modules : Option (List Module)

/-- `$id`. -/
def Bundle.id (b : Bundle) : Kernel × Segment := (b.kernel, b.generic)

/-- `$_krel`. -/
abbrev Bundle.release (b : Bundle) : Text := b.kernel.release

/-- `case $_krel in ''|*/*|.*)`. -/
def validRelease (r : Text) : Bool := r ≠ [] && '/' ∉ r && r.head? ≠ some '.'

/-- `5.4.*|.*`: sets that are the systems' own. -/
def ownRelease (r : Text) : Bool := ['5', '.', '4', '.'].isPrefixOf r || r.head? = some '.'

/-! ## The disk -/

/-- A set of modules kept with an image: `kernel.release`, and a directory for each system that
had modules of it. -/
structure KeptSet where
  release : Option Text
  sets : System → Option (List Module)

/-- A boot image read from the slot. -/
structure Body where
  image : Image
  /-- what it ran with: the module directories at that time -/
  dirs : System → Text → List Module

/-- What the programs read and write. -/
structure State where
  /-- the boot partition of the Linux slot -/
  slot : Image
  /-- the kernel that runs -/
  running : Kernel
  /-- `modules_dir OS KREL`, where there is such a directory -/
  sets : System → Text → Option (List Module)
  /-- the same in the copy kept of a system, `OS.old` -/
  oldSets : System → Text → List Module
  /-- `prev.body` -/
  prevBody : Option Body
  prevModules : Option KeptSet
  prevModulesNew : Option KeptSet
  /-- `modules.pending`: a release and a banner -/
  pending : Option (Text × Text)
  /-- `$STAGE/boot`: the release and the modules of an unpacked bundle -/
  staged : Option (Text × List Module)
  /-- `written.sha256` -/
  written : Option Image
  /-- `installed.id` -/
  installedId : Option (Kernel × Segment)
  /-- `device-ramdisk.lz4` -/
  device : Option (List Segment)
  /-- two things that belong together are being changed one after the other, with no mark -/
  apart : Bool

/-- How the outside answers a step. -/
structure Answer where
  /-- a check, a download, an unpacking -/
  works : Bool
  /-- links to modules, or copies of them -/
  links : Bool
  /-- writing a boot image, with the verification -/
  writes : Bool
  /-- a write that failed left the new image all the same -/
  leavesNew : Bool
  /-- writing the image before back, after a write that failed -/
  writesBack : Bool
  /-- what is in a directory under way -/
  junk : List Module
  junkKept : KeptSet
  /-- the stale sets that are gone already -/
  gone : Text → Bool

namespace State

/-- The modules in a system's directory of a release. -/
def modules (s : State) (os : System) (r : Text) : List Module := (s.sets os r).getD []

/-- A directory of modules with other content. -/
def put (s : State) (os : System) (r : Text) (ms : List Module) : State :=
  { s with sets := fun o q => if o = os ∧ q = r then some ms else s.sets o q }

/-- `rm -rf` of a system's directories of some releases. -/
def remove (s : State) (os : System) (rs : Text → Bool) : State :=
  { s with sets := fun o q => if o = os ∧ rs q then none else s.sets o q }

/-- The kept set a release would be put back from. -/
def keptFor (s : State) (r : Text) : Option KeptSet :=
  [s.prevModulesNew, s.prevModules].findSome? fun kept =>
    kept.bind fun kept => if kept.release = some r then some kept else none

/-- Releases that an image, or what runs, needs the sets of. -/
def needs (s : State) (r : Text) : Bool :=
  r = s.slot.kernel.release || r = s.running.release ||
    s.prevBody.any fun body => r = body.image.kernel.release

/-- `boot_sets_stale`: a set that nothing needs. -/
def stale (s : State) (more : Option Text) (os : System) (r : Text) : Bool :=
  !ownRelease r && !s.needs r && some r ≠ more && s.modules os r ≠ []

end State

/-- `modules_done`. -/
def State.done (s : State) : State := { s with pending := none }

variable (systems : List System)

/-! ## Sets of modules -/

section Sets

def works : Prog Answer State Bool := look fun e _ => e.works

/-- `rm -f DIR/*.ko`, and other modules into the directory, in one system: in a directory that is
made when it is not there, or only in one that is. -/
def refill (links : Answer → Bool) (onlyThere : Bool) (r : Text) (ms : System → List Module)
    (os : System) : Prog Answer State Bool := do
  if ← test (fun s => onlyThere ∧ s.sets os r = none) then return true
  else do
    op (fun e s => s.put os r e.junk) fun _ _ => ()
    op (fun e s => if links e then s.put os r (ms os) else s) fun e _ => links e

/-- With the modules of a bundle: `mod_link`, which may fail. -/
def replace (r : Text) (ms : List Module) : System → Prog Answer State Bool :=
  refill (·.links) false r fun _ => ms

/-- With the modules of a bundle, and nobody looks whether it worked. -/
def putIn (r : Text) (ms : List Module) : System → Prog Answer State Bool :=
  refill (fun _ => true) false r fun _ => ms

/-- With the modules that were kept. -/
def putBack (r : Text) (kept : Option KeptSet) : System → Prog Answer State Bool :=
  refill (fun _ => true) true r fun os => (kept.bind (·.sets os)).getD []

def kernelModulesIntoSystems (r : Text) (ms : List Module) : Prog Answer State Bool :=
  if validRelease r then each (replace r ms) systems else return false

def prevModulesRestore (kept : Option KeptSet) : Prog Answer State Bool :=
  match kept.bind (·.release) with
  | none => return true
  | some r => if validRelease r then each (putBack r kept) systems else return true

/-- What `prev_modules_save` keeps of a release. -/
def saved (s : State) (r : Text) : KeptSet where
  release := some r
  sets os := if os ∈ systems ∧ s.modules os r ≠ [] then some (s.modules os r) else none

variable (b : Bundle)

def prevModulesSave : Prog Answer State Bool := do
  op (fun e s => { s with prevModulesNew := some e.junkKept }) fun _ _ => ()
  if b.modules.isSome ∧ validRelease b.release then
    if ← works then
      act fun s => { s with prevModulesNew := some (saved systems s b.release) }
      return true
    else
      act fun s => { s with prevModulesNew := none }
      return false
  else
    act fun s => { s with prevModulesNew := none }
    return true

/-- `prev_modules_commit`, and the image that the set belongs to. -/
def prevModulesCommit (body : Body) : Prog Answer State Unit := do
  op (fun e s => { s with prevModules := some e.junkKept, apart := true }) fun _ _ => ()
  act fun s => { s with prevModules := none }
  act fun s => { s with prevModules := s.prevModulesNew, prevModulesNew := none }
  act fun s => { s with prevBody := some body, apart := false }

/-- `kernel_sets_remove $(boot_sets_stale)`, in one system: set after set. -/
def removeStale (more : Option Text) (os : System) : Prog Answer State Bool := do
  let stale ← look fun _ s => s.stale more os
  op (fun e s => s.remove os fun q => stale q && e.gone q) fun _ _ => ()
  act fun s => s.remove os stale
  return true

/-- `kernel_set_from_old`, in one system. -/
def setFromOld (r : Text) (os : System) : Prog Answer State Bool := do
  let s ← look fun _ s => s
  if validRelease r ∧ s.modules os r = [] ∧ s.oldSets os r ≠ [] then
    let _ ← replace r (s.oldSets os r) os
    return true
  else return true

def bootKeptDrop (more : Option Text) : Prog Answer State Unit := do
  op (fun e s => { s with prevModules := some e.junkKept, apart := true }) fun _ _ => ()
  act fun s => { s with prevModules := none }
  act fun s => { s with prevBody := none, apart := false }
  let _ ← each (removeStale more) systems
  return ()

/-! ## What is done about a pending mark -/

/-- `modules_settle` of `boot/init`, before a module of the system is loaded. -/
def settleInit : Prog Answer State Unit := do
  let s ← look fun _ s => s
  match s.pending with
  | none => return ()
  | some (r, banner) =>
    if !validRelease r then act State.done
    else if s.running.release = r ∧ (' ' :: s.running.version).isSuffixOf banner then
      let ms := (s.staged.map Prod.snd).getD []
      if ms = [] then act State.done
      else do
        let _ ← each (putIn r ms) systems
        act State.done
    else do
      let _ ← each (putBack r (s.keptFor r)) systems
      act State.done

/-- `modules_settle` of `mu300-update`. -/
def settle : Prog Answer State Bool := do
  let s ← look fun _ s => s
  match s.pending with
  | none => return true
  | some (r, banner) =>
    if !validRelease r then
      act State.done
      return true
    else if ← works then
      if s.slot.kernel.banner = banner then
        match s.staged with
        | none =>
          act State.done
          return false
        | some (r', ms) =>
          if r' = r ∧ ms ≠ [] then
            if ← kernelModulesIntoSystems systems r ms then
              act State.done
              return true
            else return false
          else
            act State.done
            return false
      else do
        let _ ← each (putBack r (s.keptFor r)) systems
        act State.done
        return true
    else return false

/-! ## The commands -/

def writeBoot (image : Image) : Prog Answer State Bool :=
  op (fun e s => if e.writes || e.leavesNew then { s with slot := image } else s)
    fun e _ => e.writes

/-- `modules_pending`, for a bundle with modules. -/
def modulesPending : Prog Answer State Unit :=
  act fun s => { s with pending := some (b.release, b.kernel.banner) }

/-- What an earlier step left over goes. -/
def clearStage : Prog Answer State Unit := do
  op (fun e s => { s with staged := none, prevModulesNew := some e.junkKept }) fun _ _ => ()
  act fun s => { s with prevModulesNew := none }

/-- The sets of the image in the slot are completed, and those go that nothing needs. -/
def tidySets : Prog Answer State Unit := do
  let r ← look fun _ s => s.slot.kernel.release
  let _ ← each (setFromOld r) systems
  let _ ← each (removeStale none) systems
  return ()

/-- `boot_room`: the kept image may have to go for it. -/
def bootRoom : Prog Answer State Unit := do
  if ← works then return ()
  else bootKeptDrop systems (b.modules.map fun _ => b.release)

/-- The bundle is unpacked, and its modules looked at. -/
def unpack : Prog Answer State Bool := do
  op (fun e s => { s with staged := some (b.release, e.junk) }) fun _ _ => ()
  if ← works then
    act fun s => { s with staged := b.modules.map fun ms => (b.release, ms) }
    return true
  else return false

/-- The part of `boot_update_run` that gets and checks the bundle: it says whether to go on. -/
def prepare : Prog Answer State Bool := do
  -- the download, the device, the slot, the root
  if ← works then
    bootRoom systems b
    unpack b
  else return false

/-- The modules of a bundle that has any, behind a mark. -/
def newModules : Prog Answer State Bool :=
  match b.modules with
  | none => return true
  | some ms => do
    modulesPending b
    kernelModulesIntoSystems systems b.release ms

/-- The image in the slot is the bundle's: only its modules go in. -/
def upToDate : Prog Answer State Bool := do
  if ← newModules systems b then
    act State.done
    return true
  else return false

/-- The device's part of the ramdisk: the whole ramdisk of an image that is not the one written
last. -/
def takeDevice : Prog Answer State Bool := do
  if ← test (fun s => s.written ≠ some s.slot ∨ s.device = none) then
    if ← works then
      act fun s => { s with device := some s.slot.ramdisk }
      return true
    else return false
  else return true

/-- The image is written, and written down. -/
def writeNew (body : Body) (image : Image) : Prog Answer State Bool := do
  if ← writeBoot image then
    act fun s => { s with written := some image }
    act fun s => { s with installedId := some b.id }
    act State.done
    let _ ← each (removeStale none) systems
    return true
  else do
    op (fun e s => if e.writesBack then { s with slot := body.image } else s) fun _ _ => ()
    let kept ← look fun _ s => s.prevModules
    let _ ← prevModulesRestore systems kept
    act State.done
    return false

/-- The set in place is kept, the new one goes in, and the image after it. -/
def install (body : Body) : Prog Answer State Bool := do
  let device ← look fun _ s => s.device
  if ← works then
    if ← prevModulesSave systems b then
      if ← newModules systems b then
        prevModulesCommit body
        writeNew systems b body ⟨b.kernel, device.getD [] ++ [b.generic]⟩
      else do
        let kept ← look fun _ s => s.prevModulesNew
        let _ ← prevModulesRestore systems kept
        act State.done
        return false
    else return false
  else return false

def bootUpdateRun : Prog Answer State Bool := do
  if ← settle systems then
    clearStage
    -- the header and the footer of the image in the slot
    if ← works then
      tidySets systems
      if ← prepare systems b then
        let s ← look fun _ s => s
        if s.written = some s.slot ∧ s.installedId = some b.id then upToDate systems b
        else if ← takeDevice then install systems b ⟨s.slot, s.modules⟩
        else return false
      else return false
    else return false
  else return false

def bootUpdate : Prog Answer State Bool := do
  let ok ← bootUpdateRun systems b
  let ok' ← settle systems
  act fun s => { s with staged := none }
  act fun s => { s with prevModulesNew := none }
  return ok && ok'

def rollbackBoot : Prog Answer State Bool := do
  let s ← look fun _ s => s
  match s.prevBody with
  | none => return false
  | some body =>
    -- the slot the image came from, the partition
    if ← works then
      act fun s => { s with apart := true }
      if ← writeBoot body.image then
        let _ ← prevModulesRestore systems s.prevModules
        act fun s => { s with apart := false }
        act fun s => { s with written := some body.image }
        act fun s => { s with installedId := none }
        return true
      else
        act fun s' => { s' with apart := s'.slot ≠ s.slot }
        return false
    else return false

/-- The next boot of Linux runs the kernel in the slot. -/
def boot (s : State) : State := { s with running := s.slot.kernel }

end Sets

/-! ## Whole histories -/

/-- A command, or a boot. Each ends or is cut off where its answers end. -/
inductive Action : Type where
  | bootUpdate (b : Bundle) (es : List Answer)
  | rollbackBoot (es : List Answer)
  /-- the next boot of Linux -/
  | boot (es : List Answer)

/-- One command, or a boot. -/
def step (s : State) : Action → State
  | .bootUpdate b es => (exec (bootUpdate systems b) es s).state
  | .rollbackBoot es => (exec (rollbackBoot systems) es s).state
  | .boot es => (exec (settleInit systems) es (boot s)).state

def run (s : State) (as : List Action) : State := as.foldl (step systems) s

end Mu300.KernelStep
