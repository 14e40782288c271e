import Mathlib.Algebra.GroupWithZero.Nat
import Mu300.Carry.Paths
import Mu300.Lib.Awk

/-!
# The carry plan

`carry_plan` of `mu300-update`: what an update does with every entry of the old system. Two passes
say what must be hashed, the third one writes the plan.

* `Entry`, `Image`, `Scan` — a line of a scan, a line of the manifest, and a whole scan.
* `Tables` — what the program reads before the scan of the old system, and what hashing the two
  systems gives.
* `fallback`, `withManifest`, `blocked` — what becomes of an entry without a manifest, with one, and
  below a directory that cannot be there.
-/

namespace Mu300.Carry

open Shell FileTree

/-! ## Scans -/

/-- `TYPE`: file, directory, link, devices, fifo, socket, mount point. -/
inductive Typ : Type where
  | f
  | d
  | l
  | c
  | b
  | p
  | s
  | m
  deriving DecidableEq

abbrev Mode := Fin 4096

instance mode_neZero : NeZero 4096 := ⟨by decide⟩

structure Entry where
  t : Typ
  mode : Mode
  uid : ℕ
  gid : ℕ
  size : ℕ
  blocks : ℕ
  path : Text
  deriving DecidableEq

structure Image where
  t : Typ
  mode : Mode
  uid : ℕ
  gid : ℕ
  size : ℕ
  hash : Text
  path : Text
  deriving DecidableEq

/-- The scan of a system: every path once, and what it is in is a directory. -/
structure Scan where
  lines : List Entry
  nodup : (lines.map Entry.path).Nodup
  tree : ∀ e ∈ lines, ∀ d ∈ above e.path, ∃ e' ∈ lines, e'.path = d ∧ e'.t = .d

/-- A mount point is the directory it is. -/
def Typ.plain : Typ → Typ
  | .m => .d
  | t => t

/-- `hashable`: both are files, or both links. -/
def Typ.hashable (t t' : Typ) : Bool := t = t' && (t = .f || t = .l)

/-- An entry with its mount point taken for a directory. -/
def Entry.plain (e : Entry) : Entry := { e with t := e.t.plain }

/-- `ismask`: a unit the user masked. -/
def Entry.isMask (e : Entry) : Bool :=
  e.t = .l && e.size = 9 && named e.path ["etc/systemd/system", "etc/systemd/user"] fun _ => true

def octal (a : Mode) (i : ℕ) : ℕ := a.val / 8 ^ i % 8

/-- `narrower`: every permission bit of one mode is one of the other, and they are not the same. -/
def narrower (a b : Mode) : Bool :=
  a ≠ b && (List.range 4).all fun i => [4, 2, 1].all fun k => octal a i / k % 2 ≤ octal b i / k % 2

/-! ## Tables -/

/-- What the awk program of `carry_plan` reads. -/
structure Tables where
  kind : OsKind
  /-- the manifest of the old image, if there is one -/
  image : Option (List Image)
  old : Scan
  new : Scan
  /-- the paths of packages of the old system, with the package -/
  owned : List (Text × Text)
  /-- the same for the new system -/
  nown : List (Text × Text)
  /-- the configuration files of packages -/
  conf : List Text
  /-- the packages of the old system -/
  inst : List Text
  /-- the paths that the package manager has a sum of -/
  psum : List Text
  /-- the commands in `/usr/local/bin` -/
  cmds : List Text
  /-- `keep_list`, without a manifest -/
  keep : Text → Bool
  /-- the numbers that have a name in the old system, and in the new one -/
  oldUid : ℕ → Bool
  oldGid : ℕ → Bool
  newUid : ℕ → Bool
  newGid : ℕ → Bool
  /-- the numbers that change -/
  mapUid : ℕ → Option ℕ
  mapGid : ℕ → Option ℕ
  /-- `mu300-carry sum` of the two systems -/
  hashOld : Text → Text
  hashNew : Text → Text
  /-- the file is the one that the package manager put there -/
  packaged : Text → Bool

/-- `sum.old`, `sum.new` and `pksame`, as far as they were asked for. -/
structure Sums where
  so : Text → Option Text
  sn : Text → Option Text
  pksame : Text → Bool

/-- Both were hashed, and have one hash. -/
def Sums.agree (S : Sums) (p : Text) : Bool := (S.so p).isSome && S.so p = S.sn p

/-- What an entry is beside its image. -/
inductive State : Type where
  /-- not of the image -/
  | new
  /-- as it came -/
  | same
  /-- its content, but another owner or mode -/
  | attrs
  /-- changed -/
  | mod
  deriving DecidableEq

/-! ## What is printed -/

inductive Code : Type where
  | o
  | i
  | u
  | g
  | f
  | m
  | x
  | d
  | k
  | p
  | e
  | s
  deriving DecidableEq

/-- What blocks are written for: what is carried, set aside of the user, set aside of the
release. -/
inductive Room : Type where
  | l
  | h
  | s
  deriving DecidableEq

inductive Line : Type where
  /-- carry it to its place -/
  | L (p : Text)
  /-- the same, as a second name -/
  | V (p : Text)
  /-- an apt source added on the device -/
  | A (p : Text)
  /-- set the one of the user aside -/
  | H (p : Text)
  /-- set the one of the release aside first -/
  | S (p : Text)
  /-- remove it from the new system first -/
  | R (p : Text)
  /-- give the one of the new system this owner and mode -/
  | M (mode : Mode) (uid gid : ℕ) (p : Text)
  /-- a line of the report -/
  | r (code : Code) (what : Text)
  | n (blocks : ℕ) (kind : Room)
  | c (files packageFiles : ℕ)
  deriving DecidableEq

structure Counts where
  nl : ℕ
  nh : ℕ
  nsv : ℕ
  files : ℕ
  npkg : ℕ

def Counts.zero : Counts := ⟨0, 0, 0, 0, 0⟩

def Counts.add (a b : Counts) : Counts :=
  ⟨a.nl + b.nl, a.nh + b.nh, a.nsv + b.nsv, a.files + b.files, a.npkg + b.npkg⟩

/-- What is done about an entry: lines, counters, and the directory that cannot be there, with
whether that is still to be said. -/
structure Emit where
  lines : List Line
  counts : Counts
  block : Option (Text × Bool)

namespace Emit

def nothing : Emit := ⟨[], .zero, none⟩

def print (l : Line) : Emit := ⟨[l], .zero, none⟩

def andThen (a b : Emit) : Emit := ⟨a.lines ++ b.lines, a.counts.add b.counts, b.block <|> a.block⟩

/-- Nothing can be below a directory. -/
def blocking (a : Emit) (d : Text) : Emit := { a with block := some (d, false) }

/-- A file of a package, which comes back with it. -/
def packageFile : Emit := ⟨[], { Counts.zero with npkg := 1 }, none⟩

end Emit

namespace Tables

variable (T : Tables)

def fb : Bool := T.image.isNone

/-- `om[p]`. -/
def om (p : Text) : Option Image := Awk.last? Image.path p (T.image.getD [])

/-- `ns[p]`. -/
def ns (p : Text) : Option Entry := Awk.last? Entry.path p T.new.lines

/-- `p in owned`. -/
def isOwned (p : Text) : Bool := p ∈ T.owned.map Prod.fst

/-- Of a package, and none of its configuration files. -/
def ofPackage (p : Text) : Bool := T.isOwned p && !listed T.conf p

def state (so : Text → Option Text) (e : Entry) : State :=
  match T.om e.path with
  | none => .new
  | some m =>
    if m.t ≠ e.t.plain then .mod
    else if e.t = .f ∧ (m.size ≠ e.size ∨ so e.path ≠ some m.hash) then .mod
    else if e.t = .l ∧ so e.path ≠ some m.hash then .mod
    else if m.uid ≠ e.uid ∨ m.gid ≠ e.gid ∨ (e.t ≠ .l ∧ m.mode ≠ e.mode) then .attrs
    else .same

variable (S : Sums) (e : Entry)

def sameAsNew : Bool :=
  match T.ns e.path with
  | none => false
  | some n =>
    n.t = e.t &&
      match e.t with
      | .f => n.size = e.size && S.agree e.path
      | .l => S.agree e.path
      | t => t ≠ .d

def newIsOldImage (p : Text) : Bool :=
  match T.om p, T.ns p with
  | some m, some n =>
    m.t = n.t &&
      match m.t with
      | .f => m.size = n.size && S.sn p = some m.hash
      | .l => S.sn p = some m.hash
      | _ => true
  | _, _ => false

/-- The image has a directory there. -/
def wasDir (p : Text) : Bool := (T.om p).any fun m => m.t = .d

/-- `foreign`: the number has no name in the old system, and an account of the new one has it. -/
def foreign : Bool :=
  (!T.oldUid e.uid && T.newUid e.uid) || (!T.oldGid e.gid && T.newGid e.gid)

/-- `wins`: the version of the user is the one in use. -/
def wins : Bool :=
  e.isMask ||
    (userarea e.path && !project T.cmds e.path && !aptsrc e.path && !pamCommon e.path &&
      !(e.t = .f && script e.path && T.ofPackage e.path &&
        (T.om e.path).all fun m => m.t = .f))

/-- A mode that the user narrowed stays narrowed. -/
def narrowed : List Line :=
  match T.ns e.path with
  | none => []
  | some n =>
    if e.t = .f ∧ n.t = .f ∧ narrower e.mode n.mode then [.M e.mode n.uid n.gid e.path] else []

def hold (why : Option Code) : Emit where
  lines := .H e.path :: (why.toList.map fun c => .r c e.path) ++ T.narrowed e
  counts := { Counts.zero with nh := e.blocks }
  block := none

def live : Emit :=
  if T.foreign e then
    if e.t = .d then (T.hold e (some .o)).blocking e.path else T.hold e (some .o)
  else if e.t = .f ∧ vendor T.kind e.path then
    ⟨[.V e.path], { Counts.zero with files := 1 }, none⟩
  else
    ⟨[.L e.path], if e.t ≠ .d then { Counts.zero with nl := e.blocks, files := 1 } else .zero, none⟩

def save (p : Text) : Emit :=
  match T.ns p with
  | none => .print (.S p)
  | some n =>
    if n.t ≠ .d then ⟨[.S p], { Counts.zero with nsv := n.blocks }, none⟩ else .nothing

/-- `meta`: the owner and mode the user gave an image file. -/
def metaOf : Emit :=
  match T.ns e.path with
  | none => .nothing
  | some n =>
    if e.t = .l ∨ n.t ≠ e.t then .nothing
    else if T.wins e ∧ ¬ T.foreign e then
      .print (.M e.mode ((T.mapUid e.uid).getD e.uid) ((T.mapGid e.gid).getD e.gid) e.path)
    else if narrower e.mode n.mode then .print (.M e.mode n.uid n.gid e.path)
    else if e.mode ≠ n.mode ∨ e.uid ≠ n.uid ∨ e.gid ≠ n.gid then .print (.r .m e.path)
    else .nothing

/-! ## Decisions -/

/-- `fallback` of the third pass. -/
def fallback : Emit :=
  let p := e.path
  -- the places an update always kept, and what protects the device
  let k := e.isMask ||
    ((T.keep p || secure p) && !project T.cmds p && !script p && !pamCommon p)
  if e.t.plain = .d then
    let e := e.plain
    match T.ns p with
    | none =>
      if aptsrc p then .print (.A p)
      else if T.isOwned p then .nothing
      else if project T.cmds p && !vendor T.kind p then (T.hold e (some .f)).blocking p
      else T.live e
    | some n =>
      if n.t = .d then .nothing
      else if k then (Emit.print (.R p)).andThen (T.live e)
      else (T.hold e (some .i)).blocking p
  else
    match T.ns p with
    | none =>
      if aptsrc p then .print (.A p)
      else if vendor T.kind p then T.live e
      else if T.ofPackage p then .packageFile
      else if project T.cmds p then T.hold e (some .f)
      else T.live e
    | some n =>
      if T.sameAsNew S e then ⟨T.narrowed e, .zero, none⟩
      else if vendor T.kind p || S.pksame p then .nothing
      else if n.t = .d then T.hold e (some .i)
      else if k then T.live e
      else T.hold e (some .f)

def directoryEntry (st : State) (e : Entry) : Emit :=
  let p := e.path
  let mine := st = .mod || (st = .new && !T.isOwned p)
  match T.ns p with
  | none => if mine then T.live e else .nothing
  | some n =>
    if n.t ≠ .d then
      -- the release has a file or a link where the old system has a directory
      if mine && T.wins e then
        (((T.save p).andThen (.print (.R p))).andThen (T.live e)).andThen (.print (.r .u p))
      else if mine then (T.hold e (some .i)).blocking p
      else { Emit.nothing with block := some (p, true) }
    else if st = .attrs then T.metaOf e
    else .nothing

/-- Something that is not of the image. -/
def newEntry : Emit :=
  let p := e.path
  match T.ns p with
  | none =>
    if vendor T.kind p then T.live e
    else if T.ofPackage p then .packageFile
    else T.live e
  | some n =>
    if vendor T.kind p then .nothing
    else if T.ofPackage p then .packageFile
    else if T.sameAsNew S e then .nothing
    else if n.t = .d || !T.wins e then T.hold e (some .i)
    else ((T.save p).andThen (T.live e)).andThen (.print (.r .u p))

/-- Something of the image, changed by the user. -/
def changedEntry : Emit :=
  let p := e.path
  if S.pksame p then .nothing
  else if vendor T.kind p || !T.wins e then
    if T.sameAsNew S e then .nothing else T.hold e (some .i)
  else
    match T.ns p with
    | none => (T.live e).andThen (.print (.r .g p))
    | some n =>
      if T.sameAsNew S e then .nothing
      else if n.t = .d then
        -- the user replaced a directory of the image by something else
        if T.wasDir p then ((Emit.print (.R p)).andThen (T.live e)).andThen (.print (.r .u p))
        else T.hold e (some .i)
      else if T.newIsOldImage S p || quiet p then T.live e
      else ((T.save p).andThen (T.live e)).andThen (.print (.r .u p))

/-- An entry of the old system, with a manifest. -/
def withManifest : Emit :=
  let st := T.state S.so e
  if e.t.plain = .d then T.directoryEntry st e.plain
  else
    match st with
    | .same => .nothing
    | .attrs => T.metaOf e
    | .new => if aptsrc e.path then .print (.A e.path) else T.newEntry S e
    | .mod =>
      if aptsrc e.path then if T.sameAsNew S e then .nothing else T.hold e (some .i)
      else T.changedEntry S e

def skipped : Bool := e.t = .s || never T.kind e.path || other e.path

/-- Below a directory that cannot be there: what is not the image there is set aside. -/
def heldBelow : Bool :=
  !T.skipped e && !vendor T.kind e.path && (T.fb || T.state S.so e ≠ .same) &&
    !((T.om e.path).isNone && T.ofPackage e.path)

/-! ## The third pass -/

structure Run where
  lines : List Line
  counts : Counts
  block : Option (Text × Bool)
  /-- directories of the image that the user replaced -/
  retyped : List Text

def Run.start : Run := ⟨[], .zero, none, []⟩

/-- An entry that is not below such a directory. -/
def fresh (r : Run) (e : Entry) : Run :=
  if T.skipped e then { r with block := none }
  else
    let o := if T.fb then T.fallback S e else T.withManifest S e
    { lines := r.lines ++ o.lines
      counts := r.counts.add o.counts
      block := o.block
      retyped := if !T.fb && e.t.plain ≠ .d && T.state S.so e = .mod && !aptsrc e.path &&
        T.wasDir e.path then e.path :: r.retyped else r.retyped }

def blocked (r : Run) (b : Text) (pending : Bool) (e : Entry) : Run :=
  if T.heldBelow S e then
    let o := (if pending then Emit.print (.r .x b) else .nothing).andThen (T.hold e none)
    { r with
      lines := r.lines ++ o.lines
      counts := r.counts.add o.counts
      block := some (b, false) }
  else r

def step (r : Run) (e : Entry) : Run :=
  match r.block with
  | some (b, pending) => if below b e.path then T.blocked S r b pending e else T.fresh S r e
  | none => T.fresh S r e

def runOver (es : List Entry) : Run := es.foldl (T.step S) .start

/-- The old system has it, as its image did. -/
def seen (p : Text) : Bool := (T.om p).isSome && p ∈ T.old.lines.map Entry.path

/-- What the image had and the old system has not. -/
def gone : List Text :=
  (Awk.keys Image.path (T.image.getD [])).filter fun p => !T.seen p

/-- Something deleted that the new system has, and that is none of what comes back by itself. -/
def deletedThere (retyped : List Text) (p : Text) : Bool :=
  directory p ∉ T.gone && directory p ∉ retyped && (T.ns p).isSome && !never T.kind p && !other p &&
    !vendor T.kind p && !quiet p && !under p ["etc/uci-defaults"]

/-- The package of the new system that a deleted file is of, if the old system did not have it. -/
def removedPackage (p : Text) : Option Text :=
  (T.nown.reverse.lookup p).filter fun a => a ∉ T.inst

/-- The packages that the user removed and that are back. -/
def back (retyped : List Text) : List Text :=
  ((T.gone.filter (T.deletedThere retyped)).filterMap T.removedPackage).dedup

/-- What is done about something deleted. -/
def deleted (p : Text) : List Line :=
  if (T.removedPackage p).isSome || !userarea p then []
  else if enableLink p || (!project T.cmds p && !aptsrc p && !script p &&
      (p ∉ T.nown.map Prod.fst || T.isOwned p)) then
    [.R p, .r .d p]
  else [.r .k p]

/-- The services of packages that are back: those the old system had too, or those it had not. -/
def services (back : List Text) (had : Bool) : List Text :=
  ((T.nown.map Prod.fst).filter fun p =>
    (T.nown.reverse.lookup p).any (· ∈ back) && serviceFile p && T.seen p == had).map basename

/-- `had`, without a manifest. -/
def had (p : Text) : Bool :=
  p ∈ T.old.lines.map Entry.path && (enableLink p || serviceFile p || under p ["etc/sudoers.d"])

/-- `known`: the services of the old system, without a manifest. -/
def known : List Text :=
  ((T.old.lines.map Entry.path).filter fun p => T.had p && serviceFile p).map basename

/-- What is done about an enable link of the new system. -/
def linkLines (back : List Text) (p : Text) : List Line :=
  let b := serviceOf p
  if b ∈ T.services back false then [.R p]
  else if b ∈ T.services back true && !T.seen p then [.R p]
  else if T.fb && !T.had p && b ∈ T.known then [.R p, .r .e p]
  else []

/-- A grant of sudo that the old system did not have. -/
def sudoLines : List Line :=
  if T.fb && named e.path ["etc/sudoers.d"] (fun _ => true) && !T.had e.path && e.t ≠ .d then
    [.R e.path, .r .s e.path]
  else []

/-- `END`. -/
def ending (r : Run) : List Line :=
  let back := T.back r.retyped
  (T.gone.filter (T.deletedThere r.retyped)).flatMap T.deleted ++
  back.map (.r .p) ++
  ((T.new.lines.map Entry.path).filter enableLink).flatMap (T.linkLines back) ++
  T.new.lines.flatMap T.sudoLines ++
  [.n r.counts.nl .l, .n r.counts.nh .h, .n r.counts.nsv .s, .c r.counts.files r.counts.npkg]

/-! ## The passes -/

/-- The paths that a pass asks for. -/
def asked (ask : Entry → Bool) (p : Text) : Bool :=
  T.old.lines.any fun e => e.path = p && !T.skipped e && ask e

/-- The old and the new one have to be compared by their hashes. -/
def comparable : Bool :=
  (T.ns e.path).any fun n => e.t.hashable n.t && (e.t = .l || n.size = e.size)

/-- `O` of the first pass. -/
def askOld : Bool :=
  if T.fb then T.comparable e
  else (T.om e.path).any fun m => e.t.hashable m.t && (e.t = .l || m.size = e.size)

/-- What the first pass had hashed. -/
def first : Sums where
  so := fun p => if T.asked T.askOld p then some (T.hashOld p) else none
  sn := fun p => if T.fb && T.asked T.comparable p then some (T.hashNew p) else none
  pksame := fun _ => false

/-- What the second pass goes on with. -/
def undecided : Bool := !T.fb && (T.state T.first.so e = .new || T.state T.first.so e = .mod)

/-- `O` of the second pass. -/
def askOld2 : Bool := T.undecided e && T.comparable e

/-- `N` of the second pass. -/
def askNew2 : Bool := T.undecided e && (T.ns e.path).any fun n => n.t = .f || n.t = .l

/-- `K`. -/
def askPackage : Bool :=
  e.t = .f && e.path ∈ T.psum &&
    if T.fb then (T.ns e.path).isSome && !T.sameAsNew T.first e else T.state T.first.so e = .mod

def sums : Sums where
  so := fun p => if T.asked T.askOld p || T.asked T.askOld2 p then some (T.hashOld p) else none
  sn := fun p =>
    if (T.fb && T.asked T.comparable p) || T.asked T.askNew2 p then some (T.hashNew p) else none
  pksame := fun p => T.asked T.askPackage p && T.packaged p

/-- **The plan.** -/
def plan : List Line :=
  let r := T.runOver T.sums T.old.lines
  r.lines ++ T.ending r

end Tables

end Mu300.Carry
