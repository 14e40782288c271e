import Mathlib.Algebra.Group.Nat.Defs
import Mu300.Delta.Archive
import Mu300.Lib.Disk
import Mu300.Lib.Probing

/-!
# Copying what is carried

`mu300-carry copy SRC DST [IDMAP] < PATHS`: everything on the list becomes at `DST` what it is at
`SRC`.

* `Source` — the tree that is copied from: names, devices with inodes, and the number of names of an
  inode.
* `Env` — who runs it, which calls fail, and where a link leads.
* `copyPath`, `settle`, `cmdCopy` — one path of the list, a directory at the end, and all of it.

The first names of files with several go into a hash table (`seen_slot`, `seen_add`). A path stands
here as it is, without `unescape`, which refuses one that is not plain. The bytes of a file are one
text, its holes in it.
-/

namespace Mu300.CarryCopy

open Shell FileTree

/-! ## Trees -/

inductive Kind : Type where
  | dir
  | file (content : List UInt8)
  | link (target : Text)
  /-- a device or a FIFO -/
  | device (what : ℕ)
  | socket
  deriving DecidableEq

def Kind.isLink : Kind → Bool
  | link _ => true
  | _ => false

def Kind.isFile : Kind → Bool
  | file _ => true
  | _ => false

/-- An inode. The mode has twelve bits. -/
structure Node where
  kind : Kind
  uid : ℕ
  gid : ℕ
  mode : ℕ
  xattrs : List (Text × List UInt8)
  time : ℕ

def Node.isDir (n : Node) : Bool := n.kind = .dir

abbrev Key := ℕ × ℕ

structure Source where
  names : Text → Option Key
  node : Key → Node
  nlink : Key → ℕ
  /-- an inode with two names has a count of more than one -/
  links : ∀ p q k, names p = some k → names q = some k → p ≠ q → 1 < nlink k
  /-- a directory has one name -/
  one_name : ∀ p q k, names p = some k → names q = some k → (node k).kind = .dir → p = q

/-- There is a directory at a place. -/
def Source.isDir (src : Source) (p : Text) : Bool := (src.names p).any fun k => (src.node k).isDir

/-- What is at a path, where no part of the way is a link. -/
def Source.find (src : Source) (p : Text) : Option Key :=
  if (above p).all src.isDir then src.names p else none

/-! ## The system -/

inductive Errno : Type where
  | EPERM
  | EACCES
  | ENOTSUP
  | ENODATA
  | other
  deriving DecidableEq

inductive Call : Type where
  | look
  | mkdir
  | unlink
  | readlink
  | symlink
  | linkat
  | create
  | write
  | mknod
  | chown
  | chmod
  | listxattr
  | getxattr (name : Text)
  | setxattr (name : Text)
  | utimens

inductive IdKind : Type where
  | u
  | g
  deriving DecidableEq

structure IdLine where
  kind : IdKind
  old : ℕ
  new : ℕ

structure Env where
  root : Bool
  /-- the owner of what is made -/
  me : ℕ × ℕ
  now : ℕ
  idmap : List IdLine
  fails : Call → Text → Option Errno
  /-- a file is gone when it is opened -/
  vanishes : Text → Bool
  /-- the inode that a path with a link in it leads to -/
  leads : Disk Node.isDir → Text → Option ℕ

variable (env : Env)

def Env.lax : Bool := !env.root

def Env.mapId (kind : IdKind) (id : ℕ) : ℕ :=
  match env.idmap.find? fun l => l.kind = kind && l.old = id with
  | some l => l.new
  | none => id

/-- The owner gets another number. -/
def Env.moved (st : Node) : Bool := env.mapId .u st.uid ≠ st.uid || env.mapId .g st.gid ≠ st.gid

/-! ## Attributes -/

/-- The bits that set the user and the group. -/
def setIds : ℕ := 0o6000

def capability : Text := "security.capability"

def selinux : Text := "security.selinux"

/-- Another owner: the bits and the capability of what is not a directory go with it. -/
def Node.chown (uid gid : ℕ) (n : Node) : Node :=
  { n with
    uid := uid
    gid := gid
    mode := if n.isDir then n.mode else n.mode &&& 0o1777
    xattrs := if n.isDir then n.xattrs else n.xattrs.filter fun a => a.1 ≠ capability }

def Node.setXattr (a : Text × List UInt8) (n : Node) : Node :=
  { n with xattrs := a :: n.xattrs.filter fun b => b.1 ≠ a.1 }

/-- `fchmodat`, which follows a link. -/
def chmodAt (d : Disk Node.isDir) (p : Text) (mode : ℕ) : Option (Disk Node.isDir) :=
  match d.node p with
  | none => none
  | some n =>
    if n.kind.isLink then
      (env.leads d p).map fun i =>
        { d with store := d.store.modify i fun m => { m with mode := mode } }
    else some (d.modify p fun m => { m with mode := mode })

/-- One attribute. The capability of a file whose owner moved is not set. -/
def setAttr (moved : Bool) (p : Text) (s : Disk Node.isDir × Bool) (a : Text × List UInt8) :
    Option (Disk Node.isDir × Bool) :=
  if moved && a.1 = capability then some (s.1, true)
  else if (env.fails (.getxattr a.1) p).isSome then none
  else
    match env.fails (.setxattr a.1) p with
    | none => some (s.1.modify p (Node.setXattr a), s.2)
    | some e =>
      if a.1 = selinux || env.lax && e ∈ [Errno.EPERM, .ENOTSUP, .EACCES] then some s else none

/-- The bits of users and groups are taken. -/
def Env.strips (st : Node) : Bool := env.moved st && decide (st.mode &&& setIds ≠ 0)

def Env.modeFor (st : Node) : ℕ := if env.strips st then st.mode &&& 0o1777 else st.mode

def copyOwner (p : Text) (st : Node) (d : Disk Node.isDir) : Option (Disk Node.isDir) :=
  match env.fails .chown p with
  | none => some (d.modify p (Node.chown (env.mapId .u st.uid) (env.mapId .g st.gid)))
  | some _ => if env.lax then some d else none

def copyMode (p : Text) (st : Node) (d : Disk Node.isDir) : Option (Disk Node.isDir) :=
  if st.kind.isLink then some d
  else if (env.fails .chmod p).isSome then none
  else chmodAt env d p (env.modeFor st)

def copyXattrs (p : Text) (st : Node) (d : Disk Node.isDir) : Option (Disk Node.isDir × Bool) :=
  match env.fails .listxattr p with
  | none => st.xattrs.foldlM (setAttr env (env.moved st) p) (d, env.strips st)
  | some e => if e ∈ [Errno.ENOTSUP, .ENODATA] then some (d, env.strips st) else none

def copyTimes (p : Text) (st : Node) (d : Disk Node.isDir) : Option (Disk Node.isDir) :=
  if (env.fails .utimens p).isSome || (d.names p).isNone then none
  else some (d.modify p fun m => { m with time := st.time })

/-- `copy_meta`, and whether rights were taken: the owner first, since it clears bits and
capabilities. -/
def copyMeta (p : Text) (st : Node) (d : Disk Node.isDir) : Option (Disk Node.isDir × Bool) :=
  (copyOwner env p st d).bind fun d =>
    (copyMode env p st d).bind fun d =>
      (copyXattrs env p st d).bind fun (d, took) => (copyTimes env p st d).map fun d => (d, took)

/-! ## The names of one file -/

/-- The hash of `seen_slot`; the remainder by the capacity, a power of two, is taken there. -/
def seenHash (k : Key) : ℕ := (k.2 * 2654435761 % 2 ^ 64) ^^^ k.1

def seenFirst : ℕ := 1024

/-! ## One path -/

/-- What a run of `copy` goes on with. -/
structure State where
  disk : Disk Node.isDir
  seen : Probing.Table Key Text := {}
  /-- directories to give their attributes to at the end -/
  later : List Text := []
  /-- the paths that lost their rights -/
  said : List Text := []
  entries : ℕ := 0
  gone : ℕ := 0

/-- A name in its directory, or out of it: the directory has a new time. -/
def stamp (p : Text) (d : Disk Node.isDir) : Disk Node.isDir :=
  d.modify (directory p) fun m => { m with time := env.now }

def make (kind : Kind) (mode : ℕ) (p : Text) (d : Disk Node.isDir) : Disk Node.isDir :=
  stamp env p (d.create p ⟨kind, env.me.1, env.me.2, mode, [], env.now⟩)

def enterPart (s : State) (part : Text) : Option State :=
  match s.disk.node part with
  | some n => if n.isDir then some s else none
  | none =>
    if (env.fails .mkdir part).isSome then none
    else some { s with disk := make env .dir 0o700 part s.disk, later := s.later ++ [part] }

/-- `parent_of`, where what is missing is made. -/
def parentOf (p : Text) (s : State) : Option State := (above p).foldlM (enterPart env) s

/-- What is at the path goes; a directory only stays for a directory. -/
def clear (st : Node) (p : Text) (s : State) : Option State :=
  match s.disk.node p with
  | none => some s
  | some n =>
    if n.isDir then if st.isDir then some s else none
    else if (env.fails .unlink p).isSome then none
    else some { s with disk := stamp env p (s.disk.remove p) }

/-- The attributes of what was made. -/
def State.attributes (p : Text) (st : Node) (s : State) : Option State :=
  (copyMeta env p st s.disk).map fun (d, took) =>
    { s with disk := d, said := if took then s.said ++ [p] else s.said }

/-- `linkat` from the root: the way may lead over links, the name itself is not followed. -/
def inodeOf (d : Disk Node.isDir) (p : Text) : Option ℕ :=
  if (above p).all (d.isDir) then d.names p else env.leads d p

variable (src : Source)

def copyNew (k : Key) (content : List UInt8) (p : Text) (s : State) : Option State :=
  if env.vanishes p then some { s with gone := s.gone + 1, entries := s.entries - 1 }
  else if (env.fails .create p).isSome || (env.fails .write p).isSome then none
  else do
    let s ← { s with disk := make env (.file content) 0o600 p s.disk }.attributes env p (src.node k)
    if 1 < src.nlink k then some { s with seen := s.seen.add seenHash seenFirst k p } else some s

/-- A regular file: another name of one that is there already, or a copy. -/
def copyFile (k : Key) (content : List UInt8) (p : Text) (s : State) : Option State :=
  match (if 1 < src.nlink k then s.seen.find seenHash k else none) with
  | some first =>
    if (env.fails .linkat p).isSome then none
    else (inodeOf env s.disk first).map fun i => { s with disk := stamp env p (s.disk.link p i) }
  | none => copyNew env src k content p s

/-- What the path is, at a place that is free. -/
def copyNode (k : Key) (p : Text) (s : State) : Option State :=
  let st := src.node k
  match st.kind with
  | .dir =>
    -- a directory that is there is not made again
    if s.disk.isDir p then some { s with later := s.later ++ [p] }
    else if (env.fails .mkdir p).isSome then none
    else some { s with disk := make env .dir 0o700 p s.disk, later := s.later ++ [p] }
  | .link target =>
    if (env.fails .readlink p).isSome || (env.fails .symlink p).isSome then none
    else { s with disk := make env (.link target) 0o777 p s.disk }.attributes env p st
  | .file content => copyFile env src k content p s
  | .device what =>
    if (env.fails .mknod p).isSome then if env.lax then some s else none
    else { s with disk := make env (.device what) st.mode p s.disk }.attributes env p st
  | .socket => some s

def copyPath (s : State) (p : Text) : Option State :=
  if !Delta.plainParts p || (env.fails .look p).isSome then none
  else
    match src.find p with
    | none => some { s with gone := s.gone + 1 }
    | some k =>
      if (src.node k).kind = .socket then some s
      else do
        let s ← parentOf env p s
        let s ← clear env (src.node k) p s
        copyNode env src k p { s with entries := s.entries + 1 }

def settle (s : State) (p : Text) : Option State :=
  match src.find p with
  | none => some s
  | some k =>
    if (src.node k).isDir then
      if (above p).all (s.disk.isDir) then s.attributes env p (src.node k) else none
    else some s

/-- `copy SRC DST [IDMAP]`: the list, and then the directories, the last one first. -/
def cmdCopy (dst : Disk Node.isDir) (paths : List Text) : Option State := do
  let s ← paths.foldlM (copyPath env src) { disk := dst }
  s.later.reverse.foldlM (settle env src) s

end Mu300.CarryCopy
