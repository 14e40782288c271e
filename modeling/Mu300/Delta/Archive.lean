import Mu300.Lib.FileTree

/-!
# The image as an archive

A tar archive is a stream of records: headers with their data, and before the header of a member
the extended headers that belong to it. This module says what such a stream holds, and what is on
the disk when tar has unpacked it.

* `Record`, `Held` — the stream, and what is kept from extended headers until their member comes.
* `Item` — an archive by its members: an extended header stands right before its member.

The numbers and the padding of the blocks are not modelled: a header comes with the values of its
fields, and with its data as a list of bytes. tar itself is not part of the repository: `untar` is
what its manual says it does.
-/

namespace Mu300.Delta

open Shell FileTree

/-! ## Records -/

abbrev Content := List UInt8

abbrev Time := ℕ

/-- Who has a file, and what they may do. -/
structure Owner where
  mode : ℕ
  uid : ℕ
  gid : ℕ
  deriving DecidableEq

/-- The type of a member; `'0'`, `'\0'` and `'7'` are a regular file. -/
inductive Kind : Type where
  | regular
  | hardLink
  | symLink
  | character
  | block
  | directory
  | fifo
  deriving DecidableEq

structure Header where
  kind : Kind
  name : Text
  /-- the first part of a long name, in a ustar header -/
  front : Text
  link : Text
  owner : Owner
  time : Time
  device : ℕ × ℕ
  deriving DecidableEq

/-- The records of a pax header that matter to someone. -/
structure Pax where
  path : Option Text
  linkpath : Option Text
  uid : Option ℕ
  gid : Option ℕ
  time : Option Time
  /-- it carries extended attributes -/
  xattr : Bool
  deriving DecidableEq

/-- An extended header: of GNU tar for a name (`L`) or a link target (`K`), or of pax (`x`). -/
inductive Ext : Type where
  | longName (name : Text)
  | longLink (link : Text)
  | pax (r : Pax)
  deriving DecidableEq

/-- A header for all members behind it (`g`). -/
structure Global where
  uid : Option ℕ := none
  gid : Option ℕ := none
  time : Option Time := none
  deriving DecidableEq

inductive Record : Type where
  | ext (x : Ext)
  | global (g : Global)
  | member (h : Header) (data : Content)
  /-- a block of zeros: the end -/
  | zero
  deriving DecidableEq

/-! ## Names -/

/-- Without `./` and `/` in front. -/
def stripFront : Text → Text
  | '.' :: '/' :: p => stripFront p
  | '/' :: p => stripFront p
  | p => p

/-- `tar_norm`: a member's name as a path of the lists. -/
def tarNorm (p : Text) : Text :=
  let q := ((stripFront p).reverse.dropWhile (· = '/')).reverse
  if q = ['.'] then [] else q

/-- No part of the path is empty, `.` or `..`: what `unescape` wants. -/
def plainParts (p : Text) : Bool :=
  (p.splitOn '/').all fun part => part ∉ [[], ['.'], ['.', '.']]

def plainPath (p : Text) : Bool := '\n' ∉ p && plainParts p

/-! ## Reading -/

/-- What the extended headers of the next member say. -/
structure Held where
  paxPath : Option Text := none
  paxLink : Option Text := none
  gnuName : Option Text := none
  gnuLink : Option Text := none
  uid : Option ℕ := none
  gid : Option ℕ := none
  time : Option Time := none
  paxXattr : Bool := false
  deriving DecidableEq

/-- One more extended header; a later one counts. -/
def Held.hold (k : Held) : Ext → Held
  | .longName n => { k with gnuName := some n }
  | .longLink l => { k with gnuLink := some l }
  | .pax r =>
    { k with
      paxPath := r.path <|> k.paxPath
      paxLink := r.linkpath <|> k.paxLink
      uid := r.uid <|> k.uid
      gid := r.gid <|> k.gid
      time := r.time <|> k.time
      paxXattr := k.paxXattr || r.xattr }

/-- The member's name: of pax, of GNU tar, or of the header. -/
def nameOf (k : Held) (h : Header) : Text :=
  tarNorm ((k.paxPath <|> k.gnuName).getD
    (if h.front = [] then h.name else h.front ++ '/' :: h.name))

/-- The link target, as it stands there. -/
def rawLink (k : Held) (h : Header) : Text := (k.paxLink <|> k.gnuLink).getD h.link

def linkOf (k : Held) (h : Header) : Text := tarNorm (rawLink k h)

structure Member where
  kind : Kind
  name : Text
  /-- the path of the member it is a second name of, or the target of a symbolic link -/
  link : Text
  owner : Owner
  time : Time
  device : ℕ × ℕ
  xattr : Bool
  data : Content
  deriving DecidableEq

/-- A header later in the archive counts. -/
def Global.merge (g g' : Global) : Global :=
  ⟨g'.uid <|> g.uid, g'.gid <|> g.gid, g'.time <|> g.time⟩

/-- The member of a header and its data. -/
def memberOf (k : Held) (g : Global) (h : Header) (data : Content) : Member where
  kind := h.kind
  name := nameOf k h
  link := if h.kind = .hardLink then linkOf k h else rawLink k h
  owner := ⟨h.owner.mode, (k.uid <|> g.uid).getD h.owner.uid, (k.gid <|> g.gid).getD h.owner.gid⟩
  time := (k.time <|> g.time).getD h.time
  device := h.device
  xattr := k.paxXattr
  data := if h.kind = .regular then data else []

/-- The members up to the end of the archive. -/
def members (k : Held) (g : Global) : List Record → Option (List Member)
  | [] => none
  | .zero :: _ => some []
  | .ext x :: rest => members (k.hold x) g rest
  | .global g' :: rest => members k (g.merge g') rest
  | .member h data :: rest => (members {} g rest).map (memberOf k g h data :: ·)

/-! ## The disk -/

structure File where
  owner : Owner
  time : Time
  content : Content
  /-- no extended attribute but an SELinux label -/
  plainAttrs : Bool
  deriving DecidableEq

/-- A symbolic link, a device or a FIFO. -/
structure Special where
  kind : Kind
  target : Text
  device : ℕ × ℕ
  owner : Owner
  time : Time
  deriving DecidableEq

/-- The new system, and the inodes of the filesystem it is on. -/
structure New where
  tree : Tree Owner Time Special
  store : Store File

/-- What there is at a path, without times. -/
inductive Node : Type where
  | dir (owner : Owner)
  | file (owner : Owner) (content : Content)
  | special (kind : Kind) (target : Text) (device : ℕ × ℕ) (owner : Owner)
  deriving DecidableEq

namespace New

variable (n : New) (p q : Text)

def node : Option Node :=
  (n.tree p).bind fun
    | .dir owner _ => some (.dir owner)
    | .file i => (n.store.inode i).map fun f => .file f.owner f.content
    | .special w => some (.special w.kind w.target w.device w.owner)

def time : Option Time :=
  (n.tree p).bind fun
    | .dir _ time => some time
    | .file i => (n.store.inode i).map File.time
    | .special w => some w.time

def SameFile : Prop := ∃ i, n.tree p = some (.file i) ∧ n.tree q = some (.file i)

end New

/-- An empty directory that was just made. -/
def emptyDir (owner : Owner) (now : Time) (store : Store File) : New :=
  ⟨fun p => if p = [] then some (.dir owner now) else none, store⟩

/-! ## Unpacking -/

/-- The mode of a directory that is made on the way. -/
def madeDir : Owner := ⟨0o755, 0, 0⟩

/-- A directory, where there is none. -/
def makeDir (now : Time) (t : Tree Owner Time Special) (p : Text) : Tree Owner Time Special :=
  if t.isDir p then t else t.enter now p (.dir madeDir now)

def makeAbove (now : Time) (t : Tree Owner Time Special) (p : Text) : Tree Owner Time Special :=
  (above p).foldl (makeDir now) t

def Member.file (m : Member) : File := ⟨m.owner, m.time, m.data, true⟩

def Member.special (m : Member) : Special := ⟨m.kind, m.link, m.device, m.owner, m.time⟩

/-- A member is unpacked; a hard link needs the file it names. -/
def unpack (now : Time) (n : New) (m : Member) : Option New :=
  let t := makeAbove now n.tree m.name
  match m.kind with
  | .directory => some { n with tree := makeDir now t m.name }
  | .regular => some ⟨t.enter now m.name (.file n.store.next), n.store.alloc m.file⟩
  | .hardLink =>
    match t m.link with
    | some (.file i) => some { n with tree := t.enter now m.name (.file i) }
    | _ => none
  | _ => some { n with tree := t.enter now m.name (.special m.special) }

/-- The mode, owner and time of a directory, at the end. -/
def settleDir (t : Tree Owner Time Special) (m : Member) : Tree Owner Time Special :=
  if m.kind = .directory then t.put m.name (.dir m.owner m.time) else t

/-- The members one after the other, and then the directories. -/
def unpackAll (now : Time) (n : New) (ms : List Member) : Option New :=
  (ms.foldlM (unpack now) n).map fun n => { n with tree := ms.foldl settleDir n.tree }

/-- `tar -xp`. -/
def untar (now : Time) (n : New) (records : List Record) : Option New :=
  (members {} {} records).bind (unpackAll now n)

/-! ## Archives -/

/-- A member with its extended headers, or a header for those behind it. -/
inductive Item : Type where
  | global (g : Global)
  | member (exts : List Ext) (h : Header) (data : Content)
  deriving DecidableEq

def Item.records : Item → List Record
  | .global g => [.global g]
  | .member exts h data => exts.map .ext ++ [.member h data]

def itemMembers (g : Global) : List Item → List Member
  | [] => []
  | .global g' :: items => itemMembers (g.merge g') items
  | .member exts h data :: items => memberOf (exts.foldl Held.hold {}) g h
    data :: itemMembers g items

variable (exts : List Ext)

theorem members_exts (k : Held) (g : Global) (rest : List Record) :
    members k g (exts.map .ext ++ rest) = members (exts.foldl Held.hold k) g rest := by
  induction exts generalizing k with
  | nil => rfl
  | cons x exts ih => exact ih (k.hold x)

theorem members_item (h : Header) (data : Content) (g : Global) (rest : List Record) :
    members {} g ((Item.member exts h data).records ++ rest) =
      (members {} g rest).map (memberOf (exts.foldl Held.hold {}) g h data :: ·) := by
  rw [Item.records, List.append_assoc, members_exts]
  rfl

end Mu300.Delta
