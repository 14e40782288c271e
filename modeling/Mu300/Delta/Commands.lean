import Mu300.Delta.Archive

/-!
# An update that writes only what changed

The commands of `mu300-carry` that an update is unpacked with. Files of the new image that the
installed system has byte for byte are not written again: they become second names of its files.

Lists and logs go through `put_escaped` and `unescape`; a path stands here as it is.
-/

namespace Mu300.Delta

open Shell FileTree

/-! ## The installed system -/

/-- The installed system. It does not change during the run. -/
structure Old where
  tree : Tree Owner Time Special
  store : Store File
  /-- a name leads to an inode that is there -/
  valid : ∀ p i, tree p = some (.file i) → (store.inode i).isSome

/-- A regular file, opened without following a link. -/
def Old.file (old : Old) (p : Text) : Option (ℕ × File) :=
  (old.tree.find p).bind fun
    | .file i => (old.store.inode i).map (i, ·)
    | _ => none

/-! ## same -/

/-- A line of the manifest for a file. -/
structure ManifestLine where
  owner : Owner
  size : ℕ
  hash : Text
  path : Text
  deriving DecidableEq

def binary (c : Content) : Bool := 0 ∈ c

/-- A line of the manifest: `B` or `T` where the file is there as it says. -/
def sameLine (sha256 : Content → Text) (old : Old) (l : ManifestLine) : Option (Bool × Text) :=
  (old.file l.path).bind fun (_, f) =>
    if f.owner = l.owner ∧ f.content.length = l.size ∧ f.plainAttrs ∧ sha256 f.content = l.hash then
      some (binary f.content, l.path)
    else none

/-- `same`; it dies of a path that is not plain. -/
def cmdSame (sha256 : Content → Text) (old : Old) (ls : List ManifestLine) :
    Option (List (Bool × Text)) :=
  if ls.all fun l => plainParts l.path then some (ls.filterMap (sameLine sha256 old)) else none

/-- `sed -n 's/^B //p'`. -/
def binaries (out : List (Bool × Text)) : List Text := (out.filter Prod.fst).map Prod.snd

/-! ## tarfilter -/

def bufSize : ℕ := 1 <<< 16

/-- The data in the pieces it is read in. -/
def pieces (n : ℕ) : ℕ → Content → List Content
  | 0, _ => []
  | k + 1, c => c.take n :: pieces n k (c.drop n)

/-- Where the comparison with the installed file is. -/
structure Passing where
  /-- all pieces so far were the same -/
  same : Bool
  pos : ℕ
  /-- what was written -/
  out : Content

/-- One piece. At the first difference what passed already is written again, from the installed
file. -/
def passPiece (old : Content) (s : Passing) (buf : Content) : Passing :=
  if s.same then
    if (old.drop s.pos).take buf.length = buf then ⟨true, s.pos + buf.length, s.out⟩
    else ⟨false, s.pos + buf.length, old.take s.pos ++ buf⟩
  else ⟨false, s.pos + buf.length, s.out ++ buf⟩

def passData (old data : Content) : Passing :=
  (pieces bufSize ((data.length + (bufSize - 1)) / bufSize) data).foldl (passPiece old)
    ⟨true, 0, []⟩

/-- What is written of a candidate; none where it is left out. -/
def candidate (old : Old) (every : Bool) (name : Text) (data : Content) : Option Content :=
  match old.file name with
  | none => some data
  | some (_, f) =>
    if f.content.length = data.length ∧ f.plainAttrs then
      let s := passData f.content data
      if s.same then
        -- every file: a text is written all the same
        if every ∧ ¬ binary data then some f.content else none
      else some s.out
    else some data

inductive LogLine : Type where
  | D (path : Text)
  | H (path : Text)
  | T (target : Text)
  | E (leftOut written : ℕ)
  deriving DecidableEq

def kib (size : ℕ) : ℕ := (size + 4095) / 4096 * 4

structure Filter where
  /-- extended headers, kept back until their member is decided -/
  pend : List Record := []
  held : Held := {}
  /-- the files that were really left out -/
  done : List Text := []
  leftOut : ℕ := 0
  written : ℕ := 0

/-- A part of the output, and of the log. -/
def emit (out : List Record) (log : List LogLine) :
    Option (List Record × List LogLine) → Option (List Record × List LogLine) :=
  Option.map fun r => (out ++ r.1, log ++ r.2)

/-- `tarfilter`, behind the part of the stream that `s` is about. No list is `*`. -/
def tarfilterFrom (old : Old) (list : Option (List Text)) :
    Filter → List Record → Option (List Record × List LogLine)
  | _, [] => none
  | s, .zero :: rest => if s.pend = [] then some (.zero :: rest, [.E s.leftOut s.written]) else none
  | s, .ext x :: rest =>
    tarfilterFrom old list { s with pend := s.pend ++ [.ext x], held := s.held.hold x } rest
  | s, .global g :: rest =>
    emit (s.pend ++ [.global g]) [] (tarfilterFrom old list { s with pend := [] } rest)
  | s, .member h data :: rest =>
    let name := nameOf s.held h
    let next : Filter := { s with pend := [], held := {} }
    if h.kind = .hardLink ∧ linkOf s.held h ∈ s.done then
      -- a second name of a file left out
      emit [] [.H name, .T (linkOf s.held h)] (tarfilterFrom old list next rest)
    else if h.kind = .regular ∧ ¬ s.held.paxXattr ∧ list.elim (plainPath name) (name ∈ ·) then
      match candidate old list.isNone name data with
      | none =>
        emit [] [.D name] (tarfilterFrom old list
          { next with done := name :: s.done, leftOut := s.leftOut + kib data.length } rest)
      | some out =>
        emit (s.pend ++ [.member h out]) [] (tarfilterFrom old list
          { next with written := s.written + kib data.length } rest)
    else
      emit (s.pend ++ [.member h data]) [] (tarfilterFrom old list
        { next with written := s.written + if h.kind = .regular then kib data.length else 0 } rest)

/-- `tarfilter OLD LIST LOG`. -/
def cmdTarfilter (old : Old) (list : Option (List Text)) (records : List Record) :
    Option (List Record × List LogLine) := tarfilterFrom old list {} records

/-! ## tarlink -/

structure Linking where
  new : New
  /-- the `H` line that waits for its `T` -/
  hpath : Option Text := none
  /-- the times of the directories that something went into -/
  saved : List (Text × Time) := []
  ended : Bool := false

/-- The times of a directory, noted once. -/
def noteDir (s : Linking) (d : Text) : Linking :=
  if d ∈ s.saved.map Prod.fst then s
  else
    match s.new.tree.find d with
    | some (.dir _ time) => { s with saved := s.saved ++ [(d, time)] }
    | _ => s

/-- A name is made; what is there already goes (`clear_way`), but never a directory. -/
def addName (now : Time) (p : Text) (e : Entry Owner Time Special) (n : New) : Option New :=
  if n.tree.reaches p ∧ n.tree.isDir p = false then some { n with tree := n.tree.enter now p e }
    else none

/-- `D`: a second name of the installed file, or a copy where a link cannot be. -/
def linkOld (now : Time) (old : Old) (canLink : Text → Bool) (p : Text) (n : New) : Option New :=
  (old.file p).bind fun (i, f) =>
    if canLink p then addName now p (.file i) n
    else addName now p (.file n.store.next) { n with store := n.store.alloc f }

/-- `T`: a second name of a file of the new system. -/
def linkNew (now : Time) (p target : Text) (n : New) : Option New :=
  match n.tree.find target with
  | some (.dir _ _) | none => none
  | some e => addName now p e n

def tarlinkLine (now : Time) (old : Old) (canLink : Text → Bool) (s : Linking) :
    LogLine → Option Linking
  | .E _ _ => some { s with ended := true }
  | .H p => if plainParts p then some { s with hpath := some p } else none
  | .T target =>
    s.hpath.bind fun p =>
      let s := noteDir s (directory p)
      if plainParts target then
        (linkNew now p target s.new).map fun n => { s with new := n, hpath := none }
      else none
  | .D p =>
    let s := noteDir s (directory p)
    if plainParts p then (linkOld now old canLink p s.new).map fun n =>
      { s with new := n } else none

/-- `tarlink OLD NEW < LOG`. -/
def cmdTarlink (now : Time) (old : Old) (canLink : Text → Bool) (log : List LogLine) (n : New) :
    Option New :=
  (log.foldlM (tarlinkLine now old canLink) { new := n }).bind fun s =>
    if s.ended then some { s.new with tree := s.new.tree.restore s.saved } else none

/-- `delta_unpack`: into an empty directory, and then the links. -/
def deltaUnpack (now : Time) (top : Owner) (old : Old) (list : List Text) (canLink : Text → Bool)
    (records : List Record) : Option New :=
  (cmdTarfilter old (some list) records).bind fun (out, log) =>
    (untar now (emptyDir top now old.store) out).bind (cmdTarlink now old canLink log)

end Mu300.Delta
