import Mu300.Lib.Shell
import Mu300.Lib.Awk

/-!
# Accounts across an update

An update replaces the system, and with it `/etc/passwd`, `/etc/group` and their shadows; the files
that are carried over belong to accounts of the old system.

The programs are awk, over lines with fields between colons. A line here is what the fields are
used as: a number in canonical form, a member list. `gshadow` is there on Ubuntu only; subordinate
ids play no part.
-/

namespace Mu300.Accounts

open Shell Awk

/-! ## The files -/

/-- A line of `passwd` or `group`. -/
structure Line (α : Type) where
  name : Text
  password : Text
  /-- the uid, or the gid -/
  number : ℕ
  /-- the fields behind it -/
  more : α
  deriving DecidableEq

/-- `passwd`: the group, and the fields behind it. -/
abbrev Passwd := Line (ℕ × List Text)

/-- `group`: the members. -/
abbrev Group := Line (List Text)

/-- A line of `shadow` or `gshadow`. -/
structure Secret where
  name : Text
  password : Text
  rest : List Text
  deriving DecidableEq

/-- What there is in `/etc`. -/
structure Etc where
  passwd : List Passwd
  group : List Group
  shadow : List Secret
  gshadow : Option (List Secret)
  deriving DecidableEq

inductive Kind : Type where
  | user
  | group
  deriving DecidableEq

variable {α β : Type}

/-- `n >= 1000 && n < 60000`: a user's number, not a system account's. -/
def isLocal (n : ℕ) : Bool := 1000 ≤ n && n < 60000

/-! ## The merge -/

/-- `lu`, `lg`. -/
def locals (ls : List (Line α)) : List Text := (ls.filter fun l => isLocal l.number).map Line.name

/-- One file of `merge_accounts`: the new lines, those of names both files have combined, and the
old lines of other names that come along. Where nothing comes out the file stays. -/
def mergeFile (name : β → Text) (both : β → β → β) (comes : List Text) (old new : List β) :
    List β :=
  let files := twoFiles old new
  let out := files.2.map (fun l => (last? name (name l) files.1).elim l fun o => both o l) ++
    (keys name files.1).filterMap fun x =>
      if x ∉ files.2.map name ∧ x ∈ comes then last? name x files.1 else none
  if out.isEmpty then new else out

def mergeMembers (o l : Group) : Group :=
  { l with more := o.more.foldl (fun m x => if x ≠ [] ∧ x ∉ m then m ++ [x] else m) l.more }

/-- What comes out of a file, in one piece: an empty file has nothing that comes along. -/
theorem mergeFile_eq {name : β → Text} {both : β → β → β} {comes : List Text} {old new : List β}
    (h : old = [] → comes = []) :
    mergeFile name both comes old new =
      new.map (fun l => (last? name (name l) old).elim l fun o => both o l) ++
        (keys name old).filterMap fun x =>
          if x ∉ new.map name ∧ x ∈ comes then last? name x old else none := by
  rcases old with _ | ⟨o, old⟩
  · simp [mergeFile, twoFiles, h rfl, last?]
  · simp only [mergeFile, twoFiles, List.isEmpty_cons, Bool.false_eq_true, if_false]
    split
    · next he =>
      rw [List.isEmpty_iff, List.append_eq_nil_iff, List.map_eq_nil_iff] at he
      obtain ⟨rfl, hrest⟩ := he
      exact hrest.symm
    · rfl

variable (old : Etc)

def mergeAccounts (new : Etc) : Etc where
  passwd := mergeFile Line.name (fun _ l => l) (locals old.passwd) old.passwd new.passwd
  group := mergeFile Line.name mergeMembers (locals old.group) old.group new.group
  shadow := mergeFile Secret.name (fun o _ => o) (locals old.passwd) old.shadow new.shadow
  gshadow := match old.gshadow, new.gshadow with
    | some o, some n => some (mergeFile Secret.name (fun o _ => o) (locals old.group) o n)
    | _, n => n

/-! ## The plan -/

/-- `carry_idmap`, for one of the files. -/
def idmapOf (old new : List (Line α)) : List (ℕ × ℕ) :=
  let files := twoFiles old new
  files.2.filterMap fun l =>
    (last? Line.name l.name files.1).bind fun o =>
      if o.number ≠ l.number then some (o.number, l.number) else none

def carryIdmap (new : Etc) : Kind → List (ℕ × ℕ)
  | .user => idmapOf old.passwd new.passwd
  | .group => idmapOf old.group new.group

/-- `free`: the highest number of a system account, the lowest of a user. -/
def free (used : List ℕ) (sys : Bool) : Option ℕ :=
  if sys then (List.range' 100 900).reverse.find? (· ∉ used)
  else (List.range' 1000 59000).find? (· ∉ used)

/-- What `carry_accounts_plan` says about one of the files. -/
structure Places (α : Type) where
  /-- the numbers taken in the new system -/
  used : List ℕ
  /-- the accounts that move, for `idmap` -/
  map : List (ℕ × ℕ)
  /-- the lines of system accounts to add: `acct.passwd`, `acct.group` -/
  add : List (Line α)
  /-- the numbers of users: `acct.renum` -/
  renum : List (Text × ℕ)
  /-- the accounts that got no number: `plan.accounts` -/
  unplaced : List Text

/-- An account of the old system gets a number. -/
def place (fix : Line α → Line α) (l : Line α) (m : ℕ) (p : Places α) : Places α :=
  { p with
    used := m :: p.used
    renum := if isLocal l.number then p.renum ++ [(l.name, m)] else p.renum
    add := if isLocal l.number then p.add else p.add ++ [fix { l with number := m }] }

def one (names : List Text) (fix : Line α → Line α) (p : Places α) (l : Line α) : Places α :=
  if l.name ∈ names then p
  else if l.number ∈ p.used then
    match free p.used (!isLocal l.number) with
    | none => { p with unplaced := p.unplaced ++ [l.name] }
    | some m => place fix l m { p with map := p.map ++ [(l.number, m)] }
  else place fix l l.number p

/-- All lines of a file of the old system. -/
def places (fix : Line α → Line α) (old new : List (Line α)) : Places α :=
  old.foldl (one (new.map Line.name) fix) ⟨new.map Line.number, [], [], [], []⟩

/-- The group of a user under its number in the new system (`gmap`). -/
def regroup (gmap : List (ℕ × ℕ)) (l : Passwd) : Passwd :=
  { l with more := (lastMatch gmap l.more.1, l.more.2) }

/-- What `carry_accounts_plan` writes. -/
structure Plan where
  group : Places (List Text)
  passwd : Places (ℕ × List Text)
  idmap : Kind → List (ℕ × ℕ)

def carryAccountsPlan (new : Etc) : Plan :=
  let group := places id old.group new.group
  let gmap := carryIdmap old new .group ++ group.map
  let passwd := places (regroup gmap) old.passwd new.passwd
  ⟨group, passwd, fun
    | .user => carryIdmap old new .user ++ passwd.map
    | .group => gmap⟩

/-! ## The accounts of the new system -/

/-- A line with the number of the plan. -/
def renumber (fix : Line α → Line α) (renum : List (Text × ℕ)) (l : Line α) : Line α :=
  (last? Prod.fst l.name renum).elim l fun r => fix { l with number := r.2 }

/-- Every account of the old system that is there has the number of the plan. -/
def asPlanned (map : List (ℕ × ℕ)) (old now : List (Line α)) : Bool :=
  old.all fun l => (last? Line.name l.name now).all fun l' => l'.number = lastMatch map l.number

/-- `$2 ~ /^[!*]/`. -/
def locked (password : Text) : Bool := password.head? = some '!' || password.head? = some '*'

/-- What the old system did not have gets no password. -/
def lock (old : List Passwd) (shadow : List Secret) : List Secret :=
  if old.isEmpty then []
  else shadow.map fun l =>
    if l.name ∉ old.map Line.name ∧
      ¬ locked l.password then { l with password := '!' :: l.password }
    else l

/-- The lines of the old `shadow` for the accounts that are added. -/
def secretsOf (added : List (Line α)) (old : List Secret) : List Secret :=
  old.filter fun l => l.name ∈ added.map Line.name

/-- The same for `gshadow`, where both systems have one. -/
def addSecrets (added : List (Line α)) :
    Option (List Secret) → Option (List Secret) → Option (List Secret)
  | some old, some new => some (new ++ secretsOf added old)
  | _, new => new

/-- `carry_accounts`, behind the merge; it may refuse the result. -/
def carryAccounts (merged : Etc) (plan : Plan) : Option Etc :=
  let passwd := (merged.passwd ++ plan.passwd.add).map
    (renumber (regroup (plan.idmap .group)) plan.passwd.renum)
  let group := (merged.group ++ plan.group.add).map (renumber id plan.group.renum)
  let shadow := merged.shadow ++ secretsOf plan.passwd.add old.shadow
  if asPlanned (plan.idmap .user) old.passwd passwd ∧
    asPlanned (plan.idmap .group) old.group group then
    some ⟨passwd, group, lock old.passwd shadow,
      addSecrets plan.group.add old.gshadow merged.gshadow⟩
  else none

/-- The accounts of the new system in the end. -/
def update (new : Etc) : Option Etc :=
  carryAccounts old (mergeAccounts old new) (carryAccountsPlan old new)

/-! ## Owners -/

/-- How a file of the old system comes to the new one. -/
inductive Way : Type where
  /-- carried by the plan, `live` -/
  | live
  /-- a file of the image that gets the owner and mode the user gave it, `meta` -/
  | metadata
  /-- a directory that `mu300-carry` makes because something in it is carried -/
  | parent
  /-- an apt source that stays in use: the `A` lines of the plan -/
  | aptSource
  /-- an apt source of another release, copied as `NAME.disabled` -/
  | aptDisabled
  /-- a pin or a key that was added: the plan carries it, or sets it aside, and then `upk_apt_keep`
  copies it -/
  | aptPin
  /-- a key of a package, or a source or a key of the image that the new one lacks: what the plan
  leaves out and `upk_apt_keep` copies -/
  | aptKept
  deriving DecidableEq

/-- `upk_apt_keep` alone copies it, with `cp -p`. -/
def Way.copied : Way → Bool
  | .aptDisabled | .aptKept => true
  | .live | .metadata | .parent | .aptSource | .aptPin => false

/-- A file of the old system that is to be carried. -/
structure File where
  way : Way
  uid : ℕ
  gid : ℕ
  deriving DecidableEq

def File.owner (f : File) : Kind → ℕ
  | .user => f.uid
  | .group => f.gid

def mapId (plan : Plan) (k : Kind) (id : ℕ) : ℕ := firstMatch (plan.idmap k) id

/-- The numbers that the old system names (`ou`, `og`). -/
def oldIds : Kind → List ℕ
  | .user => old.passwd.map Line.number
  | .group => old.group.map Line.number

/-- The numbers taken in the new system (`nu`, `ng`). -/
def newIds (plan : Plan) : Kind → List ℕ
  | .user => plan.passwd.used
  | .group => plan.group.used

/-- A number without a name in the old system that an account of the new one has. -/
def stranger (plan : Plan) (k : Kind) (id : ℕ) : Bool :=
  id ∉ oldIds old k && id ∈ newIds plan k

def foreign (plan : Plan) (f : File) : Bool :=
  stranger old plan .user f.uid || stranger old plan .group f.gid

/-- The owner a file gets in the new system; none where it is set aside, or keeps the image's. -/
def carried (plan : Plan) (f : File) : Option (Kind → ℕ) :=
  match f.way with
  | .live => if foreign old plan f then none else some fun k => mapId plan k (f.owner k)
  | .metadata =>
    if foreign old plan f then none else some fun k => lastMatch (plan.idmap k) (f.owner k)
  | .parent | .aptSource => some fun k => mapId plan k (f.owner k)
  -- cp -p: the number
  | .aptDisabled | .aptKept => some f.owner
  | .aptPin => some fun k => if foreign old plan f then f.owner k else mapId plan k (f.owner k)

end Mu300.Accounts
