import Mu300.Lib.Crash
import Mu300.Lib.Shell

/-!
# Fetching a release

`mu300-update`, from the network to a checked file in the staging directory.

* `Config`, `Run` — what a run is started with, and what it keeps: the staged files, the
  variables of the shell, and a record of the checksums it has judged.
* `Reply` — what the world answers a step: any status, any content, at any time another.

The signature check and SHA-256 are parameters. `MU300_FROM` is not set.
-/

namespace Mu300.Update

open Shell Crash Crash.Prog Function

/-! ## State -/

inductive MirrorFallback : Type where
  | never | always | auto
  deriving DecidableEq

inductive KeyState : Type where
  | none | ok | unsafeFile
  deriving DecidableEq

/-- What usign or openssl makes of a signature. -/
inductive Check : Type where
  | valid | bad | notool
  deriving DecidableEq

inductive SigState : Type where
  | valid | bad | unsigned | nokey | badkey | notool
  deriving DecidableEq

structure Config where
  repo : Text
  haveCurl : Bool
  mirrorFallback : MirrorFallback
  /-- `MU300_ALLOW_UNSIGNED` is set -/
  allowUnsigned : Bool
  keyState : KeyState
  /-- the check of checksums and their signature with the key of this system -/
  check : Text → Text → Check
  /-- `sha256sum` -/
  sha : Text → Text

/-- One look at checksums: for which release, and what they and their signature were. -/
structure Judgement where
  tag : Text
  sums : Text
  sig : Option Text

structure Run where
  /-- the files in `STAGE` -/
  files : Text → Option Text
  sumsFetched : Text
  sumsOk : Text
  sumsPin : Text
  /-- `SOURCE_FELL_BACK` -/
  fellBack : Bool
  /-- `MIRROR_STAYED` -/
  stayed : Bool
  releaseUrl : Text
  downloadUrl : Text
  apiUrl : Text
  /-- what `sums_verdict` was asked about in this run -/
  judged : List Judgement

/-- What `stage_private` finds. -/
inductive Stage : Type where
  | refused | emptied | kept

structure Reply where
  /-- curl or wget to the standard output: the exit status and what came -/
  get : Text → ℕ × Text
  /-- curl or wget to a file: the exit status and what the file then holds -/
  download : Text → ℕ × Option Text
  /-- `vpn_ks_blocks` -/
  blocked : Bool
  stage : Stage

def sumsFile : Text := "SHA256SUMS"

def sigFile : Text := "SHA256SUMS.sig"

def tagFile : Text := "SHA256SUMS.tag"

/-- A staged file, written or removed. -/
def Run.put (s : Run) (name : Text) (content : Option Text) : Run :=
  { s with files := update s.files name content }

variable (s : Run)

theorem Run.put_files_of_ne {name n : Text} (h : n ≠ name) (content : Option Text) :
    (s.put name content).files n = s.files n := update_of_ne h ..

@[simp] theorem Run.put_put (name : Text) (c d : Option Text) :
    (s.put name c).put name d = s.put name d := by
  rw [put, put, put, update_idem]

/-! ## The source of the release -/

/-- The shell pattern `*suffix`. -/
def endsWith (t : Text) (suffix : String) : Bool := suffix.toList.isSuffixOf t

/-- The shell pattern `start*`. -/
def startsWith (t : Text) (start : String) : Bool := start.toList.isPrefixOf t

/-- `${t%:*}`: without the last colon and what is behind it. -/
def beforeLastColon (t : Text) : Text :=
  if ':' ∈ t then ((t.reverse.dropWhile (· ≠ ':')).drop 1).reverse else t

/-- `mirror_local`: plain http, or a host only a LAN knows. -/
def mirrorLocal (url : Text) : Bool :=
  if startsWith url "https://" then
    let host := (beforeLastColon ((url.drop 8).takeWhile (· ≠ '/'))).map Char.toLower
    !host.contains '.' || host = "localhost" ||
      [".localhost", ".lan", ".local", ".home", ".home.arpa", ".internal", ".localdomain"].any
        (endsWith host) ||
      ["10.", "127.", "192.168.", "169.254.", "172.16.", "172.17.", "172.18.", "172.19.", "172.20.",
        "172.21.", "172.22.", "172.23.", "172.24.", "172.25.", "172.26.", "172.27.", "172.28.",
        "172.29.", "172.30.", "172.31."].any (startsWith host)
  else true

section

variable (cfg : Config)

/-- `fetch_base`: the directory this run takes a release from. -/
def fetchBase (s : Run) (tag : Text) : Text :=
  let github := "https://github.com/" ++ cfg.repo ++ "/releases/download"
  if s.fellBack then github ++ '/' :: tag
  else if s.releaseUrl ≠ [] then s.releaseUrl
  else (if s.downloadUrl ≠ [] then s.downloadUrl else github) ++ '/' :: tag

/-- Whether this run may move to github.com; only the file of the owner says otherwise. -/
def mayFallBack (s : Run) : Bool :=
  match cfg.mirrorFallback with
  | .never => false
  | .always => true
  | .auto => !mirrorLocal (if s.releaseUrl ≠ [] then s.releaseUrl else s.downloadUrl)

/-- The run behind `mirror_fell_back`: on github.com with nothing fetched or judged, or
where it was. -/
def leaveMirror (s : Run) : Run :=
  if s.fellBack then s
  else if mayFallBack cfg s then
    { s with fellBack := true, releaseUrl := [], downloadUrl := [], apiUrl := [],
             sumsFetched := [], sumsOk := [], sumsPin := [] }
  else { s with stayed := true }

def mirrorFellBack : Prog Reply Run Bool :=
  op (fun _ s => leaveMirror cfg s) fun _ s => !s.fellBack && mayFallBack cfg s

/-- `FETCH_UNREACHABLE`. -/
def unreachable : ℕ := 9

/-- `fetch_unreachable_rc RC [ARRIVED]`. -/
def fetchUnreachableRc (s : Run) (rc : ℕ) (arrived : Option Bool) : ℕ :=
  if arrived = some true then 1
  else if rc ∈ [6, 7, 35, 52] ∨ rc ∈ [28, 56] ∧ arrived = some false then
    if s.releaseUrl ++ s.downloadUrl = [] ∨ s.fellBack then 1 else unreachable
  else 1

/-- One round of `fetch_stdout`; `again` is what follows a failed connection. -/
def fetchOnce (url : Text) (again : ℕ × Text → Prog Reply Run (ℕ × Text)) :
    Prog Reply Run (ℕ × Text) := do
  let got ← look fun e _ => e.get url
  let failed ← look fun _ s => (fetchUnreachableRc s got.1 none, [])
  if got.1 = 0 then return (0, captured got.2)
  -- an answer, or a timeout that curl has retried itself
  else if got.1 ∉ (if cfg.haveCurl then [6, 7, 35, 52, 56] else [4]) then return failed
  else again failed

/-- `fetch_stdout`, with the tries left behind this one. -/
def fetchTries (url : Text) : ℕ → Prog Reply Run (ℕ × Text)
  | 0 => fetchOnce cfg url fun failed => return failed
  | left + 1 => fetchOnce cfg url fun _ => do
    if ← look fun e _ => e.blocked then return (1, []) else fetchTries url left

/-- `$(fetch_stdout URL)`. -/
def fetchStdout (url : Text) : Prog Reply Run (ℕ × Text) := fetchTries cfg url 3

/-- The size of a staged file, `wc -c`. -/
def size (file : Option Text) : ℕ := (file.map List.length).getD 0

/-- `fetch_file URL OUT`: a file that grew is a source that answered. -/
def fetchFile (url name : Text) : Prog Reply Run ℕ :=
  op (fun e s => s.put name (e.download url).2) fun e s =>
    let (rc, now) := e.download url
    if rc = 0 then 0
    else if size (s.files name) < size now then 1
    else fetchUnreachableRc s rc (some false)

/-! ## Checksums -/

/-- `sha_ok`: 64 lowercase hex digits. -/
def shaOk (h : Text) : Bool :=
  h.length = 64 && h.all fun ch => ch.isDigit || ('a' ≤ ch && ch ≤ 'f')

/-- `sha_of`; `none` is its failure. -/
def shaOf (file : Option Text) : Option Text :=
  file.bind fun t => if shaOk (cfg.sha t) then some (cfg.sha t) else none

/-- `$2 == f || $2 == "*" f`. -/
def lists (f : Text) (l : Text) : Bool := field l 2 = f || field l 2 = '*' :: f

/-- `want`: the first fields of all lines for a file. -/
def want (sums f : Text) : Text :=
  captured (((lines sums).filter (lists f)).flatMap fun l => line (field l 1))

/-- `sums_want`: the first hash for a file, and only a hash; empty otherwise. -/
def sumsWant (sums f : Text) : Text :=
  let h := (((lines sums).find? (lists f)).map fun l => field l 1).getD []
  if shaOk h then h else []

def tagSha (tag : Text) : Text := cfg.sha (line tag)

/-- The release a SHA256SUMS says it is of: the hash of its file `mu300-release`. -/
def releaseSha (sums : Text) : Text := sumsWant sums "mu300-release"

def sigState (sums : Text) (sig : Option Text) : SigState :=
  match cfg.keyState with
  | .none => .nokey
  | .unsafeFile => .badkey
  | .ok =>
    match sig with
    | none | some [] => .unsigned
    | some sig =>
      match cfg.check sums sig with
      | .valid => .valid
      | .bad => .bad
      | .notool => .notool

/-- What `sums_verdict` says, without the texts. -/
inductive Verdict : Type where
  | bad | badkey | otherRelease | unnamed
  | signed
  /-- no key, so nothing to check with -/
  | unchecked
  | allowed | notAllowed
  deriving DecidableEq

/-- The verdicts that let checksums through. -/
def Verdict.accepts : Verdict → Bool
  | signed | unchecked | allowed => true
  | bad | badkey | otherRelease | unnamed | notAllowed => false

/-- `sums_verdict TAG STATE WHAT SUMS`, for a release from the network. -/
def sumsVerdict (tag : Text) (state : SigState) (sums : Text) : Verdict :=
  if state = .bad then .bad
  else if state = .badkey then .badkey
  else if releaseSha sums ≠ [] ∧ releaseSha sums ≠ tagSha cfg tag then .otherRelease
  else if state = .valid then if releaseSha sums = [] then .unnamed else .signed
  else if state = .nokey then .unchecked
  else if cfg.allowUnsigned then .allowed
  else .notAllowed

/-- The signature that goes with checksums just fetched, or none. -/
def fetchSig (base : Text) : Prog Reply Run Unit := do
  act fun s => s.put sigFile none
  let (rc, sig) ← fetchStdout cfg (base ++ '/' :: sigFile)
  if rc = 0 ∧ sig ≠ [] then act fun s => s.put sigFile (some (line sig))

/-- `sums_verdict` on the staged checksums, for the record. -/
def judge (tag sums : Text) : Prog Reply Run Bool :=
  op (fun _ s => { s with judged := s.judged ++ [⟨tag, sums, s.files sigFile⟩] }) fun _ s =>
    (sumsVerdict cfg tag (sigState cfg sums (s.files sigFile)) sums).accepts

/-- The part of `sums_trusted` behind the signature: one copy is judged and pinned. -/
def judgeSums (tag : Text) : Prog Reply Run Bool := do
  let sums ← look fun _ s => s.files sumsFile
  let pin := shaOf cfg sums
  act fun s => { s with sumsPin := pin.getD [] }
  match sums, pin with
  | some sums, some pin =>
    if ← judge cfg tag sums then
      if (← look fun _ s => shaOf cfg (s.files sumsFile)) = some pin then
        act fun s => { s with sumsOk := tag }
        return true
      else
        act fun s => { s with sumsPin := [] }
        return false
    else
      act fun s => { s with sumsPin := [] }
      return false
  | _, _ => return false

/-- `sums_trusted TAG BASE`. -/
def sumsTrusted (tag base : Text) : Prog Reply Run Bool := do
  if (← look fun _ s => s.sumsOk) = tag then
    -- judged before in this run: only those very bytes
    test fun s => s.sumsPin ≠ [] ∧ shaOf cfg (s.files sumsFile) = some s.sumsPin
  else
    if ← test fun s => cfg.keyState ≠ .none ∧ s.sumsFetched = tag then fetchSig cfg base
    judgeSums cfg tag

/-! ## fetch_verified -/

def stagePrivate : Prog Reply Run Bool :=
  op (fun e s => match e.stage with
      | .emptied => { s with files := fun _ => none }
      | .refused | .kept => s)
    fun e _ => match e.stage with
      | .refused => false
      | .emptied | .kept => true

/-- `fetch_stdout` of the checksums, `base` again, once from github.com when the mirror
cannot be reached. -/
def fetchSums (tag : Text) : Prog Reply Run (ℕ × Text × Text) := do
  let base ← look fun _ s => fetchBase cfg s tag
  let (rc, sums) ← fetchStdout cfg (base ++ '/' :: sumsFile)
  if rc = unreachable then
    if ← mirrorFellBack cfg then
      let base ← look fun _ s => fetchBase cfg s tag
      let (rc, sums) ← fetchStdout cfg (base ++ '/' :: sumsFile)
      return (rc, sums, base)
    else return (rc, sums, base)
  else return (rc, sums, base)

/-- The checksums of this run, or without an answer the kept ones of the same tag; the
directory to go on with. -/
def getSums (tag : Text) : Prog Reply Run (Option Text) := do
  if (← look fun _ s => s.sumsFetched) = tag then
    some <$> look fun _ s => fetchBase cfg s tag
  else
    let (rc, sums, base) ← fetchSums cfg tag
    if rc = 0 ∧ sums ≠ [] then
      act fun s => { (s.put sumsFile (some (line sums))).put tagFile (some (line tag)) with
        sumsFetched := tag }
      return some base
    else if ← test fun s =>
        captured ((s.files tagFile).getD []) ≠ tag ∨ size (s.files sumsFile) = 0 then
      return none
    else return some base

/-- The staged file has the wanted hash. -/
def staged (s : Run) (asset wanted : Text) : Prop :=
  ∃ t ∈ s.files asset, cfg.sha t = wanted

instance (s : Run) (asset wanted : Text) : Decidable (staged cfg s asset wanted) :=
  inferInstanceAs (Decidable (∃ t ∈ s.files asset, _))

/-- What the staged checksums list for a file. -/
def wanted (s : Run) (asset : Text) : Text := want ((s.files sumsFile).getD []) asset

/-- The checksums fetched again behind a file that failed, and judged again: the hash to
go on with, or the status to return. -/
def refetchSums (tag asset base wanted' : Text) : Prog Reply Run (Except ℕ Text) := do
  let (rc, sums) ← fetchStdout cfg (base ++ '/' :: sumsFile)
  if rc = 0 ∧ sums ≠ [] then
    act fun s => { s.put sumsFile (some (line sums)) with sumsFetched := tag, sumsOk := [] }
    if ← sumsTrusted cfg tag base then
      let w ← look fun _ s => wanted s asset
      if w = [] then return .error 2 else return .ok w
    else return .error 3
  else return .ok wanted'

/-- The directory to go on with behind a file that failed. -/
def moveSource (tag : Text) (rc : ℕ) (base : Text) : Prog Reply Run Text := do
  if rc = unreachable then
    if ← mirrorFellBack cfg then look fun _ s => fetchBase cfg s tag else return base
  else return base

def fetchAsset (tag asset : Text) : ℕ → Text → Text → Prog Reply Run ℕ
  | 0, _, _ => return 1
  | tries + 1, base, w => do
    if ← test fun s => 0 < size (s.files asset) ∧ staged cfg s asset w then return 0
    else
      let rc ← fetchFile (base ++ '/' :: asset) asset
      if ← test fun s => rc = 0 ∧ staged cfg s asset w then return 0
      else
        let base ← moveSource cfg tag rc base
        act fun s => s.put asset none
        match ← refetchSums cfg tag asset base w with
        | .error status => return status
        | .ok w => fetchAsset tag asset tries base w

/-- `fetch_verified TAG ASSET`. -/
def fetchVerified (tag asset : Text) : Prog Reply Run ℕ := do
  if ← stagePrivate then
    match ← getSums cfg tag with
    | none => return 1
    | some base =>
      if ← sumsTrusted cfg tag base then
        let w ← look fun _ s => wanted s asset
        if w = [] then return 2 else fetchAsset cfg tag asset 3 base w
      else return 3
  else return 1

end

end Mu300.Update
