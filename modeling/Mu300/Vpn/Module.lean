import Mu300.Lib.Shell

/-!
# The VPN module

The VPN of a device is an extra of its own, released apart from the systems: the toolkit
(`mu300-vpn`) and up to four engines. The first version was one extra `vpn` with the toolkit, xray
and sing-box in it; now `vpn` is the core without an engine, every engine is an extra `vpn-ENGINE`,
and the old one lives on as the bundle, for sources that have nothing else.

A file stands for what is in it. An install that fails leaves the extra as it was; what it checks
besides the toolkit, and what is printed, comes in as an answer or is left out.
-/

namespace Mu300.Vpn

open Shell

/-! ## What there is -/

/-- `VPN_ENGINE_EXTRAS`. -/
inductive Engine : Type where
  | xray
  | singbox
  | mihomo
  | dae
  deriving DecidableEq

/-- The extras of the module, directories of `$EXTRA`. -/
inductive Extra : Type where
  | vpn
  /-- `vpn-ENGINE` -/
  | engine (x : Engine)
  deriving DecidableEq

/-- What is in a `bin` directory. -/
inductive Program : Type where
  /-- `mu300-vpn` -/
  | toolkit
  | engine (x : Engine)
  deriving DecidableEq

inductive Asset : Type where
  /-- `mu300-linux-vpn-core.tar.gz` -/
  | core
  /-- `mu300-linux-vpn.tar.gz` -/
  | bundle
  /-- `mu300-linux-vpn-ENGINE.tar.gz` -/
  | engine (x : Engine)
  deriving DecidableEq

/-- The programs in a file: the core has no engine, the bundle xray and sing-box, an engine's file
its own. -/
def Asset.bin : Asset → List Program
  | core => [.toolkit]
  | bundle => [.toolkit, .engine .xray, .engine .singbox]
  | engine x => [.engine x]

/-- A file that was checked: `MODULE_FILE` and `MODULE_SHA`. -/
structure File where
  asset : Asset
  sha : Text
  deriving DecidableEq

structure State where
  /-- `$EXTRA/NAME/bin`, where there is such a directory -/
  bin : Extra → Option (List Program)
  /-- `$EXTRA/.NAME.sha256` -/
  sha : Extra → Option Text

variable (s : State)

/-- The `vpn` extra has a program. -/
def carries (p : Program) : Bool := (s.bin .vpn).any fun bin => p ∈ bin

/-- `vpn_module_in "$EXTRA/vpn"`. -/
def vpnModuleIn : Bool := carries s .toolkit

def vpnEngineHave (x : Engine) : Bool :=
  (s.bin (.engine x)).isSome ||
    match x with
    | .xray => carries s (.engine .xray)
    | .singbox => carries s (.engine .singbox)
    | _ => false

/-! ## Which engines are needed -/

def vpnTypeEngine (type : Text) : Option Engine :=
  if type = "xray" then some .xray
  else if type = "sing-box" then some .singbox
  else if type = "mihomo" then some .mihomo
  else if type = "dae" then some .dae
  else none

structure Settings where
  /-- the types of the profiles, where there is a profile store -/
  profiles : Option (List Text)
  /-- `vpn.conf` has a link -/
  link : Bool

def vpnEnginesOf (r : Settings) : List Engine :=
  match r.profiles with
  | some types => types.filterMap vpnTypeEngine
  | none => if r.link then [.xray, .singbox] else []

/-- A word of `MU300_VPN_ENGINES`. -/
def engineWord (w : Text) : Option Engine :=
  if w ∈ ["xray".toList, "vpn-xray".toList] then some .xray
  else if w ∈ ["singbox".toList, "sing-box".toList, "vpn-singbox".toList,
    "vpn-sing-box".toList] then
    some .singbox
  else if w ∈ ["mihomo".toList, "vpn-mihomo".toList] then some .mihomo
  else if w ∈ ["dae".toList, "vpn-dae".toList] then some .dae
  else none

/-! ## Files -/

inductive From : Type where
  | download
  | directory
  /-- a file given for `vpn`; the engines come from its directory -/
  | file (asset : Asset)

/-- The files, and the `SHA256SUMS` beside them. -/
structure Source where
  from' : From
  /-- the hash listed for a file -/
  listed : Asset → Option Text
  /-- the file is there, or comes -/
  there : Asset → Bool
  /-- its hash, as it is -/
  hash : Asset → Text
  /-- `MU300_VPN_UNVERIFIED=1` -/
  unverified : Bool

inductive Status : Type where
  /-- 0 -/
  | got (f : File)
  /-- 3: it is the one installed -/
  | same
  /-- 1: it is not to be had -/
  | unavailable
  /-- 2: it fails its check -/
  | refused
  deriving DecidableEq

variable (src : Source)

/-- `module_from DIR`. -/
def moduleFrom (a : Asset) : Status :=
  match src.listed a with
  | some w => if src.there a ∧ src.hash a = w then .got ⟨a, w⟩ else .refused
  | none => .refused

/-- `module_from FILE`. -/
def moduleFromFile (a : Asset) : Status :=
  match src.listed a with
  | some w => if src.there a ∧ src.hash a = w then .got ⟨a, w⟩ else .refused
  | none => if src.there a ∧ src.unverified then .got ⟨a, src.hash a⟩ else .refused

def moduleDownload (n : Extra) (a : Asset) : Status :=
  match src.listed a with
  | some w =>
    if (s.bin n).isSome ∧ s.sha n = some w then .same
    else if src.there a ∧ src.hash a = w then .got ⟨a, w⟩
    else .unavailable
  | none => .unavailable

/-- A file from a directory, or from the release. -/
def moduleAsset (n : Extra) (a : Asset) : Status :=
  match src.from' with
  | .download => moduleDownload s src n a
  | _ => moduleFrom src a

/-- `module_get vpn-ENGINE`. -/
def moduleGet (x : Engine) : Status :=
  moduleAsset s src (.engine x) (.engine x)

/-- `module_get vpn`: the core, else the bundle. -/
def moduleGetVpn : Status :=
  match src.from' with
  | .file a => moduleFromFile src a
  | _ =>
    match moduleAsset s src .vpn .core with
    | .got f => .got f
    | .same => .same
    | r =>
      match moduleAsset s src .vpn .bundle with
      | .got f => .got f
      | .same => .same
      | _ => r

/-- `MODULE_BUNDLE`: what was got for `vpn`, or is installed, carries xray. -/
def moduleBundle : Status → Bool
  | .got f => .engine .xray ∈ f.asset.bin
  | .same => carries s (.engine .xray)
  | _ => false

/-- `module_get vpn-bundle`, with `MODULE_BUNDLE` set. -/
def moduleGetBundle : Option Status :=
  match moduleAsset s src .vpn .bundle with
  | .got f => some (.got f)
  | .same => if carries s (.engine .xray) then some .same else none
  | _ => none

/-! ## The set -/

/-- What an update finds, and how the outside answers it. -/
structure Env where
  source : Source
  /-- `mu300-vpn enabled`, or a system to be updated has `ENABLE=1` -/
  enabled : Bool
  /-- the installed systems, and the running one -/
  systems : List Settings
  /-- the words of `MU300_VPN_ENGINES`, `vpn-xray` when it is not set -/
  words : List Text
  /-- systems are to be updated -/
  todo : Bool
  /-- `extra_unpack` finds nothing wrong with a file and puts it in place -/
  fits : Extra → Bool
  /-- the hash is written down behind it -/
  records : Extra → Bool

/-- Lines `NAME FILE SHA`. -/
abbrev Set := List (Extra × File)

variable (env : Env)

/-- `vpn_engines_wanted`, in the order of `sort`. -/
def vpnEnginesWanted : List Engine :=
  [Engine.dae, .mihomo, .singbox, .xray].filter fun x =>
    vpnEngineHave s x || env.systems.any (fun r => x ∈ vpnEnginesOf r) ||
      (s.bin .vpn).isNone && x ∈ env.words.filterMap engineWord

/-- The loop of `vpn_module_get`: the files that are to be had (`_set`), and the engines that the
device runs on and that would be lost (`_missing`). -/
def collect (s : State) (src : Source) (bundle : Bool) : List Engine → Set × List Engine
  | [] => ([], [])
  | x :: xs =>
    let (set, missing) := collect s src bundle xs
    if bundle ∧ (x = .xray ∨ x = .singbox) then (set, missing)
    else
      match moduleGet s src x with
      | .got f => ((.engine x, f) :: set, missing)
      | .same => (set, missing)
      | _ =>
        if (s.bin (.engine x)).isSome then (set, missing)
        else if vpnEngineHave s x then (set, x :: missing)
        else (set, missing)

/-- The line for `vpn`, when there is a file. -/
def vpnLine : Status → Set
  | .got f => [(.vpn, f)]
  | _ => []

/-- The set with the bundle in place of the core. -/
def bundleSet (set : Set) (r : Status) : Set :=
  set.filter (fun l => l.1 ≠ .engine .xray ∧ l.1 ≠ .engine .singbox) ++ vpnLine r

/-- `vpn_module_get`: `VPN_SET`, or nothing with a status other than 0. -/
def vpnModuleGet : Option Set :=
  let r := moduleGetVpn s env.source
  match r with
  | .unavailable | .refused => none
  | _ =>
    let (set, missing) := collect s env.source (moduleBundle s r) (vpnEnginesWanted s env)
    if missing = [] then some (set ++ vpnLine r)
    else (moduleGetBundle s env.source).map (bundleSet set)

def vpnInUse : Bool := (s.bin .vpn).isSome || env.enabled

/-- Engines without the core, each on its own. -/
def enginesAlone : Set :=
  [Engine.xray, .singbox, .mihomo, .dae].filterMap fun x =>
    if (s.bin (.engine x)).isSome then
      match moduleGet s src x with
      | .got f => some (.engine x, f)
      | _ => none
    else none

/-- `modules_fetch`: `MODULES_NEW`, or the update stops. -/
def modulesFetch : Option Set :=
  if vpnInUse s env then
    match vpnModuleGet s env with
    | some set => some set
    | none => if vpnModuleIn s then some [] else if env.todo then none else some []
  else some (enginesAlone s env.source)

/-! ## The install -/

/-- `extra_unpack` puts it in place: nothing is wrong with it, and for `vpn` it is the module. -/
def puts (n : Extra) (f : File) : Bool :=
  env.fits n && (n ≠ .vpn || .toolkit ∈ f.asset.bin)

/-- `module_install`: the state after it, and whether it worked. -/
def moduleInstall (n : Extra) (f : File) (s : State) : State × Bool :=
  if puts env n f then
    ({ bin := fun m => if m = n then some f.asset.bin else s.bin m
       sha := fun m => if m = n ∧ env.records n then some f.sha else s.sha m }, env.records n)
  else (s, false)

/-- `modules_install`, with the engines that could not be installed and that the device has not
got otherwise (`_mi_bad`); the update may stop. -/
def modulesInstall (env : Env) : Set → List Engine → State → Option State
  | [], _, s => some s
  | (.vpn, f) :: rest, bad, s =>
    if bad ≠ [] then if vpnModuleIn s then modulesInstall env rest bad s else none
    else
      let (s', ok) := moduleInstall env .vpn f s
      if ok then modulesInstall env rest bad s'
      else if vpnModuleIn s' then modulesInstall env rest bad s'
      else none
  | (.engine x, f) :: rest, bad, s =>
    let (s', ok) := moduleInstall env (.engine x) f s
    if ok then modulesInstall env rest bad s'
    else modulesInstall env rest (if vpnEngineHave s' x then bad else bad ++ [x]) s'

def update : Option State :=
  (modulesFetch s env).bind fun set => modulesInstall env set [] s

end Mu300.Vpn
