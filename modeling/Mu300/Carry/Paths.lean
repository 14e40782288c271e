import Mu300.Lib.FileTree

/-!
# Places of a system

What the carry block of `mu300-update` asks of a path: whose it is, and whether an update may carry
it. A path is relative to the root of its system.
-/

namespace Mu300.Carry

open Shell FileTree

/-- `CARRY_KIND`. -/
inductive OsKind : Type where
  | ubuntu
  | openwrt
  deriving DecidableEq

/-- Below a directory: `index(p, d "/") == 1`. -/
def below (d p : Text) : Bool := (d ++ ['/']).isPrefixOf p

/-- `under(p, "a|b")`: below one of these. -/
def under (p : Text) (dirs : List String) : Bool := dirs.any fun d => below d.toList p

/-- `^(a|b)(/|$)`: one of these, or below it. -/
def within (p : Text) (dirs : List String) : Bool :=
  dirs.any fun d => p = d.toList || below d.toList p

/-- `^DIR/[^/]*$`: the name of something in a directory. -/
def nameIn (dir : String) (p : Text) : Option Text :=
  if below dir.toList p ∧ '/' ∉ p.drop (dir.length + 1)
    then some (p.drop (dir.length + 1)) else none

/-- The name in one of these directories, if it is of a kind. -/
def named (p : Text) (dirs : List String) (kind : Text → Bool) : Bool :=
  dirs.any fun d => (nameIn d p).any kind

/-- `.*STEM`. -/
def endsIn (stem : String) (b : Text) : Bool := stem.toList.isSuffixOf b

/-- `STEM.*`. -/
def startsWith (stem : String) (b : Text) : Bool := stem.toList.isPrefixOf b

/-- `sub(/.*\//, "", b)`. -/
def basename (p : Text) : Text := p.rtakeWhile (· ≠ '/')

/-- The caches of Python: `^usr/.*/__pycache__(/|$)`. -/
def pycache (p : Text) : Bool :=
  match p.splitOn '/' with
  | top :: _ :: rest => top = "usr" && "__pycache__" ∈ rest
  | _ => false

def never (kind : OsKind) (p : Text) : Bool :=
  under p ["proc", "sys", "dev", "run", "tmp", "var/tmp", "var/cache", "var/run", "var/lock",
    "lost+found", "mnt/mu300-disk"] ||
  (kind = .ubuntu && under p ["usr/lib/modules"]) ||
  (pycache p && !under p ["usr/local"]) ||
  within p [".mu300-image", ".mu300-carry"]

/-- `other`: handled by another step of the update, or the state of the package manager. -/
def other (p : Text) : Bool :=
  p ∈ (["etc/passwd", "etc/group", "etc/shadow", "etc/gshadow", "etc/subuid", "etc/subgid",
    "etc/passwd-", "etc/group-", "etc/shadow-", "etc/gshadow-", "etc/subuid-", "etc/subgid-",
    "etc/.pwd.lock", "etc/ld.so.cache", "etc/mu300/image-version", "etc/mu300/image-packages",
    "etc/mu300/packages.txt", "etc/mu300/image-manifest.gz", "etc/mu300/update-report.new",
    "etc/.mu300-accounts-from-image", "etc/apk/world"].map String.toList) ||
  within p ["etc/mu300/user-packages", "var/lib/dpkg", "var/lib/apt", "var/lib/ucf", "var/lib/pam",
    "etc/alternatives", "lib/apk", "usr/lib/opkg"] ||
  startsWith "var/lib/systemd/deb-systemd-helper-" p ||
  startsWith "var/lib/systemd/deb-systemd-user-helper-" p

def aptsrc (p : Text) : Bool :=
  named p ["etc/apt/sources.list.d"] fun b => endsIn ".list" b || endsIn ".sources" b

/-- `vendor`: the files of the device itself. -/
def vendor (kind : OsKind) (p : Text) : Bool :=
  under p ["opt/mu300/android", "lib/firmware", "usr/lib/firmware"] ||
    (kind = .openwrt && under p ["lib/modules"])

def project (cmds : List Text) (p : Text) : Bool :=
  under p ["opt/mu300", "usr/libexec/unisoc-modem"] ||
  named p ["etc/systemd/system", "usr/lib/systemd/system", "lib/systemd/system", "etc/init.d"]
    (startsWith "mu300-") ||
  named p ["usr/local/bin"] fun b => b ∈ cmds

def script (p : Text) : Bool :=
  under p ["etc/init.d", "etc/hotplug.d", "etc/hotplug-preinit.d", "etc/rc.button", "etc/board.d"]

def userarea (p : Text) : Bool :=
  under p ["etc", "var", "home", "root", "srv", "mnt", "media", "usr/local", "opt"]

/-- What `pam-auth-update` writes: `^etc/pam\.d/common-`. -/
def pamCommon (p : Text) : Bool := startsWith "etc/pam.d/common-" p

def quiet (p : Text) : Bool := under p ["var"]

/-- `secure`: what protects the device. -/
def secure (p : Text) : Bool :=
  within p (["config", "sudoers", "sudoers.d", "sysctl.conf", "sysctl.d", "nftables.conf",
    "nftables.d", "firewall.user", "security", "hosts.allow", "hosts.deny", "pam.d", "modprobe.d",
    "ssl/private", "uhttpd.crt", "uhttpd.key", "rc.local", "systemd/system", "systemd/user", "rc.d",
    "crontabs", "cron.d"].map ("etc/" ++ ·))

def enableLink (p : Text) : Bool :=
  named p ["etc/rc.d"] (fun b => startsWith "S" b || startsWith "K" b) ||
    match p.splitOn '/' with
    | [etc, systemd, level, wants, _] =>
      etc = "etc" && systemd = "systemd" &&
        (level = "system" || level = "user") &&
        (endsIn ".wants" wants || endsIn ".requires" wants)
    | _ => false

def serviceFile (p : Text) : Bool :=
  named p ["usr/lib/systemd/system", "lib/systemd/system", "etc/systemd/system", "etc/init.d"]
    fun _ => true

/-- `service_of`: the unit of a wants link, the init script of `S50cron`. -/
def serviceOf (p : Text) : Text :=
  let b := basename p
  if under p ["etc/rc.d"] && (startsWith "S" b || startsWith "K" b) then
    (b.drop 1).dropWhile Char.isDigit
  else b

/-- `listed`: one of these, or below one with `/` at its end. -/
def listed (names : List Text) (p : Text) : Bool :=
  p ∈ names || (above p).any fun d => d ≠ [] && d ++ ['/'] ∈ names

theorem mem_above_of_below {d p : Text} (h : below d p) : d ∈ above p := by
  obtain ⟨rest, rfl⟩ := List.isPrefixOf_iff_prefix.1 h
  refine List.mem_filterMap.2 ⟨d.length, ?_, ?_⟩
  · rw [List.mem_range]
    simp only [List.length_append, List.length_singleton]
    omega
  · simp

end Mu300.Carry
