import Mu300.Lib.Shell

/-!
# The system a boot starts

`pick_root` in `boot/init` looks for the system that `.mu300/boot-os` names, then for the three it
knows, and takes the first directory with an init in it. It knows no kept copies: a name with a
dot is no name.
-/

namespace Mu300

open Shell

/-- The systems of the Linux partition (`SYSTEMS`). -/
inductive System : Type where
  | ubuntu
  | openwrt
  | openwrtLuci
  deriving DecidableEq

def System.name : System → Text
  | ubuntu => ['u', 'b', 'u', 'n', 't', 'u']
  | openwrt => ['o', 'p', 'e', 'n', 'w', 'r', 't']
  | openwrtLuci => ['o', 'p', 'e', 'n', 'w', 'r', 't', '-', 'l', 'u', 'c', 'i']

namespace PickRoot

/-- What `pick_root` looks at. -/
structure Disk where
  /-- `.mu300/boot-os` -/
  bootOs : Option Text
  /-- `[ -d /disk/NAME ] && has_init /disk/NAME` -/
  hasInit : Text → Bool
  /-- `[ -x /disk/lib/systemd/systemd ]` -/
  legacy : Bool

inductive Root : Type where
  /-- `/disk/NAME` -/
  | system (name : Text)
  /-- `/disk` itself, as the first installs had it -/
  | disk
  deriving DecidableEq

def want (d : Disk) : Text :=
  let w := captured (d.bootOs.getD [])
  if '.' ∈ w ∨ '/' ∈ w then [] else w

def pickRoot (d : Disk) : Option Root :=
  (fields (want d) ++ [System.ubuntu.name, System.openwrt.name, System.openwrtLuci.name]).findSome?
    fun os =>
      if d.hasInit os then some (.system os)
      else if os = System.ubuntu.name ∧ d.legacy then some .disk
      else none

theorem pickRoot_wanted {d : Disk} {os : System} {boot : Text} (hb : d.bootOs = some boot)
    (hw : captured boot = os.name) (hi : d.hasInit os.name) :
    pickRoot d = some (.system os.name) := by
  have hwant : fields (want d) = [os.name] := by
    have : want d = os.name := by
      rw [want, hb, Option.getD_some, hw]
      cases os <;> rfl
    rw [this]
    cases os <;> decide
  rw [pickRoot, hwant, List.singleton_append, List.findSome?_cons, if_pos hi]

end PickRoot

end Mu300
