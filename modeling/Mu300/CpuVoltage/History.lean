import Mu300.Lib.Shell

/-!
# What happened to the CPU voltage

The history of a device as far as its voltage offset goes, newest event first, and what
can be read off it. Nothing here knows of the files the two programs keep.
-/

namespace Mu300.CpuVoltage

open Shell

/-- `0,0,0`, the stock voltages. -/
def zero : Text := ['0', ',', '0', ',', '0']

/-- What the history has. -/
inductive Event : Type where
  | booted
  /-- the boot hands the kernel a value -/
  | handed (v : Text)
  /-- the user's value is in place of the one before -/
  | requested (v : Text)
  /-- the boot took the request back, for any reason -/
  | rejected
  /-- the boot has been up ten minutes -/
  | tenMinutes
  | shutdown
  /-- the boot ends without a shutdown; `kept` says that keep-good is on and it had been up
  ten minutes with the requested, good value -/
  | cut (kept : Bool)
  deriving DecidableEq

/-- A history, newest event first. -/
abbrev Log := List Event

/-! ## Requests -/

def lastRequest : Log → Text
  | [] => zero
  | .requested v :: _ => v
  | _ :: l => lastRequest l

/-- A boot since the last request was handed `w`. -/
def handedSince (w : Text) : Log → Bool
  | [] => false
  | .requested _ :: _ => false
  | .handed v :: l => v = w || handedSince w l
  | _ :: l => handedSince w l

/-! ## The boot on top -/

/-- It was handed `w`. -/
def bootHanded (w : Text) : Log → Bool
  | [] => false
  | .booted :: _ => false
  | .handed v :: l => v = w || bootHanded w l
  | _ :: l => bootHanded w l

def bootUp : Log → Bool
  | [] => false
  | .booted :: _ => false
  | .tenMinutes :: _ => true
  | _ :: l => bootUp l

/-- It was handed an offset, and has not taken it back. -/
def standing : Log → Bool
  | [] => false
  | .booted :: _ | .rejected :: _ => false
  | .handed v :: l => v ≠ zero || standing l
  | _ :: l => standing l

/-! ## Ten minutes -/

/-- A boot that was handed `w`, and ran when the last request was made or started since,
was up ten minutes. -/
def upWith (w : Text) : Log → Bool
  | [] => false
  | .requested _ :: l => bootHanded w l && bootUp l
  | .tenMinutes :: l => bootHanded w l || upWith w l
  | _ :: l => upWith w l

/-- The boot on top was handed `w` since the last request. -/
def bootHandedSince (w : Text) : Log → Bool
  | [] => false
  | .booted :: _ => false
  | .requested _ :: _ => false
  | .handed v :: l => v = w || bootHandedSince w l
  | _ :: l => bootHandedSince w l

/-- A boot that started since the last request and was handed `w` was up ten minutes. -/
def upSince (w : Text) : Log → Bool
  | [] => false
  | .requested _ :: _ => false
  | .tenMinutes :: l => bootHandedSince w l || upSince w l
  | _ :: l => upSince w l

/-! ## Offsets taken back -/

/-- A boot took its request back, or ended with a standing offset and no shutdown (and
nothing kept it); nothing was asked for since. -/
def dropped : Log → Bool
  | [] => false
  | .requested _ :: _ => false
  | .rejected :: _ => true
  | .cut kept :: l => !kept && standing l || dropped l
  | _ :: l => dropped l

/-- An offset ended without a shutdown, and no boot since then has gone as far as handing
over a value. -/
def unsettled : Log → Bool
  | [] => false
  | .requested _ :: _ => false
  | .rejected :: _ => false
  | .handed _ :: _ => false
  | .cut kept :: l => !kept && standing l || unsettled l
  | _ :: l => unsettled l

attribute [simp] lastRequest handedSince bootHanded bootUp standing upWith bootHandedSince upSince
  dropped unsettled

end Mu300.CpuVoltage
