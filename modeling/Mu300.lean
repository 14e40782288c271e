import Mu300.Online.State
import Mu300.BootChain.Sync
import Mu300.NextBoot.Failure
import Mu300.NextBoot.Fallback
import Mu300.Update.Trust
import Mu300.CpuVoltage.Trial
import Mu300.Traffic.Conservation
import Mu300.Traffic.Cut
import Mu300.Switch.Rollback
import Mu300.Switch.PowerCut
import Mu300.KernelStep.Ramdisk
import Mu300.KernelStep.History
import Mu300.Vpn.Engines
import Mu300.Accounts.Passwords
import Mu300.Accounts.Owners
import Mu300.Thermal.Caps
import Mu300.Lock.Reset
import Mu300.Sms.Moved
import Mu300.Carry.Modes
import Mu300.Traffic.Cycles
import Mu300.Online.Target
import Mu300.Region
import Mu300.Gpt.Command
import Mu300.Update.Pick
import Mu300.Update.Downgrade
import Mu300.Sms.PoolLock
import Mu300.Update.Lock
import Mu300.Update.CopyMissing
import Mu300.Update.Extra
import Mu300.Carry.Deleted
import Mu300.Delta.Exact
import Mu300.Carry.CopyKeeps
import Mu300.Power.Hysteresis
import Mu300.Lock.Automatic
import Mu300.NextBoot.AwkBlock
import Mu300.Image.Cpio
import Mu300.Ndp.Withdraw
import Mu300.Ndp.Address
import Mu300.Sms.RoundTrip
import Mu300.Json.Lines
import Mu300.Sms.Grouped
import Mu300.Usign
import Mu300.Adb.Shell
import Mu300.Sms.Stamps
import Mu300.Ed25519
