import MiningPool.LogFilter
import MiningPool.Main
import MiningPool.Proofs.Admission.Clearing
import MiningPool.Proofs.Admission.Sweeping
import MiningPool.Proofs.Json.Passing
import MiningPool.Proofs.Logins
import MiningPool.Proofs.Pool.Identity
import MiningPool.Proofs.Pool.Login
import MiningPool.Proofs.Pool.LoginJob
import MiningPool.Proofs.Pool.Uninterrupted
import MiningPool.Proofs.Roster.OneByOne
import MiningPool.Proofs.Roster.Queues
import MiningPool.Proofs.Settings.Startup
import MiningPool.Proofs.Wire.Draining
import MiningPool.Proofs.Wire.LineEndings
import MiningPool.Proofs.Wire.ReadBack
import MiningPool.Proofs.Work.Expiry
import MiningPool.Proofs.Work.ShownHeight
import MiningPool.Proofs.World.Accounts
import MiningPool.Proofs.World.Conservation
import MiningPool.Proofs.World.Discretion
import MiningPool.Proofs.World.Doorway
import MiningPool.Proofs.World.Outage
import MiningPool.Proofs.World.Sessions
import MiningPool.Proofs.World.Spared
import MiningPool.Proofs.World.Strikes
import MiningPool.Proofs.World.Transcripts
import MiningPool.Settings.Writing
import MiningPool.Proofs.Wire.Requests
import MiningPool.Proofs.Wire.Unheard
import MiningPool.Proofs.World.Idling
import MiningPool.Pool.Errand
import MiningPool.World.Traffic
import MiningPool.Proofs.World.Traffic
import MiningPool.Proofs.Command
import MiningPool.Proofs.Settings.Provisions
import MiningPool.Proofs.Wire.Canonical
import MiningPool.Proofs.Wire.OneLine
import MiningPool.Proofs.Wire.Draining
