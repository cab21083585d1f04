import Pvfs.Description.StripeLaws
import Pvfs.Description.SizeCheck
import Pvfs.Description.OneCopy
import Pvfs.Description.InPlace
import Pvfs.Description.Budget
import Pvfs.Server.Drain
import Pvfs.Server.MigrationTarget
import Pvfs.Server.MigState
import Pvfs.Server.MigrationChoice
import Pvfs.Server.MigrationCopy
import Pvfs.Server.MigrationOutcome
import Pvfs.Server.ReadOnly
import Pvfs.Server.AclDecision
import Pvfs.Trove.Purgatory
import Pvfs.Trove.HandleCounts
import Pvfs.Trove.ExtentSet
import Pvfs.Trove.AioWrite
import Pvfs.Trove.DirectRace
import Pvfs.Trove.Durability
import Pvfs.Trove.CacheCoherence
import Pvfs.Trove.IterateAgain
import Pvfs.Trove.RemoveHandle
import Pvfs.Flow.Framing
import Pvfs.Flow.ReadRuns
import Pvfs.Common.MsgpairReports
import Pvfs.Common.ParallelJump
import Pvfs.Common.Tcache
import Pvfs.Common.StrUtils
import Pvfs.Job.BmiCancel
import Pvfs.Client.MigrationFlag
import Pvfs.Client.Unstuff
import Pvfs.Client.ReadTotal
import Pvfs.Client.Rename
import Pvfs.Client.Create
import Pvfs.Description.Commit
import Pvfs.Description.Shipping
