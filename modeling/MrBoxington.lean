import MrBoxington.Scheduler.Passing
import MrBoxington.ActionCache.SlotRuns
import MrBoxington.TaskManifest.LockingRuns
import MrBoxington.Scheduler.FlightRuns
import MrBoxington.FileDigest.ValidatedRuns
import MrBoxington.Rustdoc.DocumentRuns
import MrBoxington.LocalCas.StoringRuns
import MrBoxington.TaskManifest.Published
import MrBoxington.OutDir.StabilizeRuns
import MrBoxington.Incremental.Epoch
import MrBoxington.Scheduler.PassExact
import MrBoxington.Scheduler.TicketRuns
import MrBoxington.TaskManifest.LocalMerge
import MrBoxington.Uploads.Polled
import MrBoxington.Rustc.DeepestRoot
import MrBoxington.Rustc.AliasMemo
import MrBoxington.Cc.CompilerArguments
import MrBoxington.Rustc.DepInfoRoundTrip
import MrBoxington.Cc.DepfileRoundTrip
import MrBoxington.Store.EvictionAttempts
import MrBoxington.Store.SharedTrees
import MrBoxington.Cc.InputScans
import MrBoxington.Scheduler.Pressure
import MrBoxington.Analyze.CriticalWalk
import MrBoxington.Analyze.Alone
import MrBoxington.Events.SessionTail
import MrBoxington.Prefetch.FetchLocks
import MrBoxington.Scheduler.TestHistoryRuns
import MrBoxington.Target.UnitRemovalRuns
import MrBoxington.Target.SeedLinks
import MrBoxington.Prefetch.DownloadBudget
import MrBoxington.SigV4.Timestamp
import MrBoxington.Incremental.InodeRuns
import MrBoxington.Target.SeedScan
import MrBoxington.Savings.Tally
import MrBoxington.BuildScript.ArchiveDate
import MrBoxington.Store.Rooted
import MrBoxington.Store.Swept
