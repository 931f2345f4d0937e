import BulkActions.TerminalStatus
import BulkActions.AuditTrail
import BulkActions.CountedOnce
import BulkActions.RecordedOnce
import BulkActions.CrashRecovery
import BulkActions.PlannerRace
import BulkActions.Submission
import BulkActions.OneShot
import BulkActions.Convergence
import BulkActions.DedupLedger
import BulkActions.MovingTarget
import BulkActions.TenantIsolation
import BulkActions.DriftAccounting
import BulkActions.FinalisedOnce
import BulkActions.Admission
import BulkActions.PoisonBatch
import BulkActions.RetryBudget
import BulkActions.JobChain
import BulkActions.FailedInert
import BulkActions.Cancellation
import BulkActions.ClockSkew
import BulkActions.ColumnConstraints
import BulkActions.ContainsOperator
import BulkActions.FilterCompilation
import BulkActions.LogCursor
import BulkActions.ProgressStream
import BulkActions.OverlappingSubmissions
import BulkActions.NamedEntities
import BulkActions.UpdateStatement
import BulkActions.PlanPublished
import BulkActions.LogPages
import BulkActions.RetryAfter
import BulkActions.DeniedCalls
import BulkActions.DedupSplit
import BulkActions.LockOrder
import BulkActions.BatchLocks
import BulkActions.StoredConfig
import BulkActions.StoredFilter
import BulkActions.StreamOrder
import BulkActions.HalfEven
import BulkActions.ProgressPercent
import BulkActions.History
import BulkActions.BatchListing
import BulkActions.Completion
import BulkActions.Tenants
import BulkActions.Rerun
import BulkActions.Throughput
import BulkActions.NoisyNeighbours
import BulkActions.Listings
import BulkActions.EventText
import BulkActions.LivePlanning
