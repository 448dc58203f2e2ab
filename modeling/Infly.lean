import Infly.Dict
import Infly.Transitions
import Infly.Contracts
import Infly.Config
import Infly.PoolModel
import Infly.PoolTables
import Infly.PoolAccounting
import Infly.PoolGroups
import Infly.PoolFrames
import Infly.PoolInvariant
import Infly.PoolDelivery
import Infly.PoolSupervision
import Infly.Progress
import Infly.PoolSettling
import Infly.PoolHandles
import Infly.PoolUnload
import Infly.PoolClose
import Infly.PoolRouting
import Infly.StaleResults
import Infly.PriorityQueue
import Infly.TaskBackend
import Infly.Observability
import Infly.SchedulerState
import Infly.SchedulerModel
import Infly.SchedulerLocks
import Infly.SchedulerControl
import Infly.SchedulerLedger
import Infly.Retention
import Infly.SubmitCalls
import Infly.IdleWorkers
import Infly.AsyncWaiters
import Infly.WaitingCalls
import Infly.StopHandover
import Infly.StopReturns
import Infly.TraceOrder
import Infly.Metrics
import Infly.Conservation
import Infly.PullOrder
import Infly.GroupFairness
import Infly.Failover
import Infly.WorkerBalance
import Infly.RestartLimit
import Infly.RestartBackoff
import Infly.HealthSnapshot
import Infly.PoolStartup
import Infly.CacheIdentity
import Infly.CacheCanonical
import Infly.ImportPath
import Infly.TaskAccounting
import Infly.LogManagers
import Infly.LogStreams
import Infly.SubmitRollback
import Infly.ExecutorCache
import Infly.CacheRecursion
import Infly.Deployment
import Infly.EndToEnd
import Infly.ServiceRefinement
import Infly.LogPipeline
import Infly.SchedulerHealth
import Infly.HandlerLoading
import Infly.MetricsText
