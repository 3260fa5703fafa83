import NodeToolkit.Async.Pool
import NodeToolkit.Spec.FixedWindow
import NodeToolkit.Spec.SlidingWindow
import NodeToolkit.Spec.TokenBucket
import NodeToolkit.Proof.Redis
import NodeToolkit.Proof.FixedWindow
import NodeToolkit.Base.Queue
import NodeToolkit.Proof.LeakyBucket
import NodeToolkit.Base.Bucket
import NodeToolkit.Proof.TokenBucket
import NodeToolkit.Proof.BurstBound
import NodeToolkit.Proof.SlidingWindow
import NodeToolkit.Proof.NoTrace
import NodeToolkit.Async.Frame
import NodeToolkit.Proof.Isolation
import NodeToolkit.Proof.LeakyIsolation
import NodeToolkit.Base.Json
import NodeToolkit.Spec.Delivery
import NodeToolkit.Proof.Delivery
import NodeToolkit.Proof.Overlap
import NodeToolkit.Proof.Lifecycle
import NodeToolkit.Async.Alone
import NodeToolkit.Spec.Authorize
import NodeToolkit.Proof.Authorize
import NodeToolkit.Spec.Webhooks
import NodeToolkit.Proof.FanOut
import NodeToolkit.Spec.WebhooksManager
import NodeToolkit.Proof.Ownership
import NodeToolkit.Proof.WebhookRaces
import NodeToolkit.Base.JsonParse
import NodeToolkit.Spec.Cache
import NodeToolkit.Proof.CacheAgree
import NodeToolkit.Proof.SetNx
import NodeToolkit.Proof.QuotaCache
import NodeToolkit.Async.Triple
import NodeToolkit.Proof.EventsBroker
import NodeToolkit.Proof.DeliveryLedger
import NodeToolkit.Proof.RetryPasses
import NodeToolkit.Async.Schedule
import NodeToolkit.Proof.RetryBudget
import NodeToolkit.Proof.MediaManager
import NodeToolkit.Base.Date
import NodeToolkit.Spec.JobsScheduler
import NodeToolkit.Proof.FirstExecution
import NodeToolkit.Proof.EventCodec
import NodeToolkit.Proof.LogDecorator
import NodeToolkit.Proof.Transactional
import NodeToolkit.Proof.FsCloudProvider
import NodeToolkit.Proof.RabbitmqEventsBroker
import NodeToolkit.Base.EventEmitter
import NodeToolkit.Spec.NodeNativeEventsBroker
import NodeToolkit.Proof.NodeNativeEventsBroker
import NodeToolkit.Async.Awaiting
import NodeToolkit.Spec.FsLogger
import NodeToolkit.Proof.FsLogger
import NodeToolkit.Base.Walk
import NodeToolkit.Proof.Pagination
import NodeToolkit.Base.Number
import NodeToolkit.Spec.DeepEqual
import NodeToolkit.Proof.DeepEqual
import NodeToolkit.Spec.DeepMerge
import NodeToolkit.Proof.DeepMerge
import NodeToolkit.Base.Regex
import NodeToolkit.Spec.QueryBuilder
import NodeToolkit.Proof.RegexSearch
import NodeToolkit.Proof.QueryBuilder
import NodeToolkit.Proof.Intervals
import NodeToolkit.Spec.TestEvent
import NodeToolkit.Proof.TestEvent
import NodeToolkit.Proof.SendingAlone
import NodeToolkit.Proof.LeakySummaries
import NodeToolkit.Proof.FixedWindowAlone
import NodeToolkit.Proof.FixedWindowSerial
import NodeToolkit.Spec.FileCompressor
import NodeToolkit.Spec.RemoveDuplicates
import NodeToolkit.Spec.TimeCalculator
import NodeToolkit.Base.Firsts
import NodeToolkit.Proof.RemoveDuplicates
import NodeToolkit.Proof.FileCompressor
import NodeToolkit.Proof.TimeCalculator
import NodeToolkit.Proof.JobRunner
import NodeToolkit.Base.Double
import NodeToolkit.Proof.LogTransparent
import NodeToolkit.Spec.Retry
import NodeToolkit.Proof.Retry
import NodeToolkit.Base.RelativePath
import NodeToolkit.Proof.Containment
import NodeToolkit.Base.Cartesian
import NodeToolkit.Spec.CartesianProduct
import NodeToolkit.Proof.CartesianProduct
import NodeToolkit.Async.Layers
import NodeToolkit.Async.Trace
import NodeToolkit.Spec.WebhooksSystem
import NodeToolkit.Proof.WebhooksSystem
import NodeToolkit.Proof.Publishing
import NodeToolkit.Proof.OutboxSystem
import NodeToolkit.Spec.RateLimitingManager
import NodeToolkit.Proof.RateLimitingManager
import NodeToolkit.Base.EventLoop
import NodeToolkit.Spec.InMemoryJobsScheduler
import NodeToolkit.Proof.InMemoryJobsScheduler
import NodeToolkit.Async.Ledger
import NodeToolkit.Proof.MediaSystem
import NodeToolkit.Proof.QuotaInForce
