import LlmServe.Infra.Dict
import LlmServe.Infra.Machine
import LlmServe.Infra.Causal
import LlmServe.Infra.Paging
import LlmServe.Infra.Ownership
import LlmServe.Infra.SortKey
import LlmServe.Infra.Unroll
import LlmServe.Infra.Utf8
import LlmServe.Infra.Utf8Ends
import LlmServe.Infra.FoldPerm
import LlmServe.Infra.Utf16
import LlmServe.Infra.Reader
import LlmServe.Infra.JsonText
import LlmServe.Infra.Rounding
import LlmServe.Engine.Request
import LlmServe.Engine.Metrics
import LlmServe.Engine.BlockManager
import LlmServe.Engine.Scheduler
import LlmServe.Engine.Engine
import LlmServe.Engine.EngineLoop
import LlmServe.Engine.WakeLoop
import LlmServe.Engine.RetireCall
import LlmServe.Engine.NextToken
import LlmServe.Engine.NaiveScheduler
import LlmServe.Engine.NaiveThread
import LlmServe.Engine.Cache
import LlmServe.Engine.ModelRunner
import LlmServe.Engine.Detokenizer
import LlmServe.Engine.Api
import LlmServe.Engine.Handler
import LlmServe.Engine.Generate
import LlmServe.Engine.Operations
import LlmServe.Bench.DoRequest
import LlmServe.Bench.Unmarshal
import LlmServe.Engine.Body
import LlmServe.Bench.Plan
import LlmServe.Bench.Report
import LlmServe.Bench.Summarize
import LlmServe.Properties.Allocator
import LlmServe.Properties.Lifecycle
import LlmServe.Spec.SmallStep
import LlmServe.Properties.Placement
import LlmServe.Spec.RequestLife
import LlmServe.Properties.RequestFacts
import LlmServe.Properties.TokenStream
import LlmServe.Spec.Handlers
import LlmServe.Properties.Ownership
import LlmServe.Properties.Invariant
import LlmServe.Spec.EmitLines
import LlmServe.Spec.ForwardPass
import LlmServe.Properties.Greedy
import LlmServe.Properties.NaiveRun
import LlmServe.Properties.NaiveLines
import LlmServe.Properties.Books
import LlmServe.Spec.StepOps
import LlmServe.Spec.Runs
import LlmServe.Theorems.Partition
import LlmServe.Theorems.ExactlyOnce
import LlmServe.Properties.Context
import LlmServe.Properties.Accounting
import LlmServe.Properties.Faults
import LlmServe.Properties.Capacity
import LlmServe.Properties.Batches
import LlmServe.Properties.Workload
import LlmServe.Properties.Progress
import LlmServe.Properties.Queue
import LlmServe.Theorems.WorstCase
import LlmServe.Theorems.RepeatedIds
import LlmServe.Theorems.Drains
import LlmServe.Theorems.NoStarvation
import LlmServe.Theorems.NoLostRequest
import LlmServe.Theorems.NaiveBackend
import LlmServe.Properties.CacheAccess
import LlmServe.Properties.Storage
import LlmServe.Properties.Recompute
import LlmServe.Theorems.PagedRefines
import LlmServe.Properties.CachedDecode
import LlmServe.Theorems.GoldenLaw
import LlmServe.Properties.Windows
import LlmServe.Theorems.Streaming
import LlmServe.Properties.ResponseLines
import LlmServe.Properties.ScanLoop
import LlmServe.Properties.LineReading
import LlmServe.Properties.Planned
import LlmServe.Properties.CutStream
import LlmServe.Properties.LineLength
import LlmServe.Theorems.StreamFormat
import LlmServe.Theorems.Percentiles
import LlmServe.Theorems.QueueCap
import LlmServe.Theorems.NoLostWakeup
import LlmServe.Theorems.NoOvertaking
import LlmServe.Theorems.Disconnect
import LlmServe.Theorems.Stats
import LlmServe.Theorems.Vocabulary
import LlmServe.Properties.NaiveService
import LlmServe.Theorems.FinishedState
import LlmServe.Theorems.Capacity
import LlmServe.Theorems.MemoryTracksTokens
import LlmServe.Theorems.Headroom
import LlmServe.Theorems.Context
import LlmServe.Properties.Alone
import LlmServe.Theorems.AttentionMask
import LlmServe.Theorems.FitsEver
import LlmServe.Theorems.TerminalState
import LlmServe.Theorems.Report
import LlmServe.Theorems.AllocationGuard
import LlmServe.Theorems.KvEfficiency
import LlmServe.Theorems.HeldBack
import LlmServe.Infra.Service
import LlmServe.Properties.Origin
import LlmServe.Properties.LoopOrigin
import LlmServe.Properties.AccessTotal
import LlmServe.Properties.ModelCalls
import LlmServe.Properties.ServerWorld
import LlmServe.Properties.FrontDoor
import LlmServe.Theorems.ServerDrains
import LlmServe.Theorems.NeverRaises
import LlmServe.Theorems.RunSchedule
import LlmServe.Theorems.Refinement
import LlmServe.Properties.Counters
import LlmServe.Theorems.Counters
import LlmServe.Infra.OrderStatistics
import LlmServe.Properties.Clock
import LlmServe.Properties.Gauges
import LlmServe.Properties.Latencies
import LlmServe.Theorems.Summary
import LlmServe.Spec.Http
import LlmServe.Engine.Connection
import LlmServe.Properties.Connections
import LlmServe.Theorems.HttpAnswers
import LlmServe.Theorems.HttpCounts
import LlmServe.Theorems.LoadTest
