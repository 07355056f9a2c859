import LlmServe.Engine.Generate

/-!
# The operator's side of the server (`engine/api.py`, `engine/observability.py`)

`/stats` and `/metrics` read the scheduler while it works. Their handlers run in threads of their own,
so each line that reads is given the state it finds: `statsAt`, `collectAt`. `LlmServe/Spec/Operator.lean`
says what they can find.
-/

namespace LlmServe

/-- The entries of `state` that the endpoints use, at some line. -/
structure ApiState (σ : Type) where
  loop : EngineLoop σ
  tReset : Time

/-- What `_StateCollector.collect` yields, in its order. -/
structure Gauges where
  queueDepth : Nat
  runningRequests : Nat
  queueCap : Nat
  maxBatch : Nat
  kvUnitsUsed : Int
  kvUnitsTotal : Int
  kvTokenEfficiency : Rat
  preemptionsTotal : Nat
  decodeStepsTotal : Nat
  engineThreadAlive : Nat
  deriving DecidableEq

/-- The lines of `collect`, of `queue_depth` and of the manager's `stats` that read something. -/
inductive CollectLine where
  | qsize
  | waiting
  | running
  | used
  | liveTokens
  | capacityTokens
  | preemptions
  | steps
  | alive
  deriving DecidableEq

namespace ApiState

variable {σ : Type} (cfg : EngineConfig)

/-- `summary`, called by `stats`. -/
def statsAt (v : SummaryLine → ApiState σ) (wallSeconds : Time) : Except PyError Summary :=
  EngineMetrics.summaryAt (fun line => (v line).loop.sched.metrics) wallSeconds

/-- `stats`, if nothing changes while it runs. -/
def stats (v : ApiState σ) (now : Time) : Except PyError Summary :=
  statsAt (fun _ => v) (now - v.tReset)

def kv (v : ApiState σ) : Stats := v.loop.sched.manager.stats v.loop.sched.heap

/-- `_StateCollector.collect`, where it answers: it raises if `live` changes while it iterates. -/
def collectAt (v : CollectLine → ApiState σ) : Gauges where
  queueDepth := (v .qsize).loop.inbox.length + (v .waiting).loop.sched.waiting.length
  runningRequests := (v .running).loop.sched.running.length
  queueCap := cfg.maxQueue.getD 0
  maxBatch := cfg.maxBatch
  kvUnitsUsed := (v .used).kv.used
  kvUnitsTotal := (v .used).kv.total
  kvTokenEfficiency :=
    if (v .capacityTokens).kv.capacityTokens ≠ 0 then
      ((v .liveTokens).kv.liveTokens : Rat) / (v .capacityTokens).kv.capacityTokens
    else 0
  preemptionsTotal := (v .preemptions).loop.sched.metrics.preemptions
  decodeStepsTotal := (v .steps).loop.sched.metrics.steps
  engineThreadAlive := if (v .alive).loop.pc = .done then 0 else 1

end ApiState

end LlmServe
