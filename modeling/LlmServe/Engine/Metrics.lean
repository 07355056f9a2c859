import LlmServe.Engine.Request
import LlmServe.Infra.Rounding
import LlmServe.Infra.SortKey
import Mathlib.Data.Rat.Floor

/-!
# Counters and timings (`engine/metrics.py`)

Averages are quotients, kept exact here. The scheduler only writes the counters; `summary` reads
them back. The methods run on different threads, so each is also given line by line: what it writes
(`write`, `clear`) or finds (`summaryAt`) at each line.
-/

namespace LlmServe

open Infra

structure RequestMetrics where
  ttft : Time
  e2e : Time
  tpot : Option Rat
  outputTokens : Nat
  promptTokens : Nat

/-- `request_metrics`. It asserts that both times are set. -/
def requestMetrics (q : Request) : Except PyError RequestMetrics :=
  match q.firstTokenTime, q.finishTime with
  | some first, some finish =>
    let ttft := first - q.arrivalTime
    let e2e := finish - q.arrivalTime
    let n := q.outputTokenIds.length
    .ok { ttft, e2e, tpot := if 1 < n then some ((e2e - ttft : Rat) / (n - 1)) else none,
          outputTokens := n, promptTokens := q.promptTokenIds.length }
  | _, _ => .error (.assertionError "")

/-- `s[i]`: a negative index counts from the end. -/
def getItem {α : Type} (s : List α) (i : Int) : Except PyError α :=
  let j := if i < 0 then i + s.length else i
  match if j < 0 then none else s[j.toNat]? with
  | some x => .ok x
  | none => .error (.indexError "list index out of range")

/-- `percentile`; the rank is rounded as `round` does, a half to the even neighbour. -/
def percentile {α : Type} [LinearOrder α] (xs : List α) (p : Rat) : Except PyError (Option α) :=
  if xs = [] then .ok none
  else do
    let s := sortKey id xs
    let x ← getItem s (min (s.length - 1) (roundHalfEven (p / 100 * (s.length - 1))))
    return some x

/-- `statistics.median`. -/
def median (xs : List Rat) : Except PyError Rat :=
  let s := sortKey id xs
  let n : Int := s.length
  if n = 0 then .error (.valueError "no median for empty data")
  else if n % 2 = 1 then getItem s (n / 2)
  else do
    let low ← getItem s (n / 2 - 1)
    let high ← getItem s (n / 2)
    return (low + high) / 2

structure EngineMetrics where
  maxSlots : Nat := 1
  steps : Nat := 0
  occupiedSlotSteps : Nat := 0
  kvUsedSteps : Rat := 0
  kvEffSteps : Rat := 0
  queueDepthSteps : Nat := 0
  padFracSteps : Rat := 0
  peakBatch : Nat := 0
  prefills : Nat := 0
  prefillSeconds : Time := 0
  decodeSeconds : Time := 0
  preemptions : Nat := 0
  rejected : Nat := 0
  tokensOut : Nat := 0
  requests : List RequestMetrics := []

/-- The dict that `summary` returns. -/
structure Summary where
  requests : Nat
  outputTokens : Nat
  throughputTokPerS : Rat
  decodeSteps : Nat
  peakBatch : Nat
  slotUtilisation : Rat
  kvUtilisation : Rat
  kvTokenEfficiency : Rat
  attnPaddingWaste : Rat
  meanQueueDepth : Rat
  preemptions : Nat
  rejected : Nat
  prefillSeconds : Time
  decodeSeconds : Time
  ttftP50S : Option Time
  ttftP99S : Option Time
  tpotP50S : Option Rat
  tpotP99S : Option Rat
  e2eP50S : Option Rat
  e2eP99S : Option Time
  deriving DecidableEq

/-- The lines of `summary` that read a field, in their order. -/
inductive SummaryLine where
  | s
  | ttfts
  | tpots
  | e2es
  | requests
  | outputTokens
  | throughputTokPerS
  | decodeSteps
  | peakBatch
  | slotUtilisation
  | kvUtilisation
  | kvTokenEfficiency
  | attnPaddingWaste
  | meanQueueDepth
  | preemptions
  | rejected
  | prefillSeconds
  | decodeSeconds
  deriving DecidableEq

/-- A line that writes a field of the metrics, with what it adds. -/
inductive MetricsLine where
  | steps
  | occupied (n : Nat)
  | queueDepth (n : Nat)
  | kvUsed (x : Rat)
  | kvEff (x : Rat)
  | padFrac (x : Rat)
  | requests (r : RequestMetrics)
  | tokensOut (n : Nat)
  | peakBatch (n : Nat)
  | prefills (n : Nat)
  | prefillSeconds (dt : Time)
  | decodeSeconds (dt : Time)
  | preemptions
  | rejected

/-- The lines of `record_step`. -/
def recordStepLines (occupied queueDepth : Nat) (kvUsed kvEff padFrac : Rat) : List MetricsLine :=
  [.steps, .occupied occupied, .queueDepth queueDepth, .kvUsed kvUsed, .kvEff kvEff,
    .padFrac padFrac]

/-- The lines of `record_request`. -/
def recordRequestLines (r : RequestMetrics) : List MetricsLine :=
  [.requests r, .tokensOut r.outputTokens]

/-- What `__init__` sets, in its order. -/
inductive MetricsField where
  | maxSlots
  | steps
  | occupiedSlotSteps
  | kvUsedSteps
  | kvEffSteps
  | queueDepthSteps
  | padFracSteps
  | peakBatch
  | prefills
  | prefillSeconds
  | decodeSeconds
  | preemptions
  | rejected
  | tokensOut
  | requests
  deriving DecidableEq

def MetricsField.all : List MetricsField :=
  [.maxSlots, .steps, .occupiedSlotSteps, .kvUsedSteps, .kvEffSteps, .queueDepthSteps,
    .padFracSteps, .peakBatch, .prefills, .prefillSeconds, .decodeSeconds, .preemptions, .rejected,
    .tokensOut, .requests]

namespace EngineMetrics

def recordStep (m : EngineMetrics) (occupied queueDepth : Nat) (kvUsed kvEff padFrac : Rat) :
    EngineMetrics :=
  { m with
    steps := m.steps + 1
    occupiedSlotSteps := m.occupiedSlotSteps + occupied
    queueDepthSteps := m.queueDepthSteps + queueDepth
    kvUsedSteps := m.kvUsedSteps + kvUsed
    kvEffSteps := m.kvEffSteps + kvEff
    padFracSteps := m.padFracSteps + padFrac }

def recordRequest (m : EngineMetrics) (q : Request) : Except PyError EngineMetrics := do
  let r ← requestMetrics q
  return { m with
    requests := m.requests ++ [r]
    tokensOut := m.tokensOut + q.outputTokenIds.length }

def reset (m : EngineMetrics) : EngineMetrics := { maxSlots := m.maxSlots }

/-- `summary`, where each line finds the metrics as they are by then. -/
def summaryAt (met : SummaryLine → EngineMetrics) (wallSeconds : Time) :
    Except PyError Summary := do
  let s : Nat := max (met .s).steps 1
  let ttfts := (met .ttfts).requests.map RequestMetrics.ttft
  let tpots := (met .tpots).requests.filterMap RequestMetrics.tpot
  let e2es := (met .e2es).requests.map RequestMetrics.e2e
  if s * (met .slotUtilisation).maxSlots = 0 then throw .zeroDivisionError
  let ttftP50S ← percentile ttfts 50
  let ttftP99S ← percentile ttfts 99
  let tpotP50S ← percentile tpots 50
  let tpotP99S ← percentile tpots 99
  let e2eP50S ← if e2es = [] then pure none else some <$> median (e2es.map Int.cast)
  let e2eP99S ← percentile e2es 99
  return {
    requests := (met .requests).requests.length
    outputTokens := (met .outputTokens).tokensOut
    throughputTokPerS :=
      if wallSeconds ≠ 0 then (met .throughputTokPerS).tokensOut / wallSeconds else 0
    decodeSteps := (met .decodeSteps).steps
    peakBatch := (met .peakBatch).peakBatch
    slotUtilisation :=
      (met .slotUtilisation).occupiedSlotSteps / (s * (met .slotUtilisation).maxSlots)
    kvUtilisation := (met .kvUtilisation).kvUsedSteps / s
    kvTokenEfficiency := (met .kvTokenEfficiency).kvEffSteps / s
    attnPaddingWaste := (met .attnPaddingWaste).padFracSteps / s
    meanQueueDepth := (met .meanQueueDepth).queueDepthSteps / s
    preemptions := (met .preemptions).preemptions
    rejected := (met .rejected).rejected
    prefillSeconds := (met .prefillSeconds).prefillSeconds
    decodeSeconds := (met .decodeSeconds).decodeSeconds
    ttftP50S, ttftP99S, tpotP50S, tpotP99S, e2eP50S, e2eP99S }

/-- `summary`, if nobody writes while it runs. -/
def summary (m : EngineMetrics) (wallSeconds : Time) : Except PyError Summary :=
  summaryAt (fun _ => m) wallSeconds

/-! ## Line by line -/

def write (m : EngineMetrics) : MetricsLine → EngineMetrics
  | .steps => { m with steps := m.steps + 1 }
  | .occupied n => { m with occupiedSlotSteps := m.occupiedSlotSteps + n }
  | .queueDepth n => { m with queueDepthSteps := m.queueDepthSteps + n }
  | .kvUsed x => { m with kvUsedSteps := m.kvUsedSteps + x }
  | .kvEff x => { m with kvEffSteps := m.kvEffSteps + x }
  | .padFrac x => { m with padFracSteps := m.padFracSteps + x }
  | .requests r => { m with requests := m.requests ++ [r] }
  | .tokensOut n => { m with tokensOut := m.tokensOut + n }
  | .peakBatch n => { m with peakBatch := max m.peakBatch n }
  | .prefills n => { m with prefills := m.prefills + n }
  | .prefillSeconds dt => { m with prefillSeconds := m.prefillSeconds + dt }
  | .decodeSeconds dt => { m with decodeSeconds := m.decodeSeconds + dt }
  | .preemptions => { m with preemptions := m.preemptions + 1 }
  | .rejected => { m with rejected := m.rejected + 1 }

/-- `__init__` sets a field. -/
def clear (keep : Nat) (m : EngineMetrics) : MetricsField → EngineMetrics
  | .maxSlots => { m with maxSlots := keep }
  | .steps => { m with steps := 0 }
  | .occupiedSlotSteps => { m with occupiedSlotSteps := 0 }
  | .kvUsedSteps => { m with kvUsedSteps := 0 }
  | .kvEffSteps => { m with kvEffSteps := 0 }
  | .queueDepthSteps => { m with queueDepthSteps := 0 }
  | .padFracSteps => { m with padFracSteps := 0 }
  | .peakBatch => { m with peakBatch := 0 }
  | .prefills => { m with prefills := 0 }
  | .prefillSeconds => { m with prefillSeconds := 0 }
  | .decodeSeconds => { m with decodeSeconds := 0 }
  | .preemptions => { m with preemptions := 0 }
  | .rejected => { m with rejected := 0 }
  | .tokensOut => { m with tokensOut := 0 }
  | .requests => { m with requests := [] }

theorem recordStep_lines (m : EngineMetrics) (occupied queueDepth : Nat)
    (kvUsed kvEff padFrac : Rat) :
    (recordStepLines occupied queueDepth kvUsed kvEff padFrac).foldl write m =
      m.recordStep occupied queueDepth kvUsed kvEff padFrac := rfl

theorem reset_lines (m : EngineMetrics) :
    MetricsField.all.foldl (clear m.maxSlots) m = m.reset := rfl

/-- `m'` reports the same requests as `m`; only `record_request` changes what is reported. -/
def SameBooks (m m' : EngineMetrics) : Prop :=
  m'.requests = m.requests ∧ m'.tokensOut = m.tokensOut

theorem SameBooks.refl (m : EngineMetrics) : m.SameBooks m := ⟨rfl, rfl⟩

theorem sameBooks_recordStep (m : EngineMetrics) (occupied queueDepth : Nat)
    (kvUsed kvEff padFrac : Rat) :
    m.SameBooks (m.recordStep occupied queueDepth kvUsed kvEff padFrac) := ⟨rfl, rfl⟩

end EngineMetrics

/-- Recording a request needs its first-token and finish times, and nothing else. -/
theorem EngineMetrics.recordRequest_isOk {m : EngineMetrics} {q : Request}
    (hfirst : q.firstTokenTime ≠ none) (hfinish : q.finishTime ≠ none) :
    ∃ m', m.recordRequest q = .ok m' := by
  obtain ⟨first, hf⟩ := Option.ne_none_iff_exists'.mp hfirst
  obtain ⟨finish, hg⟩ := Option.ne_none_iff_exists'.mp hfinish
  exact ⟨_, by simp only [recordRequest, requestMetrics, hf, hg]; rfl⟩

end LlmServe
