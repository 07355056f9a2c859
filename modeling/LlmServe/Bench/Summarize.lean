import LlmServe.Bench.DoRequest
import LlmServe.Bench.Report
import LlmServe.Infra.SortKey

/-!
# The load generator's summary (`bench/report.go`)

`pcts` and `summarize`, in exact arithmetic: a rational where the source has `float64`. `nan` is
what `percentile` gives for no samples. The fields that `main` sets afterwards (the label, the
rate, the server's own figures) are not here.
-/

namespace LlmServe.Bench

open Infra

structure Pcts where
  p50 : Rat := 0
  p95 : Rat := 0
  p99 : Rat := 0
  mean : Rat := 0
  deriving DecidableEq

def pcts (nan : Rat) (xs : List Rat) : Option Pcts :=
  if xs.length = 0 then some {}
  else do
    let s := sortKey id xs
    let p50 ← percentile nan s 50
    let p95 ← percentile nan s 95
    let p99 ← percentile nan s 99
    return { p50, p95, p99, mean := s.sum / s.length }

/-- A quotient of two `float64`s. -/
inductive Ratio where
  | num (q : Rat)
  | posInf
  | negInf
  | nan
  deriving DecidableEq

def Ratio.of (a b : Rat) : Ratio :=
  if b ≠ 0 then .num (a / b)
  else if a = 0 then .nan
  else if 0 < a then .posInf
  else .negInf

/-- `Result` with what `doRequest` copies from the plan and measures before it sends. -/
structure SentResult extends Result where
  arrivalS : Rat := 0
  latenessS : Rat := 0
  injected : Bool := false
  deriving DecidableEq

structure Report where
  elapsedS : Rat := 0
  offered : Nat := 0
  completed : Nat := 0
  rejected : Nat := 0
  errors : Nat := 0
  incomplete : Nat := 0
  sloTTFT : Rat := 0
  sloTPOT : Rat := 0
  sloMet : Nat := 0
  sloAttainment : Rat := 0
  goodputReqPerS : Ratio := .num 0
  throughputTokPerS : Ratio := .num 0
  p99TTFTMeetsSLO : Bool := false
  p99TPOTMeetsSLO : Bool := false
  ttft : Pcts := {}
  tpot : Pcts := {}
  e2e : Pcts := {}
  itl : Pcts := {}
  maxSendLatenessS : Rat := 0
  deriving DecidableEq

/-- The variables of the loop. -/
structure Samples where
  rep : Report
  ttft : List Rat := []
  tpot : List Rat := []
  e2e : List Rat := []
  itl : List Rat := []
  tokens : Nat := 0
  last : Rat := 0

/-- `r.tokenTimes[i]-r.tokenTimes[i-1]` for each `i`. -/
def gaps : List Rat → List Rat
  | t :: t' :: times => (t' - t) :: gaps (t' :: times)
  | _ => []

/-- `case "ok"`. -/
def Samples.onOk (t : Samples) (sloTTFT sloTPOT : Rat) (r : SentResult) : Samples :=
  { rep := { t.rep with
      completed := t.rep.completed + 1
      sloMet := if r.ttft ≤ sloTTFT ∧ r.tpot ≤ sloTPOT then t.rep.sloMet + 1 else t.rep.sloMet }
    tokens := t.tokens + r.outTokens
    ttft := t.ttft ++ [r.ttft]
    e2e := t.e2e ++ [r.e2e]
    tpot := if r.outTokens > 1 then t.tpot ++ [r.tpot] else t.tpot
    last := if r.arrivalS + r.e2e > t.last then r.arrivalS + r.e2e else t.last
    itl := t.itl ++ gaps r.tokenTimes }

/-- The body of the loop. -/
def Samples.onResult (sloTTFT sloTPOT : Rat) (t : Samples) (r : SentResult) : Samples :=
  -- the injected long prompt is a probe, not part of the offered load
  if r.injected then t
  else
    let t := { t with rep := { t.rep with
      offered := t.rep.offered + 1
      maxSendLatenessS :=
        if r.latenessS > t.rep.maxSendLatenessS then r.latenessS else t.rep.maxSendLatenessS } }
    match r.status with
    | .ok => t.onOk sloTTFT sloTPOT r
    | .rejected => { t with rep := { t.rep with rejected := t.rep.rejected + 1 } }
    | .error => { t with rep := { t.rep with errors := t.rep.errors + 1 } }
    | .incomplete => { t with rep := { t.rep with incomplete := t.rep.incomplete + 1 } }

/-- What follows the loop. -/
def Samples.report (nan : Rat) (t : Samples) (duration sloTTFT sloTPOT : Rat) :
    Option Report := do
  let ttft ← pcts nan t.ttft
  let tpot ← pcts nan t.tpot
  let e2e ← pcts nan t.e2e
  let itl ← pcts nan t.itl
  let window := max duration t.last
  return { t.rep with
    ttft, tpot, e2e, itl
    throughputTokPerS := .of t.tokens window
    goodputReqPerS := .of t.rep.sloMet duration
    sloAttainment :=
      if t.rep.offered > 0 then (t.rep.sloMet : Rat) / t.rep.offered else t.rep.sloAttainment
    p99TTFTMeetsSLO := decide (t.rep.completed > 0 ∧ ttft.p99 ≤ sloTTFT)
    p99TPOTMeetsSLO := decide (t.rep.completed > 0 ∧ tpot.p99 ≤ sloTPOT) }

def summarize (nan : Rat) (rs : List SentResult) (duration elapsed sloTTFT sloTPOT : Rat) :
    Option Report :=
  let t : Samples := { rep := { elapsedS := elapsed, sloTTFT, sloTPOT } }
  (rs.foldl (Samples.onResult sloTTFT sloTPOT) t).report nan duration sloTTFT sloTPOT

end LlmServe.Bench
