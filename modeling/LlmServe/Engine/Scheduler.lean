import LlmServe.Engine.BlockManager
import LlmServe.Engine.Metrics
import LlmServe.Infra.SortKey
import Mathlib.Data.Prod.Lex
import Mathlib.Algebra.Order.Group.Int
import Mathlib.Data.Rat.Cast.Defs

/-!
# The scheduler (`engine/scheduler.py`, class `Scheduler`)

One definition for each method, in the order of the source. A method that mutates `self` takes and
returns the state; one that can raise returns `Except PyError`.

## What is outside

`Env σ` is everything the scheduler calls but does not own: the clock and the forward pass.
Its state `σ` holds whatever they need (the KV pool, a script of answers, nothing at all), so a
statement about every `Env` is a statement about any model outputs.

## What is only recorded

`trace` lists what an observer of the engine would see, in order: each row of a forward pass, each
completed `_emit` and each call of a sink. No method reads it.

## Loops

* `retireLoop`, `popLoop` follow the list they consume.
* `ensureLoop` is the `while i < len(active)` of `_ensure_capacity`. `2 * active.length - i`
  decreases: a served row moves `i` on, an evicted one shortens `active` by one and moves `i`
  back by at most one.
-/

namespace LlmServe

open Infra

/-- One row of a batch handed to `step_tokens`, with the request it serves. -/
structure Row where
  req : Ref
  admitSeq : Int
  tokens : List Token
  start : Nat
  blockTable : List Nat

structure Env (σ : Type) where
  perfCounter : σ → Time × σ
  /-- `runner.step_tokens`: the next token of each row. -/
  stepTokens : σ → List Row → Except PyError (List Token × σ)
  /-- `runner.last_pad_frac`. -/
  lastPadFrac : σ → Rat
  stepTokens_length : ∀ {w rows out w'}, stepTokens w rows = .ok (out, w') →
    out.length = rows.length

inductive Event where
  /-- A row of a forward pass: the tokens fed to request `r`, the first at position `start`. -/
  | fed (r : Ref) (start : Nat) (tokens : List Token)
  /-- A call of `r`'s sink. -/
  | sink (r : Ref) (tok : Token) (finished : Bool)
  /-- A completed `_emit`, with the `output_token_ids` it leaves. -/
  | emitted (r : Ref) (output : List Token)
  deriving DecidableEq

def Row.fed (row : Row) : Event := .fed row.req row.start row.tokens

structure Scheduler (σ : Type) where
  heap : Ref → Request
  next : Ref
  manager : Manager
  waiting : List Ref
  running : List Ref
  admitCounter : Nat
  metrics : EngineMetrics
  world : σ
  trace : List Event

/-- The update of a `Request` by `_emit`. -/
def Request.emit (now : Time) (tok : Token) (q : Request) : Request :=
  let q := { q with outputTokenIds := q.outputTokenIds ++ [tok] }
  let q := if q.firstTokenTime = none then { q with firstTokenTime := some now } else q
  let q :=
    if q.maxNewTokens ≤ q.outputTokenIds.length then { q with finishReason := some .length }
    else if tok = eosTokenId ∧ q.ignoreEos = false then { q with finishReason := some .stop }
    else q
  if q.finished then { q with finishTime := some now } else q

namespace Scheduler

variable {σ : Type}

/-- `Scheduler(cfg, runner, pool, manager)`. -/
def init (cfg : EngineConfig) (manager : Manager) (world : σ) : Scheduler σ :=
  { heap := fun _ => .blank, next := 0, manager, waiting := [], running := [], admitCounter := 0
    metrics := { maxSlots := cfg.maxBatch }, world, trace := [] }

/-- Assignment to fields of the object `r`. -/
def modify (s : Scheduler σ) (r : Ref) (f : Request → Request) : Scheduler σ :=
  { s with heap := Function.update s.heap r (f (s.heap r)) }

/-- A new object, at `s.next`. -/
def create (s : Scheduler σ) (q : Request) : Scheduler σ :=
  { s with heap := Function.update s.heap s.next q, next := s.next + 1 }

/-- `req.cancelled = True`, done by another thread. -/
def cancel (s : Scheduler σ) (r : Ref) : Scheduler σ :=
  s.modify r fun q => { q with cancelled := true }

/-! ## Intake -/

def submit (s : Scheduler σ) (r : Ref) : Scheduler σ :=
  let s := s.modify r fun q =>
    { q with
      maxNewTokens := min q.maxNewTokens (maxContext - q.promptTokenIds.length)
      state := .waiting }
  { s with waiting := s.waiting ++ [r] }

def hasWork (s : Scheduler σ) : Bool := !s.waiting.isEmpty || !s.running.isEmpty

/-! ## Calls to the outside and to the allocator -/

variable (env : Env σ)

/-- `time.perf_counter()`. -/
def perfCounter (s : Scheduler σ) : Time × Scheduler σ :=
  ((env.perfCounter s.world).1, { s with world := (env.perfCounter s.world).2 })

/-- `self.runner.step_tokens(...)`. -/
def stepTokens (s : Scheduler σ) (rows : List Row) : Except PyError (List Token × Scheduler σ) := do
  let (nxt, world) ← env.stepTokens s.world rows
  return (nxt, { s with
    world
    trace := s.trace ++ rows.map Row.fed })

/-- `self.manager.allocate(req)`. -/
def allocate (s : Scheduler σ) (r : Ref) : Except PyError (Scheduler σ) := do
  let (manager, q) ← s.manager.allocate r (s.heap r)
  return { s with manager, heap := Function.update s.heap r q }

/-- `self.manager.append_slot(req)`. -/
def appendSlot (s : Scheduler σ) (r : Ref) : Bool × Scheduler σ :=
  let (ok, manager, q) := s.manager.appendSlot (s.heap r)
  (ok, { s with manager, heap := Function.update s.heap r q })

/-- `self.manager.free(req)`. -/
def free (s : Scheduler σ) (r : Ref) : Except PyError (Scheduler σ) := do
  let (manager, q) ← s.manager.free (s.heap r)
  return { s with manager, heap := Function.update s.heap r q }

/-- `self.metrics.record_request(req)`. -/
def recordRequest (s : Scheduler σ) (r : Ref) : Except PyError (Scheduler σ) := do
  let metrics ← s.metrics.recordRequest (s.heap r)
  return { s with metrics }

/-! ## `_retire` -/

/-- The body of the first loop of `_retire`. -/
def markCancelled (s : Scheduler σ) (r : Ref) : Scheduler σ :=
  if (s.heap r).cancelled && !(s.heap r).finished then
    let (now, s) := s.perfCounter env
    s.modify r fun q => { q with finishReason := some .cancelled, finishTime := some now }
  else s

/-- What the second loop of `_retire` does with a finished request. -/
def leave (s : Scheduler σ) (r : Ref) : Except PyError (Scheduler σ) := do
  let s := s.modify r fun q => { q with state := .finished }
  let s ← s.free r
  if (s.heap r).finishReason ≠ some .cancelled then s.recordRequest r else return s

/-- The second loop of `_retire`; `keep` is what it has kept so far. -/
def retireLoop : List Ref → List Ref → Scheduler σ → Except PyError (List Ref × Scheduler σ)
  | [], keep, s => .ok (keep, s)
  | r :: rest, keep, s =>
    if (s.heap r).finished then do
      let s ← s.leave r
      retireLoop rest keep s
    else retireLoop rest (keep ++ [r]) s

def retire (s : Scheduler σ) : Except PyError (Scheduler σ) := do
  let s := { s with waiting := s.waiting.filter fun r => !(s.heap r).cancelled }
  let s := s.running.foldl (markCancelled env) s
  let (keep, s) ← retireLoop s.running [] s
  return { s with running := keep }

/-! ## `_emit` and `_prefill` -/

def emit (s : Scheduler σ) (r : Ref) (tok : Token) : Scheduler σ :=
  let (now, s) := s.perfCounter env
  let s := s.modify r (Request.emit now tok)
  let s :=
    if (s.heap r).sink.isSome then
      { s with trace := s.trace ++ [.sink r tok (s.heap r).finished] }
    else s
  { s with trace := s.trace ++ [.emitted r (s.heap r).outputTokenIds] }

/-- The row of a prefill: the prompt and any tokens already generated, from position 0. -/
def prefillRow (s : Scheduler σ) (r : Ref) : Row :=
  { req := r, admitSeq := (s.heap r).admitSeq, tokens := (s.heap r).tokens, start := 0
    blockTable := (s.heap r).blockTable }

/-- The body of the loop of `_prefill`. -/
def prefillEmit (s : Scheduler σ) (p : Ref × Token) : Scheduler σ :=
  (s.modify p.1 fun q => { q with state := .running }).emit env p.1 p.2

def prefill (s : Scheduler σ) (batch : List Ref) : Except PyError (Scheduler σ) := do
  let (t0, s) := s.perfCounter env
  let (nxt, s) ← s.stepTokens env (batch.map s.prefillRow)
  let (t1, s) := s.perfCounter env
  let s := { s with metrics := { s.metrics with
    prefills := s.metrics.prefills + batch.length
    prefillSeconds := s.metrics.prefillSeconds + (t1 - t0) } }
  let s := (batch.zip nxt).foldl (prefillEmit env) s
  return { s with running := s.running ++ batch }

/-! ## `_pop_admissible` and `_admit` -/

/-- The sort key of `waiting`: preempted requests first, worst-treated first, then by arrival. -/
def waitingKey (q : Request) : Int ×ₗ Time := toLex (-(q.preemptCount : Int), q.arrivalTime)

/-- The order of `waiting` after its stable sort. -/
def sortWaiting (heap : Ref → Request) (l : List Ref) : List Ref :=
  sortKey (fun r => waitingKey (heap r)) l

/-- `req.admit_seq = self._admit_counter; self._admit_counter += 1`. -/
def stampAdmit (s : Scheduler σ) (r : Ref) : Scheduler σ :=
  { s.modify r (fun q => { q with admitSeq := s.admitCounter }) with
    admitCounter := s.admitCounter + 1 }

/-- The loop of `_pop_admissible`: the first argument is `waiting`, the second `batch`. -/
def popLoop (limit : Nat) :
    List Ref → List Ref → Scheduler σ → Except PyError (List Ref × Scheduler σ)
  | [], batch, s => .ok (batch, s)
  | r :: rest, batch, s =>
    if batch.length < limit ∧
        s.manager.canAllocate (s.heap r) (s.running.length + batch.length) = true then do
      let s ← { s with waiting := rest }.allocate r
      popLoop limit rest (batch ++ [r]) (s.stampAdmit r)
    else .ok (batch, s)

def popAdmissible (s : Scheduler σ) (limit : Nat) : Except PyError (List Ref × Scheduler σ) :=
  let s := { s with waiting := sortWaiting s.heap s.waiting }
  popLoop limit s.waiting [] s

/-- `for req in batch: self._prefill([req])`. -/
def prefillEach : List Ref → Scheduler σ → Except PyError (Scheduler σ)
  | [], s => .ok s
  | r :: rest, s => do
    let s ← s.prefill env [r]
    prefillEach rest s

variable (cfg : EngineConfig)

/-- `_admit`. -/
def admitWaiting (s : Scheduler σ) : Except PyError (Scheduler σ) :=
  match cfg.batching with
  | .static =>
    if s.running ≠ [] then .ok s
    else do
      let (batch, s) ← s.popAdmissible cfg.maxBatch
      if batch ≠ [] then s.prefill env batch else return s
  | .continuous => do
    let (batch, s) ← s.popAdmissible (cfg.maxBatch - s.running.length)
    prefillEach env batch s

/-! ## `_preempt` and `_ensure_capacity` -/

/-- `list.index(x)` with the dataclass equality. -/
def index (heap : Ref → Request) (r : Ref) (l : List Ref) : Option Nat :=
  l.findIdx? fun x => heap x = heap r

/-- `list.remove(x)` with the dataclass equality. -/
def remove (heap : Ref → Request) (r : Ref) (l : List Ref) : List Ref :=
  l.eraseP fun x => heap x = heap r

def preempt (s : Scheduler σ) (r : Ref) : Except PyError (Scheduler σ) := do
  let s ← s.free r
  if s.running.any fun x => s.heap x = s.heap r then
    let s := { s with running := remove s.heap r s.running }
    let s := s.modify r fun q =>
      { q with state := .waiting, preemptCount := q.preemptCount + 1 }
    return { s with
      metrics := { s.metrics with preemptions := s.metrics.preemptions + 1 }
      waiting := s.waiting ++ [r] }
  else .error (.valueError "list.remove(x): x not in list")

/-- The eviction key: fewest preemptions first, then the most recently admitted. -/
def victimKey (q : Request) : Nat ×ₗ Int := toLex (q.preemptCount, -q.admitSeq)

/-- `min(active, key=...)`. -/
def victim (heap : Ref → Request) (active : List Ref) : Option Ref :=
  minKey (fun r => victimKey (heap r)) active

/-- The loop of `_ensure_capacity`. -/
@[semireducible] def ensureLoop (s : Scheduler σ) (active : List Ref) (i : Nat) :
    Except PyError (List Ref × Scheduler σ) :=
  match _h : active[i]? with
  | none => .ok (active, s)
  | some req =>
    match s.appendSlot req with
    | (true, s) => ensureLoop s active (i + 1)
    | (false, s) =>
      if cfg.preemption = false then
        .error (.runtimeError "out of KV blocks and preemption is disabled")
      else
        match victim s.heap active with
        | none => .error (.valueError "min() arg is an empty sequence")
        | some v =>
          match _hv : index s.heap v active with
          | none => .error (.valueError "x is not in list")
          | some vi =>
            match s.preempt v with
            | .error e => .error e
            | .ok s => ensureLoop s (active.eraseIdx vi) (if vi < i then i - 1 else i)
termination_by 2 * active.length - i
decreasing_by
  · have hi : i < active.length := (List.getElem?_eq_some_iff.mp _h).1
    omega
  · have hi : i < active.length := (List.getElem?_eq_some_iff.mp _h).1
    have hvi : vi < active.length := (List.findIdx?_eq_some_iff_findIdx_eq.mp _hv).1
    rw [List.length_eraseIdx_of_lt hvi]
    split <;> omega

/-- `sorted(batch, key=lambda r: r.admit_seq)`. -/
def sortAdmitted (heap : Ref → Request) (l : List Ref) : List Ref :=
  sortKey (fun r => (heap r).admitSeq) l

def ensureCapacity (s : Scheduler σ) (batch : List Ref) :
    Except PyError (List Ref × Scheduler σ) :=
  ensureLoop cfg s (sortAdmitted s.heap batch) 0

/-! ## `_decode` and `step` -/

/-- The row of a decode step: the last token produced, at position `seq_len - 1`. -/
def decodeRow (s : Scheduler σ) (r : Ref) : Except PyError Row :=
  match (s.heap r).outputTokenIds.getLast? with
  | none => .error (.indexError "list index out of range")
  | some tok =>
    .ok { req := r, admitSeq := (s.heap r).admitSeq, tokens := [tok]
          start := (s.heap r).seqLen - 1, blockTable := (s.heap r).blockTable }

/-- `self.metrics.record_step(...)` with the arguments `_decode` computes. -/
def recordStep (s : Scheduler σ) (occupied : Nat) : Except PyError (Scheduler σ) :=
  let st := s.manager.stats s.heap
  if st.total = 0 then .error .zeroDivisionError
  else
    let kvEff : Rat :=
      if st.capacityTokens ≠ 0 then (st.liveTokens : Rat) / st.capacityTokens else 0
    let metrics := s.metrics.recordStep occupied s.waiting.length ((st.used : Rat) / st.total) kvEff
      (env.lastPadFrac s.world)
    .ok { s with metrics }

/-- The rest of `_decode`, once every row of `batch` has room for its next token. -/
def decodeBatch (s : Scheduler σ) (batch : List Ref) : Except PyError (Scheduler σ) := do
  let s := { s with
    metrics := { s.metrics with peakBatch := max s.metrics.peakBatch batch.length } }
  let (t0, s) := s.perfCounter env
  let rows ← batch.mapM s.decodeRow
  let (nxt, s) ← s.stepTokens env rows
  let (t1, s) := s.perfCounter env
  let s := { s with metrics :=
    { s.metrics with decodeSeconds := s.metrics.decodeSeconds + (t1 - t0) } }
  let s ← s.recordStep env batch.length
  return (batch.zip nxt).foldl (fun s p => s.emit env p.1 p.2) s

def decode (s : Scheduler σ) : Except PyError (Scheduler σ) :=
  let batch := s.running.filter fun r => !(s.heap r).finished
  if batch = [] then .ok s
  else do
    let (batch, s) ← s.ensureCapacity cfg batch
    if batch = [] then return s else s.decodeBatch env batch

def step (s : Scheduler σ) : Except PyError (Scheduler σ) := do
  let s ← s.retire env
  let s ← s.admitWaiting env cfg
  s.decode env cfg

end Scheduler

end LlmServe
