import LlmServe.Engine.Engine

/-!
# The naive backend (`ModelRunner.run` and class `NaiveScheduler`)

One request at a time, the whole sequence recomputed for every token. `Runner` is what `run` calls
and the repository does not contain: the clock, and the model with its `argmax`.

`run` works on one `Request` and on what it shares with its caller (`RunState`). Its callback only
shows something to an observer, so it is a function from the request and the token to the events it
adds. `req.cancelled` is read in every round as in the source; nobody sets it during the call.
-/

namespace LlmServe

open Infra

structure Runner (σ : Type) where
  perfCounter : σ → Time × σ
  /-- `int(torch.argmax(self.forward_logits(token_ids)[-1]).item())`. -/
  nextToken : List Token → Token

structure RunState (σ : Type) where
  req : Request
  /-- `runner.metrics`. -/
  metrics : EngineMetrics
  world : σ
  trace : List Event

/-! ## `ModelRunner.run` -/

namespace RunState

variable {σ : Type} (runner : Runner σ) (onToken : Request → Token → List Event)

/-- The id that the model appends. -/
def nextId (s : RunState σ) : Token := runner.nextToken s.req.tokens

/-- `time.perf_counter()`. -/
def perfCounter (s : RunState σ) : Time × RunState σ :=
  ((runner.perfCounter s.world).1, { s with world := (runner.perfCounter s.world).2 })

/-- The rest of a round of the loop, up to its last `if`. -/
def append (s : RunState σ) (tok : Token) : RunState σ :=
  let s := { s with req := { s.req with outputTokenIds := s.req.outputTokenIds ++ [tok] } }
  let s :=
    if s.req.firstTokenTime = none then
      let (now, s) := s.perfCounter runner
      { s with req := { s.req with firstTokenTime := some now } }
    else s
  let s := { s with metrics := s.metrics.recordStep 1 0 0 0 0 }
  { s with trace := s.trace ++ onToken s.req tok }

theorem append_req (s : RunState σ) (tok : Token) : ∃ first, first ≠ none ∧
    (s.append runner onToken tok).req =
      { s.req with outputTokenIds := s.req.outputTokenIds ++ [tok], firstTokenTime := first } := by
  unfold append
  by_cases hf : s.req.firstTokenTime = none
  · refine ⟨some (runner.perfCounter s.world).1, nofun, ?_⟩
    simp only [hf, if_true]
    rfl
  · refine ⟨s.req.firstTokenTime, hf, ?_⟩
    simp only [hf, if_false]

theorem append_trace (s : RunState σ) (tok : Token) :
    (s.append runner onToken tok).trace
      = s.trace ++ onToken (s.append runner onToken tok).req tok := by
  unfold append
  by_cases hf : s.req.firstTokenTime = none
  · simp only [hf, if_true]
    rfl
  · simp only [hf, if_false]

/-- The `while` of `run`. -/
def runLoop (s : RunState σ) : RunState σ :=
  if (s.req.outputTokenIds.length : Int) < s.req.maxNewTokens then
    if maxContext ≤ s.req.seqLen ∨ s.req.cancelled = true then s
    else if s.nextId runner = eosTokenId ∧ s.req.ignoreEos = false then
      s.append runner onToken (s.nextId runner)
    else runLoop (s.append runner onToken (s.nextId runner))
  else s
termination_by maxContext - s.req.seqLen
decreasing_by
  next hctx _ =>
    obtain ⟨first, -, hreq⟩ := append_req runner onToken s (s.nextId runner)
    rw [hreq]
    simp only [Request.seqLen, List.length_append, List.length_singleton, not_or] at hctx ⊢
    omega

def run (s : RunState σ) : Except PyError (RunState σ) := do
  let s := { s with req := { s.req with state := .running } }
  let s := s.runLoop runner onToken
  let (now, s) := s.perfCounter runner
  let s := { s with req := { s.req with finishTime := some now, state := .finished } }
  if s.req.cancelled = true then
    return { s with req := { s.req with finishReason := some .cancelled } }
  else do
    let metrics ← s.metrics.recordRequest s.req
    return { s with metrics }

end RunState

/-! ## `NaiveScheduler` -/

structure NaiveScheduler (σ : Type) where
  heap : Ref → Request
  next : Ref
  waiting : List Ref
  running : List Ref
  metrics : EngineMetrics
  /-- `runner.metrics`. -/
  runnerMetrics : EngineMetrics
  world : σ
  trace : List Event

namespace NaiveScheduler

variable {σ : Type} (runner : Runner σ)

/-- `NaiveScheduler(cfg, runner)`, with a runner that has served nobody yet. -/
def init (world : σ) : NaiveScheduler σ :=
  { heap := fun _ => .blank, next := 0, waiting := [], running := [], metrics := { maxSlots := 1 }
    runnerMetrics := { maxSlots := 1 }, world, trace := [] }

def submit (s : NaiveScheduler σ) (r : Ref) : NaiveScheduler σ :=
  let q := s.heap r
  { s with
    heap := Function.update s.heap r
      { q with maxNewTokens := min q.maxNewTokens (maxContext - q.promptTokenIds.length) }
    waiting := s.waiting ++ [r] }

def hasWork (s : NaiveScheduler σ) : Bool := !s.waiting.isEmpty

/-- The closure `on_token` of `step`. -/
def onToken (r : Ref) (q : Request) (tok : Token) : List Event :=
  if q.sink.isSome then
    [.sink r tok (q.maxNewTokens ≤ q.outputTokenIds.length ||
      (tok == eosTokenId && !q.ignoreEos) || maxContext ≤ q.seqLen)]
  else []

def step (s : NaiveScheduler σ) : Except PyError (NaiveScheduler σ) :=
  let s := { s with waiting := s.waiting.filter fun r => !(s.heap r).cancelled }
  match s.waiting with
  | [] => .ok s
  | r :: rest => do
    let s := { s with waiting := rest, running := [r] }
    let t ← RunState.run runner (onToken r)
      { req := s.heap r, metrics := s.runnerMetrics, world := s.world, trace := s.trace }
    -- `req.finish_reason or "length"`
    let q := { t.req with finishReason := some (t.req.finishReason.getD .length) }
    return { s with
      heap := Function.update s.heap r q, runnerMetrics := t.metrics, world := t.world
      trace := t.trace, running := [] }

/-- `sched.submit(Request(...))`. -/
def accept (s : NaiveScheduler σ) (n : NewRequest) : NaiveScheduler σ :=
  { s with heap := Function.update s.heap s.next n.toRequest, next := s.next + 1 }.submit s.next

/-- `Engine.generate_batch`, with the naive backend. -/
def generateBatch (fuel : Nat) (s : NaiveScheduler σ) (reqs : List NewRequest) :
    Except PyError (Option (NaiveScheduler σ)) :=
  loop hasWork (step runner) fuel (reqs.foldl accept s)

end NaiveScheduler

end LlmServe
