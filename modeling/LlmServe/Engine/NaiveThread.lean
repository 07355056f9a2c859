import LlmServe.Engine.NaiveScheduler

/-!
# The naive engine thread, line by line

`NaiveScheduler.step` is a whole call, with all of `ModelRunner.run` inside. Here it is cut at each
line that writes something another thread can read, or reads something another thread can write:
the fields of a request, its `cancelled` flag, and the calls of its sink. Clients can build requests
and set flags between any two lines. Requests wait in `inbox` until the engine thread, which is
between two calls then, hands them to the scheduler.
-/

namespace LlmServe

open Infra

/-- The next line of the engine thread; `tok` is `next_id`. -/
inductive NaivePc where
  /-- Between two calls of `step`. -/
  | idle
  /-- At `while len(req.output_token_ids) < req.max_new_tokens`. -/
  | loop (r : Ref)
  /-- At `if req.first_token_time is None`. -/
  | stamp (r : Ref) (tok : Token)
  /-- At `on_token(next_id)`. -/
  | callback (r : Ref) (tok : Token)
  /-- At `req.finish_time = time.perf_counter()`. -/
  | finish (r : Ref)
  /-- At `if req.cancelled`, behind the loop. -/
  | close (r : Ref)
  /-- At `req.finish_reason = req.finish_reason or "length"`. -/
  | name (r : Ref)
  deriving DecidableEq

structure NaiveThread (σ : Type) where
  sched : NaiveScheduler σ
  inbox : List Ref := []
  pc : NaivePc := .idle

inductive NaiveAction where
  /-- A client builds a request and puts it into the inbox. -/
  | create (n : NewRequest)
  /-- A client disconnects. -/
  | cancel (r : Ref)
  /-- The engine thread takes a request out of the inbox. -/
  | submit
  /-- The engine thread, one line further. -/
  | advance
  deriving DecidableEq

namespace NaiveScheduler

variable {σ : Type} (runner : Runner σ)

/-- Assignment to fields of the object `r`. -/
def modify (s : NaiveScheduler σ) (r : Ref) (f : Request → Request) : NaiveScheduler σ :=
  { s with heap := Function.update s.heap r (f (s.heap r)) }

/-- A new object, at `s.next`. -/
def create (s : NaiveScheduler σ) (q : Request) : NaiveScheduler σ :=
  { s with heap := Function.update s.heap s.next q, next := s.next + 1 }

/-- `time.perf_counter()`. -/
def perfCounter (s : NaiveScheduler σ) : Time × NaiveScheduler σ :=
  ((runner.perfCounter s.world).1, { s with world := (runner.perfCounter s.world).2 })

end NaiveScheduler

namespace NaiveThread

variable {σ : Type} (runner : Runner σ)

def init (world : σ) : NaiveThread σ := { sched := .init world }

/-- The first lines of `step`, and of `run`: a request is taken out of `waiting`. -/
def enter (t : NaiveThread σ) : NaiveThread σ :=
  let s := { t.sched with waiting := t.sched.waiting.filter fun r => !(t.sched.heap r).cancelled }
  match s.waiting with
  | [] => { t with sched := s }
  | r :: rest =>
    let s := { s with waiting := rest, running := [r] }
    { t with sched := s.modify r fun q => { q with state := .running }, pc := .loop r }

/-- The `while` of `run`, down to the append. -/
def loop (t : NaiveThread σ) (r : Ref) : NaiveThread σ :=
  let q := t.sched.heap r
  if (q.outputTokenIds.length : Int) < q.maxNewTokens then
    if maxContext ≤ q.seqLen ∨ q.cancelled = true then { t with pc := .finish r }
    else
      let tok := runner.nextToken q.tokens
      { t with
        sched := t.sched.modify r fun q => { q with outputTokenIds := q.outputTokenIds ++ [tok] }
        pc := .stamp r tok }
  else { t with pc := .finish r }

def stamp (t : NaiveThread σ) (r : Ref) (tok : Token) : NaiveThread σ :=
  let s :=
    if (t.sched.heap r).firstTokenTime = none then
      let (now, s) := t.sched.perfCounter runner
      s.modify r fun q => { q with firstTokenTime := some now }
    else t.sched
  { t with
    sched := { s with runnerMetrics := s.runnerMetrics.recordStep 1 0 0 0 0 }
    pc := .callback r tok }

/-- `on_token`, and the `break` behind it. -/
def callback (t : NaiveThread σ) (r : Ref) (tok : Token) : NaiveThread σ :=
  let q := t.sched.heap r
  { t with
    sched := { t.sched with trace := t.sched.trace ++ NaiveScheduler.onToken r q tok }
    pc := if tok = eosTokenId ∧ q.ignoreEos = false then .finish r else .loop r }

def finish (t : NaiveThread σ) (r : Ref) : NaiveThread σ :=
  let (now, s) := t.sched.perfCounter runner
  { t with sched := s.modify r fun q => { q with finishTime := some now }, pc := .close r }

def close (t : NaiveThread σ) (r : Ref) : Except PyError (NaiveThread σ) := do
  let s := t.sched.modify r fun q => { q with state := .finished }
  if (s.heap r).cancelled then
    return { t with
      sched := s.modify r fun q => { q with finishReason := some .cancelled }, pc := .name r }
  else do
    let met ← s.runnerMetrics.recordRequest (s.heap r)
    return { t with sched := { s with runnerMetrics := met }, pc := .name r }

def name (t : NaiveThread σ) (r : Ref) : NaiveThread σ :=
  let s := t.sched.modify r fun q => { q with finishReason := some (q.finishReason.getD .length) }
  { t with sched := { s with running := [] }, pc := .idle }

def advance (t : NaiveThread σ) : Except PyError (NaiveThread σ) :=
  match t.pc with
  | .idle => .ok t.enter
  | .loop r => .ok (t.loop runner r)
  | .stamp r tok => .ok (t.stamp runner r tok)
  | .callback r tok => .ok (t.callback r tok)
  | .finish r => .ok (t.finish runner r)
  | .close r => t.close r
  | .name r => .ok (t.name r)

/-- The engine thread submits between two calls only. -/
def submit (t : NaiveThread σ) : NaiveThread σ :=
  match t.pc, t.inbox with
  | .idle, r :: rest => { t with sched := t.sched.submit r, inbox := rest }
  | _, _ => t

def act (t : NaiveThread σ) : NaiveAction → Except PyError (NaiveThread σ)
  | .create n => .ok { t with
      sched := t.sched.create n.toRequest
      inbox := t.inbox ++ [t.sched.next] }
  | .cancel r =>
    .ok (if r < t.sched.next then
      { t with sched := t.sched.modify r fun q => { q with cancelled := true } } else t)
  | .submit => .ok t.submit
  | .advance => t.advance runner

end NaiveThread

end LlmServe
