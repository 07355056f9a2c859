import LlmServe.Engine.Engine

/-!
# The engine thread (`engine/scheduler.py`, class `EngineLoop`)

Client threads put requests into the inbox and set flags; the engine thread alone touches the
scheduler. `advance` is the engine thread up to the next place where another thread can get in
between: it looks at `_stop`, takes one request out of the inbox, hands it to the scheduler, runs
one step, or waits. `Event.wait(0.05)` returns when the event is set or the time is up, so
`advance` may always leave it.
-/

namespace LlmServe

open Infra

/-- Where the engine thread is in `_run`. -/
inductive LoopPc where
  /-- At `while not self._stop.is_set()`. -/
  | top
  /-- At `self.inbox.get_nowait()`. -/
  | drain
  /-- Between `get_nowait` and `Scheduler.submit`. -/
  | hand (r : Ref)
  /-- At `if self.sched.has_work()`. -/
  | work
  /-- In `self._wake.wait(0.05)`. -/
  | wait
  | done
  deriving DecidableEq

structure EngineLoop (σ : Type) where
  sched : Scheduler σ
  inbox : List Ref := []
  wake : Bool := false
  stop : Bool := false
  pc : LoopPc := .top

inductive LoopAction where
  /-- A client thread builds a request and calls `EngineLoop.submit`. -/
  | submit (n : NewRequest)
  | cancel (r : Ref)
  /-- `EngineLoop.stop`. -/
  | stop
  | advance
  deriving DecidableEq

namespace EngineLoop

variable {σ : Type} (env : Env σ) (cfg : EngineConfig)

/-- `EngineLoop(engine)`, started. -/
def init (m : Manager) (w : σ) : EngineLoop σ := { sched := .init cfg m w }

def queueDepth (l : EngineLoop σ) : Nat := l.inbox.length + l.sched.waiting.length

/-- `submit`: a rejected request is only counted. -/
def submit (l : EngineLoop σ) (n : NewRequest) : Bool × EngineLoop σ :=
  if cfg.maxQueue.any fun cap => cap ≤ l.queueDepth then
    (false, { l with sched := { l.sched with
      metrics := { l.sched.metrics with rejected := l.sched.metrics.rejected + 1 } } })
  else
    (true, { l with
      sched := l.sched.create n.toRequest
      inbox := l.inbox ++ [l.sched.next]
      wake := true })

/-- `_run`, one place further. -/
def advance (l : EngineLoop σ) : Except PyError (EngineLoop σ) :=
  match l.pc with
  | .top => .ok { l with pc := if l.stop then .done else .drain }
  | .drain =>
    match l.inbox with
    | [] => .ok { l with pc := .work }
    | r :: rest => .ok { l with inbox := rest, pc := .hand r }
  | .hand r => .ok { l with sched := l.sched.submit r, pc := .drain }
  | .work =>
    if l.sched.hasWork then do
      let sched ← l.sched.step env cfg
      return { l with sched, pc := .top }
    else .ok { l with pc := .wait }
  | .wait => .ok { l with wake := false, pc := .top }
  | .done => .ok l

def act (l : EngineLoop σ) : LoopAction → Except PyError (EngineLoop σ)
  | .submit n => .ok (l.submit cfg n).2
  | .cancel r =>
    .ok (if r < l.sched.next then { l with sched := l.sched.cancel r } else l)
  | .stop => .ok { l with stop := true, wake := true }
  | .advance => l.advance env cfg

/-- The request in the loop's hand. -/
def hand (l : EngineLoop σ) : List Ref :=
  match l.pc with
  | .hand r => [r]
  | _ => []

end EngineLoop

end LlmServe
