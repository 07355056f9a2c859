import LlmServe.Engine.EngineLoop

/-!
# The engine thread and its wake flag, step by step

`EngineLoop.advance` and `EngineLoop.submit` pass over places where another thread can get in
between. Here each of these is a step of its own: a submitter puts its request into the inbox and
later sets the flag, the engine thread tests `has_work`, runs a step, leaves `wait` and clears the
flag. Any number of submitters can be between their two steps; `unset` are their requests.

A thread that cannot move stays where it is: the engine thread leaves `wait` by itself only when
the flag is set, and otherwise when the time is up.
-/

namespace LlmServe

open Infra

inductive WakePc where
  /-- At `while not self._stop.is_set()`. -/
  | top
  /-- At `self.inbox.get_nowait()`. -/
  | drain
  /-- Between `get_nowait` and `Scheduler.submit`. -/
  | hand (r : Ref)
  /-- At `if self.sched.has_work()`. -/
  | work
  /-- At `self.sched.step()`. -/
  | step
  /-- In `self._wake.wait(0.05)`. -/
  | wait
  /-- At `self._wake.clear()`. -/
  | clear
  | done
  deriving DecidableEq

structure WakeLoop (σ : Type) where
  sched : Scheduler σ
  inbox : List Ref := []
  wake : Bool := false
  stop : Bool := false
  pc : WakePc := .top
  /-- The requests of submitters between `inbox.put` and `_wake.set`. -/
  unset : List Ref := []

inductive WakeAction where
  /-- A submitter that found room puts its request. -/
  | put (n : NewRequest)
  /-- The submitter of `r` sets the flag. -/
  | set (r : Ref)
  /-- A submitter that found the queue full. -/
  | reject
  | cancel (r : Ref)
  /-- `self._stop.set()`. -/
  | stop
  /-- `self._wake.set()` in `stop`. -/
  | stopWake
  | loop
  /-- The 50 ms of `wait` are up. -/
  | timeout
  deriving DecidableEq

namespace WakeLoop

variable {σ : Type} (env : Env σ) (cfg : EngineConfig)

def init (m : Manager) (w : σ) : WakeLoop σ := { sched := .init cfg m w }

/-- One step of `_run`. -/
def loop (l : WakeLoop σ) : Except PyError (WakeLoop σ) :=
  match l.pc with
  | .top => .ok { l with pc := if l.stop then .done else .drain }
  | .drain =>
    match l.inbox with
    | [] => .ok { l with pc := .work }
    | r :: rest => .ok { l with inbox := rest, pc := .hand r }
  | .hand r => .ok { l with sched := l.sched.submit r, pc := .drain }
  | .work => .ok { l with pc := if l.sched.hasWork then .step else .wait }
  | .step => do
    let sched ← l.sched.step env cfg
    return { l with sched, pc := .top }
  | .wait => .ok (if l.wake then { l with pc := .clear } else l)
  | .clear => .ok { l with wake := false, pc := .top }
  | .done => .ok l

def act (l : WakeLoop σ) : WakeAction → Except PyError (WakeLoop σ)
  | .put n => .ok { l with
      sched := l.sched.create n.toRequest
      inbox := l.inbox ++ [l.sched.next]
      unset := l.sched.next :: l.unset }
  | .set r => .ok (if r ∈ l.unset then { l with wake := true, unset := l.unset.erase r } else l)
  | .reject => .ok { l with sched := { l.sched with
      metrics := { l.sched.metrics with rejected := l.sched.metrics.rejected + 1 } } }
  | .cancel r => .ok (if r < l.sched.next then { l with sched := l.sched.cancel r } else l)
  | .stop => .ok { l with stop := true }
  | .stopWake => .ok { l with wake := true }
  | .loop => l.loop env cfg
  | .timeout => .ok (if l.pc = .wait then { l with pc := .clear } else l)

/-- In `wait` with the flag clear: only a signal or the timeout lets the engine thread go on. -/
def Blocked (l : WakeLoop σ) : Prop := l.pc = .wait ∧ l.wake = false

end WakeLoop

end LlmServe
