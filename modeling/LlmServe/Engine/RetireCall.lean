import LlmServe.Engine.Scheduler

/-!
# One call of `_retire`, with clients in between

`Scheduler.retire` is the whole call. Here its two loops are taken round by round, so that another
thread can build a request or set a `cancelled` flag between any two rounds. A list comprehension
reads each flag once, and clients write nothing else that it reads, so the filter of `waiting` is one
step. `inbox` holds the objects that clients have built and not yet seen submitted.
-/

namespace LlmServe

open Infra

inductive RetirePc where
  /-- At the filter of `waiting`. -/
  | drop
  /-- In the first loop over `running`, with these requests to go. -/
  | mark (todo : List Ref)
  /-- In the second loop, with these to go and these kept so far. -/
  | sweep (todo keep : List Ref)
  | done
  deriving DecidableEq

structure RetireCall (σ : Type) where
  sched : Scheduler σ
  inbox : List Ref
  pc : RetirePc := .drop

inductive RetireAction where
  /-- A client builds a request and puts it into the inbox. -/
  | create (n : NewRequest)
  /-- A client disconnects. -/
  | cancel (r : Ref)
  /-- The engine thread, one round further. -/
  | advance
  deriving DecidableEq

namespace RetireCall

variable {σ : Type} (env : Env σ)

/-- The engine thread enters `_retire`. -/
def start (s : Scheduler σ) (inbox : List Ref) : RetireCall σ := { sched := s, inbox }

def advance (t : RetireCall σ) : Except PyError (RetireCall σ) :=
  match t.pc with
  | .drop =>
    .ok { t with
      sched := { t.sched with
        waiting := t.sched.waiting.filter fun r => !(t.sched.heap r).cancelled }
      pc := .mark t.sched.running }
  | .mark [] => .ok { t with pc := .sweep t.sched.running [] }
  | .mark (r :: todo) => .ok { t with sched := t.sched.markCancelled env r, pc := .mark todo }
  | .sweep [] keep => .ok { t with sched := { t.sched with running := keep }, pc := .done }
  | .sweep (r :: todo) keep =>
    if (t.sched.heap r).finished then do
      let sched ← t.sched.leave r
      return { t with sched, pc := .sweep todo keep }
    else .ok { t with pc := .sweep todo (keep ++ [r]) }
  | .done => .ok t

def act (t : RetireCall σ) : RetireAction → Except PyError (RetireCall σ)
  | .create n => .ok { t with
      sched := t.sched.create n.toRequest
      inbox := t.inbox ++ [t.sched.next] }
  | .cancel r => .ok (if r < t.sched.next then { t with sched := t.sched.cancel r } else t)
  | .advance => t.advance env

end RetireCall

end LlmServe
