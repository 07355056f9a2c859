import LlmServe.Engine.Api

/-!
# The handler of one request (`generate`, behind `loop.submit`)

The handler is a process beside the engine thread. It takes events out of its queue, which are the
calls of the request's sink in order, and reads fields of the `Request` that the engine thread
writes. `advance` is the handler up to the next line that reads such a field. What it finds there is
kept in `reports`.
-/

namespace LlmServe

/-- The next line of a handler. -/
inductive HandlerPc where
  /-- At `await events.get()`. -/
  | reading
  /-- At the last line of `ndjson`, behind a final event. -/
  | doneLine
  /-- At `if not req.finished`; `final` says whether a final event was taken. -/
  | closing (final : Bool)
  /-- At `JSONResponse(...)`. -/
  | response
  | closed
  deriving DecidableEq

/-- What a handler did with fields of the request. -/
inductive HandlerReport where
  /-- The `"finish_reason"` of the last line. -/
  | doneLine (finishReason : Option FinishReason)
  /-- `req.cancelled = True`. -/
  | cancelled (final : Bool)
  /-- The fields of the JSON response; a time is `none` where the subtraction raises. -/
  | response (finishReason : Option FinishReason) (ttft e2e : Option Time)
  deriving DecidableEq

structure Handler where
  stream : Bool
  pc : HandlerPc := .reading
  /-- How many events have been taken out of the queue. -/
  taken : Nat := 0
  reports : List HandlerReport := []
  deriving DecidableEq

namespace Handler

/-- No handler yet. -/
def none : Handler := { stream := false, pc := .closed }

/-- The handler, one line further; the flag says whether it sets `req.cancelled`. -/
def advance (q : Request) (events : List SinkEvent) (h : Handler) : Handler × Bool :=
  match h.pc with
  | .reading =>
    match events[h.taken]? with
    | .none => (h, false)
    | .some (_, fin) =>
      let h := { h with taken := h.taken + 1 }
      if fin then ({ h with pc := if h.stream then .doneLine else .closing true }, false)
      else (h, false)
  | .doneLine =>
    ({ h with pc := .closing true, reports := h.reports ++ [.doneLine q.finishReason] }, false)
  | .closing final =>
    -- without a final event the exception goes on behind `finally`
    let h := { h with pc := if final && !h.stream then .response else .closed }
    if q.finished then (h, false)
    else ({ h with reports := h.reports ++ [.cancelled final] }, true)
  | .response =>
    let since (t : Option Time) : Option Time := t.map fun t => t - q.arrivalTime
    ({ h with
      pc := .closed
      reports := h.reports ++
        [.response q.finishReason (since q.firstTokenTime) (since q.finishTime)] }, false)
  | .closed => (h, false)

/-- The client goes away while the handler is at an `await` or a `yield`. -/
def disconnect (h : Handler) : Handler :=
  match h.pc with
  | .reading => { h with pc := .closing false }
  | .doneLine => { h with pc := .closing true }
  | .closing _ | .response | .closed => h

end Handler

end LlmServe
