import LlmServe.Engine.Generate
import LlmServe.Engine.Handler
import Mathlib.Logic.Function.Basic

/-!
# A connection to `/generate` (`engine/api.py`, `engine/observability.py`)

The handler of one request once more, with the text it sends and the counters it updates; what it
reads of the request, and when, is `Handler`. A streamed response is a generator, which stops at
each `yield` until its line has been sent, and runs only once the first line is asked for. A
coroutine is only interrupted at an `await` or a `yield`, so `finish` runs to its end in the line it
stands in.
-/

namespace LlmServe

/-! ## Counters -/

/-- The values of the label `status`. -/
inductive Status where
  | ok
  | rejected
  | tooLarge
  | cancelled
  | error
  deriving DecidableEq

/-- The series of `Observability`; a histogram is the list of what it observed. -/
structure Observability where
  requests : Status → Nat := fun _ => 0
  tokens : Nat := 0
  promptTokens : Nat := 0
  ttft : List Time := []
  tpot : List Rat := []
  e2e : List Time := []

namespace Observability

/-- `self.requests.labels(s).inc()`. -/
def inc (o : Observability) (s : Status) : Observability :=
  { o with requests := Function.update o.requests s (o.requests s + 1) }

/-- `observe_finished`. -/
def observeFinished (o : Observability) (q : Request) : Observability :=
  let o := { o.inc .ok with
    tokens := o.tokens + q.outputTokenIds.length
    promptTokens := o.promptTokens + q.promptTokenIds.length }
  let n := q.outputTokenIds.length
  let o :=
    match q.firstTokenTime, q.finishTime with
    | some first, some finish =>
      { o with
        ttft := o.ttft ++ [first - q.arrivalTime]
        tpot := if 1 < n then o.tpot ++ [(finish - first : Rat) / (n - 1)] else o.tpot }
    | some first, none => { o with ttft := o.ttft ++ [first - q.arrivalTime] }
    | none, _ => o
  match q.finishTime with
  | some finish => { o with e2e := o.e2e ++ [finish - q.arrivalTime] }
  | none => o

end Observability

/-! ## The handler -/

/-- The object of `JSONResponse(...)`. -/
structure GenerateOut where
  requestId : String
  tokenIds : List Token
  text : Text
  finishReason : Option FinishReason
  ttftS : Time
  e2eS : Time
  deriving DecidableEq

/-- Where the generator `ndjson` stands. A response in one piece is `running` throughout. -/
inductive GeneratorState where
  | unstarted
  /-- At `await events.get()`, or at a line of its own. -/
  | running
  /-- At the `yield` of a token or of the last line. -/
  | line
  /-- At the `yield` of the text held back. -/
  | tail
  deriving DecidableEq

/-- The local variables of `generate`. -/
structure Connection where
  handler : Handler
  /-- `rid`, `ids` and what else the `Request` is made of. -/
  asked : NewRequest
  generator : GeneratorState := .running
  detok : IncrementalDetokenizer := {}
  status : Status := .error
  /-- What `ndjson` has yielded. -/
  lines : List JsonObject := []
  text : Text := []
  out : Option GenerateOut := none

namespace Connection

/-- No connection. -/
def absent : Connection :=
  { handler := .none
    asked := { requestId := "", promptTokenIds := [], maxNewTokens := 0 } }

/-- A request that was just submitted. -/
def opened (n : NewRequest) (stream : Bool) : Connection :=
  { handler := { stream }, asked := n, generator := if stream then .unstarted else .running }

@[simp] theorem opened_asked (n : NewRequest) (stream : Bool) : (opened n stream).asked = n := rfl

variable (tok : Tokenizer)

/-- One event, and what becomes of it. -/
def take (c : Connection) (t : Token) (fin : Bool) : Connection :=
  let (piece, detok) := c.detok.push tok t
  if c.handler.stream then
    { c with detok, lines := c.lines ++ [tokenLine t piece], generator := .line }
  else { c with detok, text := c.text ++ piece, status := if fin then .ok else c.status }

/-- The last line. -/
def yieldDone (c : Connection) (q : Request) : Connection :=
  { c with
    lines := c.lines ++ [doneLine q.finishReason c.handler.taken]
    generator := .line }

/-- The response in one piece; where a time is missing the subtraction raises. -/
def respond (c : Connection) (q : Request) : Connection :=
  match q.firstTokenTime, q.finishTime with
  | some first, some finish =>
    let (tail, detok) := c.detok.flush tok
    { c with
      detok
      out := some
        { requestId := c.asked.requestId, tokenIds := q.outputTokenIds, text := c.text ++ tail
          finishReason := q.finishReason, ttftS := first - q.arrivalTime
          e2eS := finish - q.arrivalTime } }
  | _, _ => c

/-- The handler goes on to its next `await` or `yield`, or to the next line that reads a field of
the request. The other results say whether it sets `req.cancelled`, and what it calls `finish`
with. -/
def advance (q : Request) (events : List SinkEvent) (c : Connection) :
    Connection × Bool × Option Status :=
  let (handler, flag) := c.handler.advance q events
  match c.handler.pc, c.generator with
  | .closed, _ => (c, false, none)
  | _, .unstarted => ({ c with generator := .running }, false, none)
  | .reading, .running =>
    match events[c.handler.taken]? with
    | some (t, fin) => ({ c.take tok t fin with handler }, false, none)
    | none => (c, false, none)
  | .reading, _ => ({ c with generator := .running }, false, none)
  | .doneLine, .line =>
    let (tail, detok) := c.detok.flush tok
    if tail = [] then ({ c.yieldDone q with handler, detok }, false, none)
    else ({ c with detok, lines := c.lines ++ [tailLine tail], generator := .tail }, false, none)
  | .doneLine, _ => ({ c.yieldDone q with handler }, false, none)
  -- behind the `yield` of the last line
  | .closing _, .line => ({ c with status := .ok, generator := .running }, false, none)
  | .closing _, _ =>
    let status := if q.finished then c.status else .cancelled
    ({ c with handler, status }, flag, some status)
  | .response, _ => ({ c.respond tok q with handler }, false, none)

/-- The client goes away. `await` raises `CancelledError`. A generator at a `yield` is closed:
`GeneratorExit` runs through `finally` and nothing catches it. One that was never started is just
dropped. -/
def disconnect (c : Connection) : Connection :=
  match c.handler.pc, c.generator with
  | .response, _ | .closed, _ => c
  | _, .unstarted => { c with handler := { c.handler with pc := .closed } }
  | _, .line | _, .tail => { c with handler := c.handler.disconnect, generator := .running }
  | .reading, .running => { c with handler := c.handler.disconnect, status := .cancelled }
  | _, .running => c

/-- `finish`. -/
def finish (q : Request) : Status → Observability → Observability
  | .ok, o => o.observeFinished q
  | s, o => o.inc s

end Connection

end LlmServe
