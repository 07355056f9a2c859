import Mathlib.Data.List.Basic

/-!
# Requests (`engine/request.py`, `engine/config.py`)

A `Request` is a mutable object that several lists and dictionaries point to, so the model keeps
two things apart: the record of its fields (`Request`) and the identity of the object (`Ref`).
The scheduler's lists hold `Ref`s and a heap gives each its fields; two requests with equal fields
are still two objects.

Token ids are integers: a client sends them in a JSON list without bounds. Times are readings of
`time.perf_counter` counted in clock ticks; the engine only compares and subtracts them.
-/

namespace LlmServe

abbrev Token := Int

abbrev Time := Int

/-- The identity of a `Request` object. -/
abbrev Ref := Nat

/-- `EOS_TOKEN_ID`. -/
def eosTokenId : Token := 50256

/-- `MAX_CONTEXT`. -/
def maxContext : Nat := 1024

/-- `MAX_LEN` of the cache module. -/
def maxLen : Nat := 1024

inductive RequestState where
  | waiting
  | running
  | finished
  deriving DecidableEq

inductive FinishReason where
  | length
  | stop
  | cancelled
  deriving DecidableEq

/--
The dataclass `Request`.

`sink` is a callable, compared by identity like any function, so an identity is all there is of it.
`DecidableEq` is the dataclass `__eq__`: field by field.
-/
structure Request where
  requestId : String
  promptTokenIds : List Token
  maxNewTokens : Int
  ignoreEos : Bool := false
  outputTokenIds : List Token := []
  state : RequestState := .waiting
  arrivalTime : Time
  firstTokenTime : Option Time := none
  finishTime : Option Time := none
  finishReason : Option FinishReason := none
  blockTable : List Nat := []
  admitSeq : Int := -1
  preemptCount : Nat := 0
  cancelled : Bool := false
  sink : Option Nat := none
  deriving DecidableEq

namespace Request

def seqLen (q : Request) : Nat := q.promptTokenIds.length + q.outputTokenIds.length

def finished (q : Request) : Bool := q.finishReason.isSome

theorem finished_iff {q : Request} : q.finished = true ↔ q.finishReason ≠ none := by
  simp [finished, Option.isSome_iff_ne_none]

theorem not_finished_iff {q : Request} : q.finished = false ↔ q.finishReason = none := by
  simp [finished]

/-- The prompt and everything generated so far. -/
def tokens (q : Request) : List Token := q.promptTokenIds ++ q.outputTokenIds

@[simp] theorem length_tokens (q : Request) : q.tokens.length = q.seqLen := by
  simp [tokens, seqLen]

end Request

/--
What a caller chooses when it builds a `Request`: the other fields start at the dataclass
defaults. `cancelled` is the flag at the moment the scheduler gets the request, since a client
can disconnect while its request is still in the inbox.
-/
structure NewRequest where
  requestId : String
  promptTokenIds : List Token
  maxNewTokens : Int
  ignoreEos : Bool := false
  arrivalTime : Time := 0
  cancelled : Bool := false
  sink : Option Nat := none
  deriving DecidableEq

/-- `Request(request_id, prompt_token_ids, max_new_tokens, ...)`. -/
def NewRequest.toRequest (n : NewRequest) : Request :=
  { requestId := n.requestId, promptTokenIds := n.promptTokenIds, maxNewTokens := n.maxNewTokens,
    ignoreEos := n.ignoreEos, arrivalTime := n.arrivalTime, cancelled := n.cancelled,
    sink := n.sink }

/-- The heap cell of an object that was never built. -/
def Request.blank : Request :=
  { requestId := "", promptTokenIds := [], maxNewTokens := 0, arrivalTime := 0 }

/-! ## Exceptions -/

/-- The exceptions that end a step, with their messages where the source gives one. -/
inductive PyError where
  | runtimeError (msg : String)
  | assertionError (msg : String)
  | indexError (msg : String)
  | valueError (msg : String)
  | zeroDivisionError
  deriving DecidableEq

/-! ## Configuration -/

inductive Backend where
  | naive
  | contiguous
  | paged
  deriving DecidableEq

inductive Batching where
  | static
  | continuous
  deriving DecidableEq

/-- `EngineConfig`, with its defaults. -/
structure EngineConfig where
  backend : Backend := .contiguous
  batching : Batching := .continuous
  maxBatch : Nat := 16
  kvBudgetMib : Nat := 1024
  blockSize : Nat := 16
  maxQueue : Option Nat := none
  preemption : Bool := false
  deriving DecidableEq

end LlmServe
