import LlmServe.Engine.Api
import LlmServe.Engine.EngineLoop

/-!
# What `/generate` lets in (`engine/api.py`)

The handler checks a body, builds a `Request` and hands it to the engine loop, or raises an
`HTTPException`. `encode` is the tokenizer's; `rid` is the header `x-request-id`, or the `uuid4` in
its place. The checks read nothing that changes, so the whole handler down to `loop.submit` is one
action of the server.
-/

namespace LlmServe

structure GenerateIn where
  prompt : Option Text := none
  promptTokenIds : Option (List Token) := none
  maxNewTokens : Int := 32
  ignoreEos : Bool := false
  stream : Bool := false
  deriving DecidableEq

structure HttpException where
  statusCode : Nat
  detail : String
  headers : List (String × String) := []
  deriving DecidableEq

namespace GenerateIn

variable (encode : Text → List Token)

/-- `ids`. -/
def ids (body : GenerateIn) : Except HttpException (List Token) :=
  match body.promptTokenIds, body.prompt with
  | some ids, _ => .ok ids
  | none, some prompt => .ok (encode prompt)
  | none, none => .error { statusCode := 400, detail := "give prompt or prompt_token_ids" }

/-- The checks before `loop.submit`, and the `Request`; `sink` stands for the closure. -/
def toRequest (m : Manager) (body : GenerateIn) (rid : String) (now : Time) (sink : Nat) :
    Except HttpException NewRequest := do
  let ids ← body.ids encode
  if ¬(0 < ids.length ∧ ids.length < 1024) then
    .error { statusCode := 400, detail := "prompt must have 1..1023 tokens" }
  else if m.fitsEver ids.length (min body.maxNewTokens (1024 - ids.length)) = false then
    .error { statusCode := 413, detail := "request needs more KV memory than the server has" }
  else
    return { requestId := rid, promptTokenIds := ids, maxNewTokens := body.maxNewTokens
             ignoreEos := body.ignoreEos, arrivalTime := now, sink := some sink }

end GenerateIn

inductive ServerAction where
  /-- A client posts a body to `/generate`. -/
  | generate (body : GenerateIn) (rid : String) (now : Time)
  /-- A client disconnects. -/
  | cancel (r : Ref)
  | stop
  /-- The engine thread. -/
  | advance
  deriving DecidableEq

namespace EngineLoop

variable {σ : Type} (encode : Text → List Token) (env : Env σ) (cfg : EngineConfig)

/-- `generate`, as far as it decides whether the request is let in. -/
def generate (l : EngineLoop σ) (body : GenerateIn) (rid : String) (now : Time) :
    Except HttpException Unit × EngineLoop σ :=
  match body.toRequest encode l.sched.manager rid now l.sched.next with
  | .error e => (.error e, l)
  | .ok n =>
    let (accepted, l') := l.submit cfg n
    if accepted then (.ok (), l')
    else
      (.error { statusCode := 429, detail := "overloaded: queue is full"
                headers := [("Retry-After", "1"), ("X-Request-ID", rid)] }, l')

def serve (l : EngineLoop σ) : ServerAction → Except PyError (EngineLoop σ)
  | .generate body rid now => .ok (l.generate encode cfg body rid now).2
  | .cancel r => l.act env cfg (.cancel r)
  | .stop => l.act env cfg .stop
  | .advance => l.act env cfg .advance

/-- A body whose request is put into the inbox is one that the checks let in. -/
theorem generate_cases (l : EngineLoop σ) (body : GenerateIn) (rid : String) (now : Time) :
    (l.generate encode cfg body rid now).1 ≠ .ok () ∧
        (l.generate encode cfg body rid now).2.sched.heap = l.sched.heap ∧
        (l.generate encode cfg body rid now).2.sched.next = l.sched.next ∨
      ∃ n, body.toRequest encode l.sched.manager rid now l.sched.next = .ok n ∧
        (l.generate encode cfg body rid now).1 = .ok () ∧
        (l.generate encode cfg body rid now).2.sched = l.sched.create n.toRequest := by
  unfold generate
  cases body.toRequest encode l.sched.manager rid now l.sched.next with
  | error e => exact Or.inl ⟨by simp, rfl, rfl⟩
  | ok n =>
    unfold submit
    dsimp only
    split
    · exact Or.inl ⟨by simp, rfl, rfl⟩
    · exact Or.inr ⟨n, rfl, rfl, rfl⟩

end EngineLoop

theorem GenerateIn.toRequest_ok {encode : Text → List Token} {m : Manager} {body : GenerateIn}
    {rid : String} {now : Time} {sink : Nat} {n : NewRequest}
    (h : body.toRequest encode m rid now sink = .ok n) :
    body.ids encode = .ok n.promptTokenIds ∧ n.promptTokenIds.length < 1024 := by
  obtain ⟨ids, hids, h⟩ := Infra.exists_of_bind_ok h
  split at h
  · cases h
  · next hlen =>
    split at h
    · cases h
    · cases h
      exact ⟨hids, (not_not.mp hlen).2⟩

end LlmServe
