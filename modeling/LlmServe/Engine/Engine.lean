import LlmServe.Engine.Scheduler
import LlmServe.Infra.Machine

/-!
# The engine around the scheduler (`engine/scheduler.py`, class `Engine`)

What builds the allocator, what submits requests, and what calls `step`.

A run of the scheduler is a list of `Action`s: a request is built and submitted, a client thread
sets a `cancelled` flag, the engine thread takes a step. Every caller of `Scheduler.submit` hands
over an object it has just built, once, so `submit` and the construction are one action; objects
are numbered in the order they are built.
-/

namespace LlmServe

open Infra

/-- The allocator `Engine.__init__` builds for a batched backend. -/
def Engine.manager (cfg : EngineConfig) : Except PyError Manager :=
  let budget := cfg.kvBudgetMib * 1024 * 1024
  match cfg.backend with
  | .paged =>
    if h : 0 < cfg.blockSize then
      .ok (.block (.new (BlockManager.blocksForBudget budget cfg.blockSize) cfg.blockSize h
        !cfg.preemption))
    else .error .zeroDivisionError
  | _ => .ok (.slot (.new (min cfg.maxBatch (SlotManager.slotsForBudget budget))))

inductive Action where
  | submit (n : NewRequest)
  | cancel (r : Ref)
  | step
  deriving DecidableEq

/-- The requests a run submits, in order: the `i`-th is the object `i`. -/
def submitted (acts : List Action) : List NewRequest :=
  acts.filterMap fun
    | .submit n => some n
    | _ => none

@[simp] theorem submitted_nil : submitted [] = [] := rfl

theorem submitted_append (as bs : List Action) :
    submitted (as ++ bs) = submitted as ++ submitted bs := List.filterMap_append

@[simp] theorem submitted_snoc_submit (as : List Action) (n : NewRequest) :
    submitted (as ++ [.submit n]) = submitted as ++ [n] := submitted_append _ _

@[simp] theorem submitted_snoc_cancel (as : List Action) (r : Ref) :
    submitted (as ++ [.cancel r]) = submitted as := by
  rw [submitted_append]; exact List.append_nil _

@[simp] theorem submitted_snoc_step (as : List Action) :
    submitted (as ++ [.step]) = submitted as := by
  rw [submitted_append]; exact List.append_nil _

namespace Scheduler

variable {σ : Type} (env : Env σ) (cfg : EngineConfig)

/-- `sched.submit(Request(...))`. -/
def accept (s : Scheduler σ) (n : NewRequest) : Scheduler σ :=
  (s.create n.toRequest).submit s.next

def act (s : Scheduler σ) : Action → Except PyError (Scheduler σ)
  | .submit n => .ok (s.accept n)
  | .cancel r => .ok (if r < s.next then s.cancel r else s)
  | .step => s.step env cfg

/-- `Engine.generate_batch`: submit everything, then `while has_work: step`. -/
def generateBatch (fuel : Nat) (s : Scheduler σ) (reqs : List NewRequest) :
    Except PyError (Option (Scheduler σ)) :=
  loop hasWork (fun s => s.step env cfg) fuel (reqs.foldl accept s)

/-! ### `Engine.run_schedule` -/

/-- Submit the requests that arrive at iteration `it`. -/
def arrive (reqs : List (Ref × Int)) (it : Int) (s : Scheduler σ) : Scheduler σ :=
  (reqs.filterMap fun (r, at_) => if at_ = it then some r else none).foldl submit s

/-- The `while True`, from one test of its `break` to the next. -/
def scheduleLoop (reqs : List (Ref × Int)) (last : Int) (fuel : Nat) (s : Scheduler σ) :
    Except PyError (Option (Int × Scheduler σ)) :=
  loop (fun st => !(last < st.1 && !st.2.hasWork))
    (fun st => do
      let s ← st.2.step env cfg
      return (st.1 + 1, s.arrive reqs (st.1 + 1)))
    fuel (0, s.arrive reqs 0)

/-- `Engine.run_schedule`: each request comes with the iteration it arrives at. -/
def runSchedule (fuel : Nat) (s : Scheduler σ) (specs : List (NewRequest × Int)) :
    Except PyError (Option (List (List Token))) :=
  let reqs := specs.mapIdx fun i spec => (s.next + i, spec.2)
  let s := specs.foldl (fun s spec => s.create spec.1.toRequest) s
  match (specs.map Prod.snd).max? with
  | none => .error (.valueError "max() arg is an empty sequence")
  | some last => do
    let st ← s.scheduleLoop env cfg reqs last fuel
    return st.map fun st => reqs.map fun r => (st.2.heap r.1).outputTokenIds

end Scheduler

/-- A forward pass that answers for every batch of rows within the context. -/
def Env.Answers {σ : Type} (env : Env σ) : Prop :=
  ∀ w rows, (∀ row ∈ rows, row.tokens ≠ [] ∧ row.start + row.tokens.length ≤ maxContext) →
    ∃ b, env.stepTokens w rows = .ok b

/-- What `/generate` checks about the prompt, with a positive `max_new_tokens`. -/
structure NewRequest.Valid (n : NewRequest) : Prop where
  prompt_pos : 1 ≤ n.promptTokenIds.length
  prompt_le : n.promptTokenIds.length ≤ 1023
  maxNew_pos : 1 ≤ n.maxNewTokens

/-- `max_new_tokens` once `Scheduler.submit` has capped it. -/
def NewRequest.capped (n : NewRequest) : Int :=
  min n.maxNewTokens (maxContext - n.promptTokenIds.length)

theorem NewRequest.Valid.capped_pos {n : NewRequest} (h : n.Valid) : 1 ≤ n.capped := by
  have h1 := h.prompt_le
  have h2 := h.maxNew_pos
  simp only [capped, maxContext]
  omega

end LlmServe
