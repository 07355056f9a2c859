import LlmServe.Engine.Connection
import LlmServe.Properties.LoopOrigin
import LlmServe.Properties.ResponseLines
import LlmServe.Theorems.FinishedState

/-!
# The server behind its connections

`HttpStep` lets the engine thread, the handlers and the clients go on in any order, line by line
where a handler can notice it. Whether the queue is full is left open. `Rooted` finds the point of
the engine under such a state, with every request that a handler asked for.
-/

namespace LlmServe

open Infra Point Relation

variable {σ : Type}

structure Http (σ : Type) where
  engine : LineThread σ
  conn : Ref → Connection
  obs : Observability

namespace Http

def request (v : Http σ) (r : Ref) : Request := v.engine.point.sched.heap r

def next (v : Http σ) : Ref := v.engine.point.sched.next

/-- The queue of a handler: `sink` puts into it what it is called with. -/
def events (v : Http σ) (r : Ref) : List SinkEvent := calls r v.engine.point.sched.trace

/-- The server, ready. -/
def start (cfg : EngineConfig) (m : Manager) (w : σ) : Http σ where
  engine := { point := rest (.init cfg m w) [] }
  conn _ := .absent
  obs := {}

/-- The handler of `r`, one line further. -/
def handle (tok : Tokenizer) (v : Http σ) (r : Ref) : Http σ :=
  let a := (v.conn r).advance tok (v.request r) (v.events r)
  { engine :=
      if a.2.1 ∧ r < v.next then
        { v.engine with point := { v.engine.point with sched := v.engine.point.sched.cancel r } }
      else v.engine
    conn := Function.update v.conn r a.1
    obs :=
      match a.2.2 with
      | some s => Connection.finish (v.request r) s v.obs
      | none => v.obs }

/-- The client of `r` goes away. -/
def disconnect (v : Http σ) (r : Ref) : Http σ :=
  { v with conn := Function.update v.conn r (v.conn r).disconnect }

/-- `Request(...)` and `loop.submit`. -/
def accept (v : Http σ) (n : NewRequest) (stream : Bool) : Http σ :=
  { v with
    engine := { v.engine with point := { v.engine.point with
      sched := v.engine.point.sched.create n.toRequest
      inbox := v.engine.point.inbox ++ [v.next] } }
    conn := Function.update v.conn v.next (.opened n stream) }

/-- `loop.submit` says no. -/
def reject (v : Http σ) : Http σ :=
  { v with
    engine := { v.engine with point := { v.engine.point with sched := { v.engine.point.sched with
      metrics := { v.engine.point.sched.metrics with
        rejected := v.engine.point.sched.metrics.rejected + 1 } } } }
    obs := v.obs.inc .rejected }

end Http

/-- What the checks of `generate` make of a body at this moment. -/
def Http.request? (encode : Text → List Token) (v : Http σ) (body : GenerateIn) (rid : String)
    (now : Time) : Except HttpException NewRequest :=
  body.toRequest encode v.engine.point.sched.manager rid now v.next

inductive HttpStep (encode : Text → List Token) (tok : Tokenizer) (env : Env σ)
    (cfg : EngineConfig) : Http σ → Http σ → Prop
  | engine (v : Http σ) (t : LineThread σ) (h : LineStep env cfg v.engine t) :
      HttpStep encode tok env cfg v { v with engine := t }
  /-- A body with a positive limit is let in. -/
  | accept (v : Http σ) (body : GenerateIn) (rid : String) (now : Time) (n : NewRequest)
      (hn : v.request? encode body rid now = .ok n) (hmax : 1 ≤ body.maxNewTokens) :
      HttpStep encode tok env cfg v (v.accept n body.stream)
  | reject (v : Http σ) (body : GenerateIn) (rid : String) (now : Time) (n : NewRequest)
      (hn : v.request? encode body rid now = .ok n) : HttpStep encode tok env cfg v v.reject
  | tooLarge (v : Http σ) (body : GenerateIn) (rid : String) (now : Time) (e : HttpException)
      (he : v.request? encode body rid now = .error e) (h413 : e.statusCode = 413) :
      HttpStep encode tok env cfg v { v with obs := v.obs.inc .tooLarge }
  | handle (v : Http σ) (r : Ref) : HttpStep encode tok env cfg v (v.handle tok r)
  | disconnect (v : Http σ) (r : Ref) : HttpStep encode tok env cfg v (v.disconnect r)

/-! ## The engine underneath -/

variable {encode : Text → List Token} {tok : Tokenizer} {env : Env σ} {cfg : EngineConfig}
  {m : Manager} {w : σ} {v v' : Http σ} {p : Point σ} {t t' : LineThread σ} {r : Ref}

theorem lineStep_next (h : LineStep env cfg t t') :
    t'.point.sched.next = t.point.sched.next := by
  cases h with
  | op p p' hop hsame => exact (stepOp_frame hop).next
  | sink p x tok now due hdue =>
    show (p.sched.callSink x tok).next = p.sched.next
    unfold Scheduler.callSink
    dsimp only
    split <;> rfl
  | submit | now | write | markReason | markTime => rfl

theorem Mid.count (h : Mid env t p) (met : EngineMetrics) :
    Mid env
      { t with point := { t.point with sched := { t.point.sched with metrics := met } } }
      { p with sched := { p.sched with metrics := met } } := by
  cases h with
  | whole => exact .whole _
  | emit _ x tok due pc hdue =>
    exact .emit { p with sched := { p.sched with metrics := met } } x tok due pc hdue
  | mark _ x hidle hx hc hopen =>
    exact .mark { p with sched := { p.sched with metrics := met } } x hidle hx hc hopen

/-- The trace shows what the sinks of the last point were called with. -/
theorem Mid.trace (h : Mid env t p) : t.point.sched.trace = p.sched.trace := by
  cases h <;> rfl

/-- Between two methods the engine is at the point. -/
theorem Mid.whole_eq (h : Mid env t p) (hline : t.line = none) : t.point = p := by
  cases h with
  | whole => rfl
  | emit | mark => cases hline

theorem Mid.metrics (h : Mid env t p) : t.point.sched.metrics = p.sched.metrics := by
  cases h <;> rfl

/-- What the checks let in, and what they make of it. -/
structure NewRequest.Posted (n : NewRequest) : Prop where
  valid : n.Valid
  sink : n.sink ≠ none
  live : n.cancelled = false

theorem toRequest_posted {body : GenerateIn} {mgr : Manager} {rid : String} {now : Time}
    {sink : Nat} {n : NewRequest} (h : body.toRequest encode mgr rid now sink = .ok n)
    (hmax : 1 ≤ body.maxNewTokens) : n.Posted := by
  obtain ⟨ids, hids, h⟩ := exists_of_bind_ok h
  split at h
  · cases h
  · next hlen =>
    obtain ⟨hpos, hlt⟩ := not_not.mp hlen
    split at h
    · cases h
    · cases h
      exact ⟨⟨hpos, Nat.le_of_lt_succ hlt, hmax⟩, nofun, rfl⟩

/-- The point under a state of the server. -/
structure Rooted (env : Env σ) (cfg : EngineConfig) (m : Manager) (w : σ) (v : Http σ)
    (p : Point σ) : Prop where
  reach : Reach env cfg (rest (.init cfg m w) []) p
  mid : Mid env v.engine p
  sourced : Sourced (fun r => (v.conn r).asked) p
  posted : ∀ r < p.sched.next, (v.conn r).asked.Posted

namespace Rooted

theorem good (hm : m.Fresh) (h : Rooted env cfg m w v p) : Good cfg m p :=
  (Good.init hm w).ops h.reach

theorem next (h : Rooted env cfg m w v p) : v.next = p.sched.next := mid_next h.mid

theorem events (h : Rooted env cfg m w v p) : v.events r = calls r p.sched.trace :=
  congrArg (calls r) h.mid.trace

/-- The engine goes on, the connections ask for what they asked for. -/
theorem goes (hm : m.Fresh) (h : Rooted env cfg m w v p) {p' : Point σ} (hops : Reach env cfg p p')
    (hmid : Mid env v'.engine p') (hnext : p'.sched.next = p.sched.next)
    (hasked : ∀ r, (v'.conn r).asked = (v.conn r).asked) : Rooted env cfg m w v' p' := by
  have hsrc : (fun r => (v'.conn r).asked) = fun r => (v.conn r).asked := funext hasked
  refine ⟨h.reach.trans hops, hmid, ?_, fun r hr => ?_⟩
  · rw [hsrc]
    exact h.sourced.ops (h.good hm) hops hnext
  · rw [hasked r]
    exact h.posted r (hnext ▸ hr)

end Rooted

theorem Connection.take_asked (c : Connection) (t : Token) (fin : Bool) :
    (c.take tok t fin).asked = c.asked := by
  unfold Connection.take
  dsimp only
  split <;> rfl

theorem Connection.respond_asked (c : Connection) (q : Request) :
    (c.respond tok q).asked = c.asked := by
  unfold Connection.respond
  split <;> rfl

/-- No line of a handler changes what it asked for. -/
theorem Connection.advance_asked (c : Connection) (q : Request) (events : List SinkEvent) :
    (c.advance tok q events).1.asked = c.asked := by
  unfold Connection.advance
  dsimp only
  split
  case h_3 =>
    split
    · exact Connection.take_asked ..
    · rfl
  case h_5 => split <;> rfl
  case h_9 => exact Connection.respond_asked ..
  all_goals rfl

theorem Connection.disconnect_asked (c : Connection) : c.disconnect.asked = c.asked := by
  unfold Connection.disconnect
  split <;> rfl

theorem Connection.disconnect_taken (c : Connection) :
    c.disconnect.handler.taken = c.handler.taken := by
  have hh : c.handler.disconnect.taken = c.handler.taken := by
    unfold Handler.disconnect
    split <;> rfl
  unfold Connection.disconnect
  split <;> first | rfl | exact hh

theorem Handler.advance_stream (q : Request) (events : List SinkEvent) (h : Handler) :
    (h.advance q events).1.stream = h.stream := by
  unfold Handler.advance
  cases h.pc with
  | reading =>
    dsimp only
    cases events[h.taken]? with
    | none => rfl
    | some e =>
      dsimp only
      split <;> rfl
  | closing final =>
    dsimp only
    split <;> rfl
  | doneLine | response | closed => rfl

theorem Handler.disconnect_stream (h : Handler) : h.disconnect.stream = h.stream := by
  unfold Handler.disconnect
  split <;> rfl

theorem Connection.advance_stream (c : Connection) (q : Request) (events : List SinkEvent) :
    (c.advance tok q events).1.handler.stream = c.handler.stream := by
  have hh := Handler.advance_stream q events c.handler
  unfold Connection.advance
  dsimp only
  split
  case h_3 =>
    split
    · exact hh
    · rfl
  case h_5 =>
    split
    · exact hh
    · rfl
  all_goals first | rfl | exact hh

theorem Connection.disconnect_stream (c : Connection) :
    c.disconnect.handler.stream = c.handler.stream := by
  have hh := Handler.disconnect_stream c.handler
  unfold Connection.disconnect
  split <;> first | rfl | exact hh

theorem asked_update {conn : Ref → Connection} {c : Connection} (h : c.asked = (conn r).asked)
    (x : Ref) : (Function.update conn r c x).asked = (conn x).asked := by
  by_cases hx : x = r
  · rw [hx, Function.update_self, h]
  · rw [Function.update_of_ne hx]

/-- **Under every step of the server the engine takes small steps.** -/
theorem rooted_step (hm : m.Fresh) (hstep : HttpStep encode tok env cfg v v')
    (h : Rooted env cfg m w v p) :
    ∃ p', Reach env cfg p p' ∧ Rooted env cfg m w v' p' := by
  cases hstep with
  | engine t hline =>
    obtain ⟨p', hops, hmid⟩ := mid_step h.mid hline
    have hnext : p'.sched.next = p.sched.next := by
      rw [← mid_next hmid, ← mid_next h.mid]
      exact lineStep_next hline
    exact ⟨p', hops, h.goes hm hops hmid hnext fun _ => rfl⟩
  | accept body rid now n hn hmax =>
    have hmid := mid_create (h.good hm) h.mid n
    refine ⟨_, .single (.create p n), h.reach.tail (.create p n), hmid, ?_, fun r hr => ?_⟩
    · have hsrc : (fun r => ((v.accept n body.stream).conn r).asked) =
          Function.update (fun r => (v.conn r).asked) p.sched.next n := by
        funext r
        by_cases hr : r = v.next
        · rw [← h.next, hr]
          simp [Http.accept]
        · rw [← h.next]
          simp [Http.accept, hr]
      rw [hsrc]
      exact h.sourced.create (h.good hm) n
    · by_cases hnew : r = v.next
      · rw [hnew]
        simpa [Http.accept] using toRequest_posted hn hmax
      · have hlt : r < p.sched.next := lt_of_le_of_ne (Nat.le_of_lt_succ hr) (h.next ▸ hnew)
        simpa [Http.accept, hnew] using h.posted r hlt
  | reject body rid now n hn =>
    have hcount := h.mid.count { v.engine.point.sched.metrics with
      rejected := v.engine.point.sched.metrics.rejected + 1 }
    have hops : Reach env cfg p { p with sched := { p.sched with
        metrics := { v.engine.point.sched.metrics with
          rejected := v.engine.point.sched.metrics.rejected + 1 } } } := by
      rw [h.mid.metrics]
      exact .single (.step (.count p _ _ (.line .rejected trivial)))
    exact ⟨_, hops, h.goes hm hops hcount rfl fun _ => rfl⟩
  | tooLarge body rid now e he h413 => exact ⟨p, .refl, h.goes hm .refl h.mid rfl fun _ => rfl⟩
  | handle x =>
    have hasked : ∀ r, ((v.handle tok x).conn r).asked = (v.conn r).asked :=
      asked_update (Connection.advance_asked ..)
    by_cases hc : ((v.conn x).advance tok (v.request x) (v.events x)).2.1 = true ∧ x < v.next
    · have hmid : Mid env (v.handle tok x).engine { p with sched := p.sched.cancel x } := by
        have he : (v.handle tok x).engine = _ := if_pos hc
        rw [he]
        exact mid_cancel h.mid
      have hops : Reach env cfg p { p with sched := p.sched.cancel x } :=
        .single (.cancel p x (h.next ▸ hc.2))
      exact ⟨_, hops, h.goes hm hops hmid rfl hasked⟩
    · have hmid : Mid env (v.handle tok x).engine p := by
        have he : (v.handle tok x).engine = _ := if_neg hc
        rw [he]
        exact h.mid
      exact ⟨p, .refl, h.goes hm .refl hmid rfl hasked⟩
  | disconnect x =>
    exact ⟨p, .refl, h.goes hm .refl h.mid rfl (asked_update (Connection.disconnect_asked _))⟩

theorem rooted_start : Rooted env cfg m w (.start cfg m w) (rest (.init cfg m w) []) :=
  ⟨.refl, .whole _, .init _ m w [], fun _ hr => absurd hr (Nat.not_lt_zero _)⟩

end LlmServe
