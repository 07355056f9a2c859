import LlmServe.Infra.Service
import LlmServe.Properties.FrontDoor
import LlmServe.Properties.ServerWorld

/-!
# The engine is a service of independent answers

`Point.service` forgets the queue, the batches, the blocks and the pool: what is left of a request
is what its client asked for, what it got, whether it left and whether it was given up. Under this
view a small step of the engine is a step of `Service`, where each answer is greedy decoding of one
prompt and no client sees another (`service_op`). So the whole server refines the service
(`server_refines_service`), and a client can rely on all that the service guarantees.
-/

namespace LlmServe

open Infra Point

variable {σ : Type} {env : Env σ} {cfg : EngineConfig} {adm : Point σ → Ref → Prop} {m : Manager}
  {next : List Token → Token} {p p' : Point σ} {r : Ref} {v v' : View}

/-! ## The abstract service -/

/-- What a client asked for, its limit capped by the context. -/
structure Ask where
  promptTokenIds : List Token
  maxNewTokens : Int
  ignoreEos : Bool
  sink : Bool

/-- Greedy decoding, up to the limit or the end token. -/
def greedy (next : List Token → Token) : Answering Token Ask where
  next := next
  start := Ask.promptTokenIds
  last a out := (Request.endReason a.maxNewTokens a.ignoreEos out).isSome
  heard := Ask.sink

/-! ## What the engine looks like -/

def Request.ask (q : Request) : Ask where
  promptTokenIds := q.promptTokenIds
  maxNewTokens := min q.maxNewTokens (maxContext - q.promptTokenIds.length)
  ignoreEos := q.ignoreEos
  sink := q.sink.isSome

def View.session (v : View) : Session Token Ask where
  ask := v.req.ask
  out := v.req.outputTokenIds
  left := v.req.cancelled
  closed := v.req.finished || decide (v.phase = .gone)

/-- The calls of sinks. -/
def sinks (l : List Event) : List (Ref × Token × Bool) :=
  l.filterMap fun
    | .sink r tok fin => some (r, tok, fin)
    | _ => none

theorem sinks_append (l l' : List Event) : sinks (l ++ l') = sinks l ++ sinks l' :=
  List.filterMap_append

def Point.service (p : Point σ) : Service Token Ask where
  count := p.sched.next
  session r := (p.view r).session
  log := sinks p.sched.trace

/-! ## One request -/

/-- A move that neither builds a request nor gives it a token. -/
theorem move_fades (hmv : Move cfg m r v v') (hout : v'.req.outputTokenIds = v.req.outputTokenIds)
    (habsent : v.phase = .absent → v'.phase = .absent) : v.session.Fades v'.session := by
  cases hmv with
  | stay => exact .refl _
  | cancel => exact ⟨rfl, rfl, fun _ => rfl, fun h => h, Or.inl⟩
  | create n hphase => cases habsent hphase
  | submit hphase =>
    refine ⟨?_, rfl, fun h => h, fun h => ?_, fun h => Or.inl ?_⟩
    · simp only [View.session, Request.ask, Request.submitted, min_assoc, min_self]
    · simpa [View.session, Request.submitted, Request.finished, hphase] using h
    · simpa [View.session, Request.submitted, Request.finished, hphase] using h
  | drop hphase hc => exact ⟨rfl, rfl, fun h => h, fun _ => by simp [View.session], fun _ => Or.inr hc⟩
  | abort now hphase hdue hc hopen =>
    exact ⟨rfl, rfl, fun h => h, fun _ => by simp [View.session, Request.finished],
      fun _ => Or.inr hc⟩
  | leave hphase hdue hfin =>
    have hclosed : v.session.closed = true := by
      simp [View.session, Request.finished_iff.mpr hfin]
    exact ⟨rfl, rfl, fun h => h, fun _ => by simp [View.session], fun _ => Or.inl hclosed⟩
  | emit now tok hdue =>
    rw [Request.emit_outputTokenIds] at hout
    exact absurd hout (by simp)
  | admitHead blocks seq hphase hlen | prefill hphase hdue | join hphase hdue
  | preempt hphase hdue hopen hpre =>
    refine ⟨rfl, rfl, fun h => h, fun h => ?_, fun h => Or.inl ?_⟩ <;>
      simpa [View.session, Request.finished, hphase] using h
  | setRunning hphase | grow blocks hphase hdue hopen hslot hlen | decode tok hphase hdue =>
    exact ⟨rfl, rfl, fun h => h, fun h => h, Or.inl⟩

/-! ## One small step -/

/-- A small step that neither builds a request nor emits a token. -/
structure Silent (p p' : Point σ) : Prop where
  next : p'.sched.next = p.sched.next
  output : ∀ r, (p'.sched.heap r).outputTokenIds = (p.sched.heap r).outputTokenIds
  sinks : sinks p'.sched.trace = sinks p.sched.trace

theorem Silent.of_update {q : Request} (hnext : p'.sched.next = p.sched.next)
    (hheap : p'.sched.heap = Function.update p.sched.heap r q)
    (hout : q.outputTokenIds = (p.sched.heap r).outputTokenIds)
    (htrace : p'.sched.trace = p.sched.trace) : Silent p p' where
  next := hnext
  output x := by
    rw [hheap]
    exact apply_update Request.outputTokenIds hout x
  sinks := congrArg LlmServe.sinks htrace

theorem Silent.of_stepTokens {rows : List Row} {nxt : List Token} {s' : Scheduler σ}
    (h : p.sched.stepTokens env rows = .ok (nxt, s')) (hsched : p'.sched = s') : Silent p p' := by
  obtain ⟨w, -, hs⟩ := Scheduler.stepTokens_ok h
  have hfed : LlmServe.sinks (rows.map Row.fed) = [] := by
    simp [LlmServe.sinks, Row.fed]
  rw [hs] at hsched
  refine ⟨by rw [hsched], fun r => by rw [hsched], ?_⟩
  rw [hsched, sinks_append, hfed, List.append_nil]

/-- **Every small step but two is silent.** -/
theorem op_silent (hop : Op env cfg adm p p') :
    (∃ n : NewRequest, p' =
        { p with sched := p.sched.create n.toRequest, inbox := p.inbox ++ [p.sched.next] }) ∨
      (∃ r tok due, p.due = (r, tok) :: due ∧
        p' = { p with sched := p.sched.emit env r tok, due }) ∨ Silent p p' := by
  have hstill : ∀ {x : Point σ}, x.sched.next = p.sched.next → x.sched.heap = p.sched.heap →
      x.sched.trace = p.sched.trace → Silent p x := fun hnext hheap htrace =>
    ⟨hnext, fun r => by rw [hheap], congrArg sinks htrace⟩
  cases hop with
  | create n => exact Or.inl ⟨n, rfl⟩
  | cancel r hr => exact Or.inr (Or.inr (.of_update rfl rfl rfl rfl))
  | submit pre post r hidle hin =>
    exact Or.inr (Or.inr (.of_update (r := r) (q := (p.sched.heap r).submitted) rfl rfl rfl rfl))
  | step hop =>
    cases hop with
    | emit r tok due hdue => exact Or.inr (Or.inl ⟨r, tok, due, hdue, rfl⟩)
    | dropCancelled | sort | join | clock | count => exact Or.inr (Or.inr (hstill rfl rfl rfl))
    | setRunning r hr => exact Or.inr (Or.inr (.of_update rfl rfl rfl rfl))
    | markCancelled r hidle hr =>
      rcases Scheduler.markCancelled_cases env p.sched r with he | ⟨-, -, -, now, ht⟩
      · exact Or.inr (Or.inr (hstill (congrArg Scheduler.next he) (congrArg Scheduler.heap he)
          (congrArg Scheduler.trace he)))
      · exact Or.inr (Or.inr (.of_update ht.next ht.heap rfl ht.trace))
    | leave s' pre post r hidle hr hfin hl =>
      obtain ⟨q, hfree, ht⟩ := Scheduler.leave_ok hl
      obtain ⟨rfl, -⟩ := Manager.free_ok hfree
      exact Or.inr (Or.inr (.of_update ht.next ht.heap rfl ht.trace))
    | admitHead s' r tail hbatch hdue hw hsorted hroom hcan hadm ha =>
      obtain ⟨q, hq⟩ := Scheduler.stampAdmit_admitted ha
      obtain ⟨blocks, rfl, -⟩ := Manager.allocate_ok hq.allocate
      exact Or.inr (Or.inr (.of_update hq.next hq.heap rfl hq.trace))
    | prefill s' batch rest nxt hbatch hdue hp h => exact Or.inr (Or.inr (.of_stepTokens h rfl))
    | decode s' batch rows nxt hidle hnd hrun hfin hcov hrows h =>
      exact Or.inr (Or.inr (.of_stepTokens h rfl))
    | grow r hidle hr hfin =>
      obtain ⟨blocks, hq, -⟩ := p.sched.manager.appendSlot_spec (p.sched.heap r)
      have ht := (p.sched.appendSlot_touches r).2
      exact Or.inr (Or.inr (.of_update ht.next ht.heap (by rw [hq]) ht.trace))
    | preempt s' r hidle hr hfin hpre hp =>
      obtain ⟨q, hq⟩ := Scheduler.preempt_ok hp
      obtain ⟨rfl, -⟩ := Manager.free_ok hq.free
      exact Or.inr (Or.inr (.of_update hq.next hq.heap rfl hq.trace))

/-- Limits within the context are the limits clients are told. -/
theorem InContext.ask (h : InContext p) (hr : p.Submitted r) :
    (p.sched.heap r).ask.maxNewTokens = (p.sched.heap r).maxNewTokens := by
  obtain ⟨-, -, hcap⟩ := h r hr
  exact min_eq_left (by omega)

/-- Whoever gets a token is open. -/
theorem Good.session_open (h : Good cfg m p) (hdue : r ∈ p.dueRefs) :
    (p.view r).session.closed = false := by
  have hd : (p.view r).due = true := decide_eq_true hdue
  have hopen := (h.facts r).ending.due_open hd
  have hphase : (p.view r).phase ≠ .gone := by
    rcases (h.facts r).ending.due_phase hd with hp | hp <;> simp [hp]
  simp [View.session, Request.not_finished_iff.mpr hopen, hphase]

theorem session_congr {x : Ref} (hphase : p'.phase x = p.phase x)
    (hheap : p'.sched.heap x = p.sched.heap x) : (p'.view x).session = (p.view x).session := by
  unfold View.session view
  rw [hheap, hphase]

theorem session_create (p : Point σ) (n : NewRequest) (x : Ref) :
    (({ p with sched := p.sched.create n.toRequest, inbox := p.inbox ++ [p.sched.next] } :
        Point σ).view x).session =
      Function.update (fun r => (p.view r).session) p.sched.next
        { ask := n.toRequest.ask, left := n.cancelled } x := by
  by_cases hx : x = p.sched.next
  · subst hx
    have hphase : ({ p with sched := p.sched.create n.toRequest,
                            inbox := p.inbox ++ [p.sched.next] } : Point σ).phase p.sched.next
        = .inbox := phase_inbox (by simp)
    have hheap : (p.sched.create n.toRequest).heap p.sched.next = n.toRequest :=
      Function.update_self ..
    unfold View.session view
    rw [hphase, Function.update_self]
    dsimp only
    rw [hheap]
    rfl
  · rw [Function.update_of_ne hx]
    refine session_congr (phase_congr (by simp [hx]) Iff.rfl Iff.rfl Iff.rfl Iff.rfl ?_)
      (Function.update_of_ne hx ..)
    show x < p.sched.next + 1 ↔ x < p.sched.next
    exact ⟨fun hlt => Nat.lt_of_le_of_ne (Nat.le_of_lt_succ hlt) hx, Nat.lt_succ_of_lt⟩

/-- `_emit` gives the request of the due token its next element. -/
theorem service_emit (hgood : Good cfg m p) (hfol : Follows next p) (hctx : InContext p)
    {tok : Token} {due : List (Ref × Token)} (hdue : p.due = (r, tok) :: due) :
    ({ p with sched := p.sched.emit env r tok, due } : Point σ).service
      = p.service.deliver (greedy next) r := by
  have hmem : r ∈ p.dueRefs := by simp [Point.dueRefs, hdue]
  have hsub : p.Submitted r :=
    hgood.submitted_of_mem (Or.inr (hgood.placed.due_mem_held hmem))
  have hopen := (hgood.facts r).ending.due_open (decide_eq_true hmem)
  have helement : Service.element (greedy next) (p.view r).session = tok :=
    (hfol.due (r, tok) (hdue ▸ List.mem_cons_self)).symm
  obtain ⟨now, he⟩ := Scheduler.emit_ok env p.sched r tok
  have hphase : ∀ x, ({ p with sched := p.sched.emit env r tok, due } : Point σ).phase x
      = p.phase x := fun x => by
    unfold phase
    simp only [he.waiting, he.running, he.next]
  -- whether this token is the last
  have hlast : (greedy next).last (p.sched.heap r).ask
      ((p.sched.heap r).outputTokenIds ++ [tok]) = ((p.sched.heap r).emit now tok).finished := by
    have hfin := Request.emit_finishReason now tok (p.sched.heap r) hopen
    show (Request.endReason (p.sched.heap r).ask.maxNewTokens _ _).isSome = Option.isSome _
    rw [hctx.ask hsub, hfin]
    rfl
  have hcell : (p.sched.emit env r tok).heap r = (p.sched.heap r).emit now tok := by
    rw [he.heap, Function.update_self]
  have hgone : decide (p.phase r = .gone) = false :=
    (Bool.or_eq_false_iff.mp (hgood.session_open hmem)).2
  have hsession : ∀ x, (({ p with sched := p.sched.emit env r tok, due } : Point σ).view x).session
      = Function.update (fun r => (p.view r).session) r { (p.view r).session with
          out := (p.sched.heap r).outputTokenIds ++ [tok]
          closed := ((p.sched.heap r).emit now tok).finished } x := fun x => by
    by_cases hx : x = r
    · subst hx
      rw [Function.update_self]
      unfold View.session view
      dsimp only
      rw [hphase, hgone, hcell, Bool.or_false]
      simp only [Request.ask, Request.emit_promptTokenIds, Request.emit_maxNewTokens,
        Request.emit_ignoreEos, Request.emit_sink, Request.emit_outputTokenIds,
        Request.emit_cancelled]
    · rw [Function.update_of_ne hx]
      refine session_congr (hphase x) ?_
      show (p.sched.emit env r tok).heap x = _
      rw [he.heap, Function.update_of_ne hx]
  have hlog : sinks (p.sched.emit env r tok).trace = sinks p.sched.trace ++
      if (greedy next).heard (p.sched.heap r).ask then
        [(r, tok, ((p.sched.heap r).emit now tok).finished)] else [] := by
    rw [he.trace, sinks_append, sinks_append, Request.emit_sink, List.append_assoc]
    congr 1
    show sinks (if (p.sched.heap r).sink.isSome = true then _ else _) ++ _ = _
    show _ = if (p.sched.heap r).sink.isSome = true then _ else _
    split <;> rfl
  unfold Service.deliver
  dsimp only
  rw [show p.service.session r = (p.view r).session from rfl, helement]
  unfold Point.service
  dsimp only
  rw [show (p.view r).session.ask = (p.sched.heap r).ask from rfl,
    show (p.view r).session.out = (p.sched.heap r).outputTokenIds from rfl, hlast, hlog, he.next]
  congr 1
  exact funext hsession

/-- **A small step of the engine is a step of the service.** -/
theorem service_op (hop : Op env cfg adm p p') (hgood : Good cfg m p) (hfol : Follows next p)
    (hctx : InContext p) : Service.Step (greedy next) p.service p'.service := by
  rcases op_silent hop with ⟨n, rfl⟩ | ⟨r, tok, due, hdue, rfl⟩ | hsilent
  · have hstep := Service.Step.open (A := greedy next) p.service n.toRequest.ask n.cancelled
    convert hstep using 1
    unfold Point.service
    congr 1
    exact funext (session_create p n)
  · have hmem : r ∈ p.dueRefs := by simp [Point.dueRefs, hdue]
    have hsub : p.Submitted r :=
      hgood.submitted_of_mem (Or.inr (hgood.placed.due_mem_held hmem))
    rw [service_emit hgood hfol hctx hdue]
    exact .deliver p.service r hsub.1 (hgood.session_open hmem)
  · have hfade : ∀ r, (p.service.session r).Fades (p'.service.session r) := fun r => by
      have hmove := op_move hop hgood.placed hgood.shape r
      refine move_fades hmove (hsilent.output r) fun ha => ?_
      have hlt : ¬r < p.sched.next := by
        have hmem := mem_of_phase p r
        rwa [show p.phase r = .absent from ha] at hmem
      exact phase_absent (hgood.op hop).placed (by rwa [hsilent.next])
    have hstep := Service.Step.fade (A := greedy next) p.service p'.service.session hfade
    have heq : p'.service = { p.service with session := p'.service.session } := by
      unfold Point.service
      rw [hsilent.next, hsilent.sinks]
    rw [heq]
    exact hstep

/-! ## Runs of the server -/

variable {Hidden K V κ : Type} {M : Transformer Hidden K V} {clock : κ → Time × κ}
  {w : RunnerState κ K V} {encode : Text → List Token} {acts acts' : List ServerAction}

theorem service_reach (hm : m.Fresh) (hpool : w.pool.layout = m.layout)
    {p p' : Point (RunnerState κ K V)}
    (hreach : Reach (Env.ofModel M clock) cfg (rest (.init cfg m w) []) p)
    (hops : Reach (Env.ofModel M clock) cfg p p') (hctx : InContext p') :
    Service.Steps (greedy M.next) p.service p'.service := by
  induction hops with
  | refl => exact .refl
  | @tail x y hops hop ih =>
    have hgood := Good.ops (.init hm w) (hreach.trans hops)
    have hback := hctx.back hgood (.single hop)
    have hfol := (computed_ops hm hpool hback (hreach.trans hops)).2.2
    exact (ih hback).tail (service_op hop hgood hfol hback)

/--
**The server refines a service of independent answers.** Whatever clients post with a positive
limit, however they disconnect and however the engine batches, evicts, recomputes and pages: seen
from outside, what happens between any two moments are steps of the service in which each answer is
greedy decoding of one prompt alone. So at any moment every client has got the beginning of its own
answer, has been called once for each token of it with the right flag, and has not been cut short
unless it left.
-/
theorem server_refines_service (hm : m.Fresh) (hpool : w.pool.layout = m.layout)
    (hmax : ∀ b ∈ posts (acts ++ acts'), 1 ≤ b.1.maxNewTokens)
    {l l' : EngineLoop (RunnerState κ K V)}
    (hrun : run (EngineLoop.serve encode (Env.ofRunner M clock) cfg) (.init cfg m w) acts = .ok l)
    (hrun' : run (EngineLoop.serve encode (Env.ofRunner M clock) cfg) l acts' = .ok l') :
    Service.Steps (greedy M.next) l.point.service l'.point.service ∧
      ∀ r, Service.Sound (greedy M.next) (l'.point.service.session r)
        (Service.callsOf r l'.point.service.log) := by
  have hall : run (EngineLoop.serve encode (Env.ofRunner M clock) cfg) (.init cfg m w)
      (acts ++ acts') = .ok l' := by
    rw [run_append, hrun]
    exact hrun'
  obtain ⟨src, hsourced, hasked⟩ := serve_sourced hm hall
  have hctx := hsourced.inContext fun r hr => ((hasked r hr).servable hmax).valid
  have hstart : Good cfg m (EngineLoop.point (.init cfg m w)) := .init hm w
  have hreach := serveRun_reach hstart hrun
  have hops := serveRun_reach (hstart.ops hreach) hrun'
  have hreach' := reach_of_withLookup hreach
  have hops' := reach_of_withLookup hops
  refine ⟨service_reach hm hpool hreach' hops' hctx, ?_⟩
  refine Service.sound (service_reach hm hpool .refl (hreach'.trans hops') hctx) (fun r => ?_)
    fun _ _ => rfl
  exact .fresh Request.blank.ask false

/-- Two clients in a pool too small for both, one of whom leaves. -/
theorem server_refines_service_crowded :
    ∃ l l', run (EngineLoop.serve (fun _ => []) (Env.ofRunner tiny tinyClock) { preemption := true })
        (.init { preemption := true } (.block (.new 4 1 Nat.one_pos false))
          (tinyWorld (.block (.new 4 1 Nat.one_pos false))))
        [.generate { promptTokenIds := some [1], maxNewTokens := 3 } "a" 0,
          .generate { promptTokenIds := some [2], maxNewTokens := 3 } "b" 0, .advance, .advance,
          .advance, .advance, .advance, .advance, .advance] = .ok l ∧
      run (EngineLoop.serve (fun _ => []) (Env.ofRunner tiny tinyClock) { preemption := true }) l
        [.cancel 1, .advance, .advance, .advance, .advance, .advance] = .ok l' ∧
      Service.Steps (greedy tiny.next) l.point.service l'.point.service := by
  have hrun : ∃ l,
      run (EngineLoop.serve (fun _ => []) (Env.ofRunner tiny tinyClock) { preemption := true })
        (.init { preemption := true } (.block (.new 4 1 Nat.one_pos false))
          (tinyWorld (.block (.new 4 1 Nat.one_pos false))))
        [.generate { promptTokenIds := some [1], maxNewTokens := 3 } "a" 0,
          .generate { promptTokenIds := some [2], maxNewTokens := 3 } "b" 0, .advance, .advance,
          .advance, .advance, .advance, .advance, .advance] = .ok l ∧
      (run (EngineLoop.serve (fun _ => []) (Env.ofRunner tiny tinyClock) { preemption := true }) l
        [.cancel 1, .advance, .advance, .advance, .advance, .advance]).isOk = true := by
    decide +kernel
  obtain ⟨l, hl, hok⟩ := hrun
  obtain ⟨l', hl', -⟩ := exists_ok_and hok fun _ _ => trivial
  have hpool : (tinyWorld (.block (.new 4 1 Nat.one_pos false))).pool.layout =
      (Manager.block (.new 4 1 Nat.one_pos false)).layout := rfl
  exact ⟨l, l', hl, hl',
    (server_refines_service (Manager.fresh_block_new ..) hpool (by decide) hl hl').1⟩

end LlmServe
