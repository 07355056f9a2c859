import LlmServe.Properties.NaiveService
import LlmServe.Spec.EmitLines
import LlmServe.Theorems.NaiveBackend

/-!
# A final event and the fields it announces

`_emit` of the batched scheduler writes every field before it calls the sink, so whoever takes a
final event finds the request completed. The naive scheduler calls the sink from inside `run` and
writes `finish_time` and `finish_reason` afterwards: its request is completed once it is no longer in
service.
-/

namespace LlmServe

open Infra Point Relation

variable {σ τ : Type} {env : Env σ} {cfg : EngineConfig} {m : Manager} {w : σ} {p : Point σ}
  {t : LineThread σ} {r : Ref} {runner : Runner τ} {w' : τ}

/-! ## The batched engines -/

/-- A final call is the last one, so the tokens end the request. -/
theorem TokenStream.ended {v : View} (h : TokenStream r v) {tok : Token}
    (hfinal : (tok, true) ∈ calls r v.log) :
    Request.endReason v.req.maxNewTokens v.req.ignoreEos v.req.outputTokenIds ≠ none := by
  intro hopen
  cases h.no_final hopen _ hfinal

theorem Good.completed_of_final (hgood : Good cfg m p) {tok : Token}
    (hfinal : (tok, true) ∈ calls r p.sched.trace) : (p.sched.heap r).Completed := by
  have hend := (hgood.facts r).ending
  have hstream := hgood.stream r
  have hlog : (tok, true) ∈ calls r (p.view r).log := by
    show _ ∈ calls r (Point.log p.sched r)
    rw [Point.log, calls_filter]
    exact hfinal
  have hreason : (p.sched.heap r).finishReason ≠ none := fun hnone =>
    hstream.ended hlog (hend.prefix_open hnone _ (List.prefix_refl _))
  have hsink : (p.view r).req.sink ≠ none := fun hno => by
    rw [hstream.silent hno] at hlog
    cases hlog
  have hout : (p.view r).req.outputTokenIds ≠ [] := fun hnil => by
    have htoks := hstream.tokens hsink
    rw [hnil, List.map_eq_nil_iff] at htoks
    rw [htoks] at hlog
    cases hlog
  exact ⟨hend.firstTokenTime hout, hend.finishTime hreason, hreason⟩

/-- **At every line of the batched engine.** -/
theorem Mid.completed_of_final (hmid : Mid env t p) (hgood : Good cfg m p) {tok : Token}
    (hfinal : (tok, true) ∈ calls r t.point.sched.trace) : (t.point.sched.heap r).Completed := by
  -- no line before the sink has shown anything yet
  have htrace : t.point.sched.trace = p.sched.trace := by cases hmid <;> rfl
  have hbase : (p.sched.heap r).Completed := hgood.completed_of_final (htrace ▸ hfinal)
  cases hmid with
  | whole => exact hbase
  | emit _ x tok' due pc hdue => exact completed_update rfl (pc.written_completed _ _) hbase
  | mark _ x hidle hx hc hopen =>
    refine completed_update rfl ?_ hbase
    intro hx
    exact absurd (Request.not_finished_iff.mp hopen) hx.finishReason

/-- A line of the batched engine unsets nothing. -/
theorem lineStep_completed {t' : LineThread σ} (hstep : LineStep env cfg t t')
    (h : (t.point.sched.heap r).Completed) : (t'.point.sched.heap r).Completed := by
  cases hstep with
  | op p p' hop hsame => exact h.same (hsame r)
  | submit p pre post x hidle hin =>
    refine completed_update rfl ?_ h
    intro hq
    exact ⟨hq.firstTokenTime, hq.finishTime, hq.finishReason⟩
  | now p x tok due hdue => exact h
  | write p x tok now pc hpc => exact completed_update rfl (pc.write_completed _ _) h
  | sink p x tok now due hdue =>
    show ((p.sched.callSink x tok).heap r).Completed
    unfold Scheduler.callSink
    dsimp only
    split <;> exact h
  | markReason p x hidle hx hc hopen =>
    refine completed_update rfl ?_ h
    intro hq
    exact ⟨hq.firstTokenTime, hq.finishTime, by simp⟩
  | markTime p x =>
    refine completed_update rfl ?_ h
    intro hq
    exact ⟨hq.firstTokenTime, by simp, hq.finishReason⟩

/-- The points that the lines come from are those of a run. -/
def FromStart (env : Env σ) (cfg : EngineConfig) (m : Manager) (w : σ) (t : LineThread σ) : Prop :=
  ∃ p, Reach env cfg (rest (.init cfg m w) []) p ∧ Mid env t p

theorem lasting_batched (hm : m.Fresh) :
    (batchedThread env cfg).Lasting (FromStart env cfg m w) where
  step := by
    rintro t t' ⟨p, hp, hmid⟩ hstep
    obtain ⟨p', hp', hmid'⟩ := mid_step hmid hstep
    exact ⟨⟨p', hp.trans hp', hmid'⟩, fun r => lineStep_completed hstep⟩
  create := by
    rintro t n ⟨p, hp, hmid⟩
    have hgood := (Good.init hm w).ops hp
    refine ⟨⟨_, hp.tail (.create p n), mid_create hgood hmid n⟩, fun r hr hq => ?_⟩
    have hother : ((batchedThread env cfg).create n t).point.sched.heap r = t.point.sched.heap r :=
      Function.update_of_ne hr ..
    show (((batchedThread env cfg).create n t).point.sched.heap r).Completed
    rw [hother]
    exact hq
  cancel := by
    rintro t x ⟨p, hp, hmid⟩
    by_cases hx : x < t.point.sched.next
    · have hcancel : (batchedThread env cfg).cancel x t =
          { t with point := { t.point with sched := t.point.sched.cancel x } } := if_pos hx
      rw [hcancel]
      refine ⟨⟨_, hp.tail (.cancel p x (mid_next hmid ▸ hx)), mid_cancel hmid⟩, fun r hq => ?_⟩
      refine completed_update rfl ?_ hq
      intro hx
      exact ⟨hx.firstTokenTime, hx.finishTime, hx.finishReason⟩
    · rw [show (batchedThread env cfg).cancel x t = t from if_neg hx]
      exact ⟨⟨p, hp, hmid⟩, fun r hq => hq⟩

/-- A server that starts without requests. -/
def startBatched (cfg : EngineConfig) (m : Manager) (w : σ) : Server (LineThread σ) :=
  .start { point := rest (.init cfg m w) [] }

theorem FromStart.atFinal (hm : m.Fresh) {v : Server (LineThread σ)}
    (h : FromStart env cfg m w v.engine) (hat : v.AtFinal (batchedThread env cfg) r) :
    (v.engine.point.sched.heap r).Completed := by
  obtain ⟨p, hp, hmid⟩ := h
  obtain ⟨-, tok, hev⟩ := hat
  exact hmid.completed_of_final ((Good.init hm w).ops hp) (List.mem_of_getElem? hev)

/-- A handler of a server that has just started. -/
theorem start_good {S : Type} (t : S) (q : Request) (r : Ref) :
    ((Server.start t).handler r).Good q :=
  ⟨by simp [Server.start, Handler.none], by simp [Server.start, Handler.none]⟩

theorem batched_good (hm : m.Fresh) {v : Server (LineThread σ)}
    (hv : ReflTransGen (ServerStep (batchedThread env cfg)) (startBatched cfg m w) v) :
    FromStart env cfg m w v.engine ∧
      ∀ r, (v.handler r).Good (v.engine.point.sched.heap r) := by
  induction hv with
  | refl => exact ⟨⟨_, .refl, .whole _⟩, fun r => start_good _ _ r⟩
  | tail _ hstep ih =>
    refine ⟨(lasting_batched hm).server hstep ih.1, ?_⟩
    refine good_step (lasting_batched hm) hstep ih.1 ?_ ih.2
    intro r htakes
    exact ih.1.atFinal hm htakes.1

/-! ## The naive engine -/

/-- A server that starts without requests. -/
def startNaive (w' : τ) : Server (NaiveThread τ) := .start (.init w')

/-- No handler takes a final event while the engine thread serves its request. -/
def FinalAfterService (runner : Runner τ) (v v' : Server (NaiveThread τ)) : Prop :=
  ∀ r, TakesFinal (naiveThread runner) v v' r → r ∉ v.engine.serving

theorem naive_dated {v : Server (NaiveThread τ)}
    (hv : ReflTransGen (ServerStep (naiveThread runner)) (startNaive w') v) :
    v.engine.AllDated ∧ ReadersLive v := by
  induction hv with
  | refl => exact ⟨NaiveThread.allDated_init w', fun r hpc => by cases hpc⟩
  | tail _ hstep ih => exact ⟨lasting_naive.server hstep ih.1, reading_step ih.2 hstep⟩

/-- **A final event says that the service is over, or nothing.** -/
theorem naive_completed_iff {v : Server (NaiveThread τ)} (h : v.engine.AllDated) (hread : ReadersLive v)
    (hat : v.AtFinal (naiveThread runner) r) :
    (v.engine.sched.heap r).Completed ↔ r ∉ v.engine.serving := by
  obtain ⟨hpc, tok, hev⟩ := hat
  constructor
  · intro hq hin
    rcases h.placed.opens r (List.mem_append_right _ hin) with hopen | ⟨-, hcan⟩
    · exact hq.finishReason hopen
    · -- the reason is written before the last line only if the client has left
      cases (hread r hpc).symm.trans ((h.dated r).reason hcan)
  · intro hout
    have hne : calls r v.engine.sched.trace ≠ [] := List.ne_nil_of_mem (List.mem_of_getElem? hev)
    exact ((h.dated r).shown hne).2.resolve_left hout

theorem naive_good {v : Server (NaiveThread τ)}
    (hv : ReflTransGen (fun x y => ServerStep (naiveThread runner) x y ∧
      FinalAfterService runner x y) (startNaive w') v) :
    ∀ r, (v.handler r).Good (v.engine.sched.heap r) := by
  induction hv with
  | refl => exact fun r => start_good _ _ r
  | tail hrun hstep ih =>
    have hplain := ReflTransGen.mono (fun _ _ => And.left) _ _ hrun
    obtain ⟨hdated, hread⟩ := naive_dated hplain
    refine good_step lasting_naive hstep.1 hdated ?_ ih
    intro r htakes
    exact (naive_completed_iff hdated hread htakes.1).mpr (hstep.2 r htakes)

/-! ## Both -/

/-- **A final event and the fields it announces.** -/
theorem finished_event_after_state (hm : m.Fresh) :
    (∀ v, ReflTransGen (ServerStep (batchedThread env cfg)) (startBatched cfg m w) v →
      (∀ r, v.AtFinal (batchedThread env cfg) r → (v.engine.point.sched.heap r).Completed) ∧
      ∀ r, ∀ report ∈ (v.handler r).reports, report.Good) ∧
    (∀ v, ReflTransGen (ServerStep (naiveThread runner)) (startNaive w') v →
      ∀ r, v.AtFinal (naiveThread runner) r →
        ((v.engine.sched.heap r).Completed ↔ r ∉ v.engine.serving)) ∧
    ∀ v, ReflTransGen (fun x y => ServerStep (naiveThread runner) x y ∧
        FinalAfterService runner x y) (startNaive w') v →
      ∀ r, ∀ report ∈ (v.handler r).reports, report.Good := by
  refine ⟨fun v hv => ?_, fun v hv r hat => ?_, fun v hv r => (naive_good hv r).reports⟩
  · obtain ⟨hstart, hgood⟩ := batched_good hm hv
    exact ⟨fun r hat => hstart.atFinal hm hat, fun r => (hgood r).reports⟩
  · obtain ⟨hdated, hread⟩ := naive_dated hv
    exact naive_completed_iff hdated hread hat

/-! ## The first token is the last -/

/-- The naive engine between `on_token` and `req.finish_time = ...`, on a request of one token. -/
def lateThread : NaiveThread Time :=
  let t := (naiveThread countingRunner).create
    { requestId := "a", promptTokenIds := [7], maxNewTokens := 1, sink := some 0 } (.init 0)
  ((t.submit.enter.loop countingRunner 0).stamp countingRunner 0 1).callback 0 1

def lateServer (stream : Bool) : Server (NaiveThread Time) :=
  { engine := lateThread, handler := Function.update (fun _ => .none) 0 { stream } }

theorem lateServer_reached (stream : Bool) :
    ReflTransGen (ServerStep (naiveThread countingRunner)) (startNaive 0) (lateServer stream) := by
  have hline : ∀ {t t' : NaiveThread Time} {hd : Ref → Handler},
      ReflTransGen (ServerStep (naiveThread countingRunner)) (startNaive 0) ⟨t, hd⟩ →
      (naiveThread countingRunner).step t t' →
      ReflTransGen (ServerStep (naiveThread countingRunner)) (startNaive 0) ⟨t', hd⟩ :=
    fun h hstep => h.tail (.engine _ _ hstep)
  have hcreate := ReflTransGen.single (ServerStep.create (E := naiveThread countingRunner)
    (startNaive 0)
    { requestId := "a", promptTokenIds := [7], maxNewTokens := 1, sink := some 0 } stream rfl)
  have hentered := hline (hline hcreate (Or.inl rfl)) (Or.inr rfl)
  exact hline (hline (hline hentered (Or.inr rfl)) (Or.inr rfl)) (Or.inr rfl)

theorem lateServer_atFinal (stream : Bool) :
    (lateServer stream).AtFinal (naiveThread countingRunner) 0 :=
  ⟨rfl, 1, rfl⟩

theorem finished_event_after_state_late :
    ¬((lateServer true).engine.sched.heap 0).Completed := by
  have hboth := @finished_event_after_state _ _ (Env.ofNext fun toks => toks.length) {}
    (.slot (.new 1)) .start countingRunner 0 (Manager.fresh_slot_new 1)
  have hiff := hboth.2.1 (lateServer true) (lateServer_reached true) 0 (lateServer_atFinal true)
  exact fun hq => hiff.mp hq (List.mem_singleton_self 0)

/-- **A final event that is taken at once.** -/
theorem final_event_before_state :
    (∃ v v' : Server (NaiveThread Time),
      ReflTransGen (ServerStep (naiveThread countingRunner)) (startNaive 0) v ∧
      v.AtFinal (naiveThread countingRunner) 0 ∧
      (v.engine.sched.heap 0).finishTime = none ∧ (v.engine.sched.heap 0).finishReason = none ∧
      ReflTransGen (ServerStep (naiveThread countingRunner)) v v' ∧
      (v'.handler 0).reports = [.doneLine none, .cancelled true]) ∧
    ∃ v : Server (NaiveThread Time),
      ReflTransGen (ServerStep (naiveThread countingRunner)) (startNaive 0) v ∧
      (v.handler 0).reports = [.cancelled true, .response none (some 0) none] := by
  have hthree : ∀ v : Server (NaiveThread Time),
      ReflTransGen (ServerStep (naiveThread countingRunner)) v
        (((v.handle (naiveThread countingRunner) 0).handle (naiveThread countingRunner) 0).handle
          (naiveThread countingRunner) 0) := fun v =>
    .tail (.tail (.single (.handle v 0)) (.handle _ 0)) (.handle _ 0)
  refine ⟨⟨_, _, lateServer_reached true, lateServer_atFinal true, rfl, rfl, hthree _, ?_⟩,
    _, (lateServer_reached false).trans (hthree _), ?_⟩
  · rfl
  · rfl

end LlmServe
