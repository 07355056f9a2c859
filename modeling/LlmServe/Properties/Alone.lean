import LlmServe.Properties.Batches
import LlmServe.Properties.Context
import LlmServe.Properties.Progress
import LlmServe.Spec.ForwardPass

/-!
# One request alone on the engine

`Alone` describes the engine while it serves nothing but one request that ignores EOS. A step gives
it a token (`alone_step`), as long as the pool covers what is stored by then: everything but the
newest token. Conversely nobody gets a token that the pool had no room to store the one before
(`oldTokensFit`).
-/

namespace LlmServe

open Infra Point

variable {σ : Type} {env : Env σ} {cfg : EngineConfig} {adm : Point σ → Ref → Prop} {m : Manager}
  {p p' : Point σ} {w : σ} {s s' : Scheduler σ}

/-! ## What is stored fits the pool -/

/-- All tokens of a served request but the newest fit into the pool. -/
def OldTokensFit (m : Manager) (p : Point σ) : Prop :=
  ∀ r, (p.sched.heap r).outputTokenIds ≠ [] → m.unitsNeeded ((p.sched.heap r).seqLen - 1) ≤ m.units

theorem oldTokensFit_op (h : Good cfg m p) (hop : Op env cfg adm p p') (hst : OldTokensFit m p) :
    OldTokensFit m p' := by
  intro r hout
  rcases op_pass_or_quiet hop h with ⟨batch, rows, nxt, hpass⟩ | hquiet
  · -- a forward pass writes into no request
    rw [hpass.heap] at hout ⊢
    exact hst r hout
  rcases hquiet.due with hdue | ⟨x, tok, now, hdue, hheap⟩
  · have hsame := hquiet.output hdue r
    rw [hsame] at hout
    by_cases hr : r < p.sched.next
    · have hlen : (p'.sched.heap r).seqLen = (p.sched.heap r).seqLen := by
        rw [Request.seqLen, Request.seqLen, hsame, hquiet.prompt r hr]
      rw [hlen]
      exact hst r hout
    · -- no object yet
      exact absurd ((h.facts r).ending.unsubmitted (Or.inl (phase_absent h.placed hr))) hout
  · by_cases hr : r = x
    · -- its table covers what it had, which is all but the token it gets
      subst hr
      have hduer : (p.view r).due = true := by simp [view, Point.dueRefs, hdue]
      have hheld : r ∈ p.held :=
        mem_held_of_holds (Or.inr ((h.facts r).table.due_phase hduer))
      have hcov : m.unitsNeeded (p.sched.heap r).seqLen ≤ (p.sched.heap r).blockTable.length :=
        (h.facts r).table.due hduer
      have hle := h.table_le_units hheld
      rw [hheap, Function.update_self, Request.emit_seqLen]
      push_cast
      rw [add_sub_cancel_right]
      omega
    · rw [hheap, Function.update_of_ne hr] at hout ⊢
      exact hst r hout

theorem oldTokensFit (hm : m.Fresh) (hreach : Ops env cfg adm (rest (.init cfg m w) []) p) :
    OldTokensFit m p := by
  have hstep : ∀ x y, Op env cfg adm x y → Good cfg m x ∧ OldTokensFit m x →
      Good cfg m y ∧ OldTokensFit m y :=
    fun _ _ hop ⟨hgood, hst⟩ => ⟨hgood.op hop, oldTokensFit_op hgood hop hst⟩
  have hstart : OldTokensFit m (rest (.init cfg m w : Scheduler σ) []) := fun _ hout => absurd rfl hout
  exact (reach_invariant hstep hreach ⟨.init hm w, hstart⟩).2

/-! ## No step raises -/

/-- With optimistic admission and preemption a step returns, if the forward pass answers. -/
theorem step_isOk_of_preemption {acts : List Action} (hm : m.Fresh) (hpre : cfg.preemption = true)
    (hres : m.reserves = false) (henv : env.Answers)
    (hrun : run (Scheduler.act env cfg) (.init cfg m w) acts = .ok s)
    (hvalid : ∀ n ∈ submitted acts, n.Valid) : ∃ s', s.step env cfg = .ok s' := by
  have hgood := run_good hm hrun
  cases hs : s.step env cfg with
  | ok s' => exact ⟨s', rfl⟩
  | error e =>
    have hout := step_outcome env s [] hgood.placed (stepKeeps_true env cfg [] s)
    rw [hs] at hout
    obtain ⟨p, hops, hfault⟩ := hout
    have hp : Good cfg m p := hgood.ops (ops_of_stepOps hops)
    have hinside : Inside env cfg s p := .of_stepOps hops
    rcases fault_cases hp (hinside.positive hm hrun hvalid) (fun h => by simp [hres] at h)
      hfault with ⟨w, rows, he, hrows⟩ | ⟨hoff, -⟩
    · have hwithin : ∀ row ∈ rows,
          row.tokens ≠ [] ∧ row.start + row.tokens.length ≤ maxContext := by
        intro row hrow
        obtain ⟨r, hr, hend, hnil⟩ := hrows row hrow
        have hlt : r < p.sched.next := hp.placed.lt_next r (mem_placed_of_held hr)
        obtain ⟨n, hn, hev⟩ := hinside.request hm hrun hlt
        have hn := hvalid n hn
        have hprompt : (p.sched.heap r).promptTokenIds = n.promptTokenIds := hev.promptTokenIds
        have hle : (p.sched.heap r).seqLen ≤ maxContext :=
          seqLen_le_maxContext hm ((run_reach hm hrun).trans (ops_of_stepOps hops)) hlt
            (hprompt ▸ hn.prompt_le)
        refine ⟨fun htok => ?_, hend.trans_le hle⟩
        have hzero := hnil htok
        have hpos := hn.prompt_pos
        rw [Request.seqLen, hprompt] at hzero
        omega
      obtain ⟨b, hb⟩ := henv w rows hwithin
      rw [he] at hb
      cases hb
    · rw [hpre] at hoff
      cases hoff


/-! ## One request -/

/-- Request `n`, ignoring EOS, after `j` tokens and no eviction. -/
structure Request.ServedAlone (n : NewRequest) (j : Nat) (q : Request) : Prop where
  prompt : q.promptTokenIds = n.promptTokenIds
  maxNew : q.maxNewTokens = n.maxNewTokens
  ignoreEos : q.ignoreEos = true
  cancelled : q.cancelled = false
  preemptCount : q.preemptCount = 0
  output : q.outputTokenIds.length = j
  reason : q.finishReason = if n.maxNewTokens ≤ j then some .length else none

variable {n : NewRequest} {j : Nat}

namespace Request.ServedAlone

variable {q : Request}

theorem seqLen (h : q.ServedAlone n j) : q.seqLen = n.promptTokenIds.length + j := by
  rw [Request.seqLen, h.prompt, h.output]

theorem opened (h : q.ServedAlone n j) (hj : (j : Int) < n.maxNewTokens) : q.Open :=
  ⟨by rw [h.reason, if_neg (by omega)], h.cancelled⟩

/-- A token more, whatever the scheduler writes into the request before. -/
theorem emit (h : q.ServedAlone n j) (hj : (j : Int) < n.maxNewTokens) (blocks : List Nat) (seq : Int)
    (st : RequestState) (now : Time) (tok : Token) : (({ q with
      blockTable := blocks, admitSeq := seq, state := st } : Request).emit now tok).ServedAlone n (j + 1) := by
  refine ⟨?_, ?_, ?_, ?_, ?_, ?_, ?_⟩
  · rw [Request.emit_promptTokenIds, ← h.prompt]
  · rw [Request.emit_maxNewTokens, ← h.maxNew]
  · rw [Request.emit_ignoreEos]
    exact h.ignoreEos
  · rw [Request.emit_cancelled]
    exact h.cancelled
  · rw [Request.emit_preemptCount]
    exact h.preemptCount
  · rw [Request.emit_outputTokenIds, List.length_append, ← h.output]
    rfl
  · -- EOS is ignored, so only the limit can end it
    have hopen : ({ q with blockTable := blocks, admitSeq := seq, state := st } :
        Request).finishReason = none := (h.opened hj).1
    rw [Request.emit_finishReason _ _ _ hopen, Request.endReason_snoc]
    simp [h.output, h.maxNew, h.ignoreEos]

end Request.ServedAlone

/-- The engine serves request 0 and nothing else. -/
structure Alone (n : NewRequest) (j : Nat) (s : Scheduler σ) : Prop where
  waiting : s.waiting = []
  running : s.running = [0]
  served : (s.heap 0).ServedAlone n j

theorem eq_singleton {l : List Ref} (hnd : l.Nodup) (h : ∀ x, x ∈ l ↔ x = 0) : l = [0] :=
  List.perm_singleton.mp
    ((List.perm_ext_iff_of_nodup hnd (List.nodup_singleton 0)).mpr (by simpa using h))

/-- With room for all it has, the request gets a token. -/
theorem alone_decode (hgood : Good cfg m (rest s [])) (h : Alone n j s)
    (hj : (j : Int) < n.maxNewTokens)
    (hfits : m.unitsNeeded (n.promptTokenIds.length + j) ≤ m.units)
    (hdec : s.decode env cfg = .ok s') : Alone n (j + 1) s' := by
  have hopen : (s.heap 0).finished = false :=
    Request.not_finished_iff.mpr (h.served.opened hj).1
  have hrows : s.openRows = [0] := by
    rw [Scheduler.openRows, h.running]
    simp [hopen]
  obtain ⟨rows, out, hd, hkept⟩ := decode_rows hgood hdec
  have hout : out = [] := by
    refine hkept ?_
    rw [hrows]
    by_cases hneed : s.needsBlock 0 = true
    · -- what it holds and what is free is the whole pool
      have hlen := hgood.owned.length_sum
      rw [idle_rest s [] |>.held, hgood.shape.units] at hlen
      change (s.manager.freeUnits.length : Int) +
        (s.running.map fun r => ((s.heap r).blockTable.length : Int)).sum = m.units at hlen
      rw [h.running, List.map_singleton, List.sum_singleton] at hlen
      have hshape : s.manager.unitsNeeded = m.unitsNeeded := hgood.shape.unitsNeeded
      simp only [Scheduler.needsBlock, Bool.and_eq_true, decide_eq_true_eq, hshape,
        h.served.seqLen] at hneed
      have hlt := hneed.2
      push_cast at hlt
      have hone : [(0 : Ref)].countP s.needsBlock ≤ 1 := List.countP_le_length
      omega
    · simp [hneed]
  subst hout
  have hmem : (0 : Ref) ∈ rows := by
    have hperm := hd.perm
    rw [hrows, List.append_nil] at hperm
    exact hperm.mem_iff.mp (List.mem_singleton.mpr rfl)
  obtain ⟨blocks, st, now, tok, hheap, -⟩ := hd.served 0 hmem
  refine ⟨?_, ?_, ?_⟩
  · rw [hd.waiting, h.waiting]
    rfl
  · have hperm := hd.running
    rw [h.running, List.append_nil] at hperm
    exact List.singleton_perm.mp hperm |>.symm
  · rw [hheap]
    exact h.served.emit hj _ _ st now tok

/-- Before a step that finds request 0 open, `_retire` changes nothing. -/
theorem alone_retire (hnd : s'.running.Nodup) (h : Alone n j s) (hj : (j : Int) < n.maxNewTokens)
    (hret : Retired s s') : Alone n j s' := by
  have hopen := h.served.opened hj
  refine ⟨?_, ?_, ?_⟩
  · rw [hret.waiting, h.waiting]
    rfl
  · refine eq_singleton hnd fun x => ?_
    rw [hret.running, h.running, List.mem_singleton, and_iff_left_iff_imp]
    rintro rfl
    exact hopen
  · rw [hret.heap 0 hopen]
    exact h.served

theorem alone_admitWaiting (h : Alone n j s) (hadmits : s.admitWaiting env cfg = .ok s') : Alone n j s' := by
  have hnd : s.waiting.Nodup := by simp [h.waiting]
  rcases admit_batch hnd hadmits with ⟨-, -, rfl⟩ | ⟨batch, s₁, -, -, -, hall⟩
  · exact h
  · have hbatch : batch = [] ∧ s'.waiting = [] := by
      have hperm := hall.waiting
      rw [h.waiting] at hperm
      simpa using List.nil_perm.mp hperm
    obtain ⟨rfl, hw⟩ := hbatch
    refine ⟨hw, ?_, ?_⟩
    · rw [hall.running, h.running]
      rfl
    · rw [hall.other 0 List.not_mem_nil]
      exact h.served

/-- **A step gives the only request a token.** -/
theorem alone_step (hgood : Good cfg m (rest s [])) (h : Alone n j s)
    (hj : (j : Int) < n.maxNewTokens)
    (hfits : m.unitsNeeded (n.promptTokenIds.length + j) ≤ m.units)
    (hstep : s.step env cfg = .ok s') : Alone n (j + 1) s' := by
  obtain ⟨s₁, s₂, hret, hadmits, hdecode, hops₁, hops₂, -⟩ := step_parts hgood hstep
  have hgood₁ := hgood.ops (ops_of_stepOps hops₁)
  have hgood₂ := hgood₁.ops (ops_of_stepOps hops₂)
  have hkept : Alone n j s₁ := alone_retire hgood₁.placed.running_nodup h hj hret
  exact alone_decode hgood₂ (alone_admitWaiting hkept hadmits) hj hfits hdecode

/-! ## The first step -/

/-- The request waits in front of an empty engine. -/
structure Arrived (n : NewRequest) (s : Scheduler σ) : Prop where
  waiting : s.waiting = [0]
  running : s.running = []
  served : (s.heap 0).ServedAlone n 0

/-- It is admitted if its prompt fits, and prefilled. -/
theorem arrived_admitWaiting (hgood : Good cfg m (rest s [])) (hp : m.paged = true)
    (hres : m.reserves = false) (hbatch : 1 ≤ cfg.maxBatch) (h : Arrived n s)
    (hpos : 1 ≤ n.maxNewTokens) (hfits : m.unitsNeeded n.promptTokenIds.length ≤ m.units)
    (hadmits : s.admitWaiting env cfg = .ok s') : Alone n 1 s' := by
  have hnd : s.waiting.Nodup := by simp [h.waiting]
  rcases admit_batch hnd hadmits with ⟨hne, -⟩ | ⟨batch, s₁, hpop, -, -, hall⟩
  · exact absurd h.running hne
  · have hsort : Scheduler.sortWaiting s.heap s.waiting = [0] := by
      rw [h.waiting]
      exact List.perm_singleton.mp (sortKey_perm _ _)
    have hcan : s.manager.canAllocate (s.heap 0) s.running.length = true := by
      -- nobody runs: the whole pool is free and no headroom is asked for
      have hheld : (rest s []).held = [] := h.running
      have hfree : s.manager.freeUnits.length = m.units := freeUnits_length hgood hheld
      have hshape : s.manager.unitsNeeded = m.unitsNeeded := hgood.shape.unitsNeeded
      have hneed : s.manager.unitsNeeded (s.heap 0).seqLen + (s.running.length : Nat)
          ≤ s.manager.freeUnits.length := by
        rw [hshape, h.running, h.served.seqLen, hfree]
        simpa using hfits
      exact (Manager.canAllocate_iff (hgood.shape.paged.trans hp)
        (hgood.shape.reserves.trans hres)).mpr hneed
    have hmem : (0 : Ref) ∈ batch := by
      simp only [Scheduler.popAdmissible, hsort] at hpop
      refine popLoop_head hpop ?_ hcan
      unfold admitLimit
      rw [h.running]
      cases cfg.batching with
      | static => exact hbatch
      | continuous => exact hbatch
    have hone : batch = [0] ∧ s'.waiting = [] := by
      have hperm := hall.waiting
      rw [h.waiting] at hperm
      have hlen := hperm.length_eq
      have hpos := List.length_pos_of_mem hmem
      rw [List.length_append, List.length_singleton] at hlen
      obtain ⟨x, rfl⟩ := List.length_eq_one_iff.mp (show batch.length = 1 by omega)
      exact ⟨by rw [List.mem_singleton.mp hmem], List.eq_nil_of_length_eq_zero (by omega)⟩
    obtain ⟨rfl, hw⟩ := hone
    obtain ⟨blocks, seq, st, now, tok, hheap, -⟩ := hall.admitted 0 hmem
    refine ⟨hw, ?_, ?_⟩
    · rw [hall.running, h.running]
      rfl
    · rw [hheap]
      exact h.served.emit (by omega) blocks seq st now tok

/-- A finished request is not decoded. -/
theorem alone_done (h : Alone n j s) (hj : n.maxNewTokens ≤ j) (hdec : s.decode env cfg = .ok s') :
    s' = s := by
  have hfin : (s.heap 0).finished = true := by
    rw [Request.finished_iff, h.served.reason, if_pos hj]
    nofun
  unfold Scheduler.decode at hdec
  rw [h.running] at hdec
  simp only [List.filter_cons, hfin] at hdec
  cases hdec
  rfl

/-- **The first step**: a prefill and, if the limit allows a second token, a decode. -/
theorem arrived_step (hgood : Good cfg m (rest s [])) (hp : m.paged = true)
    (hres : m.reserves = false) (hbatch : 1 ≤ cfg.maxBatch) (h : Arrived n s)
    (hpos : 1 ≤ n.maxNewTokens) {j : Nat} (hj : (j : Int) = min 2 n.maxNewTokens)
    (hfits : m.unitsNeeded (n.promptTokenIds.length + (n.maxNewTokens - 1)) ≤ m.units)
    (hstep : s.step env cfg = .ok s') : Alone n j s' := by
  obtain ⟨s₁, s₂, hret, hadmits, hdecode, hops₁, hops₂, -⟩ := step_parts hgood hstep
  have hgood₁ := hgood.ops (ops_of_stepOps hops₁)
  have hgood₂ := hgood₁.ops (ops_of_stepOps hops₂)
  have hopen : (s.heap 0).Open := h.served.opened (by omega)
  have harrived : Arrived n s₁ := by
    refine ⟨?_, ?_, ?_⟩
    · rw [hret.waiting, h.waiting]
      simp [hopen.2]
    · refine List.eq_nil_iff_forall_not_mem.mpr fun x hx => ?_
      have hmem := ((hret.running x).mp hx).1
      rw [h.running] at hmem
      cases hmem
    · rw [hret.heap 0 hopen]
      exact h.served
  have hmono : ∀ k : Int, k ≤ n.maxNewTokens - 1 →
      m.unitsNeeded (n.promptTokenIds.length + k) ≤ m.units := fun k hk =>
    (m.unitsNeeded_mono (by omega)).trans hfits
  have hprompt : m.unitsNeeded n.promptTokenIds.length ≤ m.units := by
    simpa using hmono 0 (by omega)
  have hone : Alone n 1 s₂ := arrived_admitWaiting hgood₁ hp hres hbatch harrived hpos hprompt hadmits
  by_cases hmax : n.maxNewTokens = 1
  · -- the prefill's token was the last
    obtain rfl : j = 1 := by omega
    rw [alone_done hone (by omega) hdecode]
    exact hone
  · obtain rfl : j = 1 + 1 := by omega
    exact alone_decode hgood₂ hone (by omega) (hmono _ (by omega)) hdecode

end LlmServe
