import LlmServe.Engine.NextToken
import LlmServe.Properties.Progress

/-!
# Overload drains

Under `generate_batch` nobody arrives, so the tokens still to be produced are a measure: every step
that starts with open work produces one (`step_grows`), and the one step that does not empties the
engine. Evictions throw away memory, never tokens, so they do not enter the measure.
-/

namespace LlmServe

open Infra Point

variable {σ : Type} {env : Env σ} {cfg : EngineConfig} {m : Manager} {w : σ}
  {inbox : List Ref}

/-! ## The measure -/

/-- How many tokens all requests together may still get. -/
def Scheduler.remaining (s : Scheduler σ) : Nat :=
  ((List.range s.next).map fun r => (s.heap r).remaining).sum

/-- A step leaves every request at most what it may still get; the inbox does not change. -/
theorem remaining_step_le {s s' : Scheduler σ} (hgood : Good cfg m (rest s inbox))
    (hops : StepOps env cfg (fun _ _ => True) (rest s inbox) (rest s' inbox)) {r : Ref}
    (hr : r < s.next) : (s'.heap r).remaining ≤ (s.heap r).remaining := by
  by_cases hin : r ∈ inbox
  · have hmoves := hgood.moves (ops_of_stepOps hops) r
    have hreq := moves_inbox hmoves (hgood.facts r) (phase_inbox hin) (phase_inbox hin)
    change s'.heap r = { s.heap r with cancelled := (s'.heap r).cancelled } at hreq
    rw [hreq]
    exact le_rfl
  · have hev : (s.heap r).Evolves (s'.heap r) := hgood.evolves (ops_of_stepOps hops) ⟨hr, hin⟩
    exact hev.remaining_le

theorem remaining_lt {s s' : Scheduler σ} (hgood : Good cfg m (rest s inbox))
    (hl : Loaded m (rest s inbox))
    (hops : StepOps env cfg (fun _ _ => True) (rest s inbox) (rest s' inbox))
    {r : Ref} (hr : r ∈ s.waiting ∨ r ∈ s.running) (ho : (s.heap r).Open) (hgrows : Grows s s' r) :
    s'.remaining < s.remaining := by
  have hnext : s'.next = s.next := (stepOps_frame hops).next
  have hmem : r ∈ s.waiting ∨ r ∈ (rest s inbox).held := hr.imp_right mem_held_of_running
  have hsub := hgood.submitted_of_mem hmem
  have hev : (s.heap r).Evolves (s'.heap r) := hgood.evolves (ops_of_stepOps hops) hsub
  unfold Scheduler.remaining
  rw [hnext]
  refine List.sum_lt_sum _ _ (fun x hx => remaining_step_le hgood hops (List.mem_range.mp hx))
    ⟨r, List.mem_range.mpr hsub.1, ?_⟩
  exact hev.remaining_lt hgrows (hl.output_lt hgood hsub ho)

theorem remaining_le {s s' : Scheduler σ} (hgood : Good cfg m (rest s inbox))
    (hops : StepOps env cfg (fun _ _ => True) (rest s inbox) (rest s' inbox)) :
    s'.remaining ≤ s.remaining := by
  have hnext : s'.next = s.next := (stepOps_frame hops).next
  unfold Scheduler.remaining
  rw [hnext]
  exact List.sum_le_sum fun x hx => remaining_step_le hgood hops (List.mem_range.mp hx)

theorem remaining_modify_le (s : Scheduler σ) (r : Ref) (f : Request → Request)
    (h : (f (s.heap r)).remaining ≤ (s.heap r).remaining) :
    (s.modify r f).remaining ≤ s.remaining := by
  have ht := Scheduler.touches_modify s r f
  unfold Scheduler.remaining
  rw [ht.next]
  refine List.sum_le_sum fun x _ => ?_
  by_cases hx : x = r
  · rwa [hx, ht.self]
  · rw [ht.other hx]

theorem remaining_submit_le (s : Scheduler σ) (r : Ref) : (s.submit r).remaining ≤ s.remaining := by
  have hle : (s.modify r Request.submitted).remaining ≤ s.remaining := by
    refine remaining_modify_le s r _ ?_
    simp only [Request.remaining, Request.submitted]
    omega
  exact hle

/-! ## The step that finds nothing to do -/

theorem hasWork_false {s : Scheduler σ} : s.hasWork = false ↔ s.waiting = [] ∧ s.running = [] := by
  simp [Scheduler.hasWork]

/-- A step without open work retires everything. -/
theorem step_drains {s s' : Scheduler σ} (hgood : Good cfg m (rest s inbox))
    (hidle : ¬∃ r, (r ∈ s.waiting ∨ r ∈ s.running) ∧ (s.heap r).Open)
    (h : s.step env cfg = .ok s') : s'.hasWork = false := by
  obtain ⟨s₁, s₂, hret, hadmits, hdecode, hops₁, -⟩ := step_parts hgood h
  have hnd : s₁.waiting.Nodup := (hgood.ops (ops_of_stepOps hops₁)).placed.waiting_nodup
  have hw : s₁.waiting = [] := by
    rw [hret.waiting, List.filter_eq_nil_iff]
    intro r hr hc
    have hc : (s.heap r).cancelled = false := by simpa using hc
    exact hidle ⟨r, Or.inl hr, hgood.open_of_waiting hr hc⟩
  have hrun : s₁.running = [] := by
    refine List.eq_nil_iff_forall_not_mem.mpr fun r hr => ?_
    obtain ⟨hmem, ho⟩ := (hret.running r).mp hr
    exact hidle ⟨r, Or.inr hmem, ho⟩
  obtain ⟨hw₂, hrun₂, -⟩ := (admit_cases hnd hadmits).resolve_left (by simp [hw])
  rw [hw] at hw₂
  rw [hrun] at hrun₂
  unfold Scheduler.decode at hdecode
  rw [hrun₂] at hdecode
  cases hdecode
  simp [Scheduler.hasWork, hrun₂, List.nil_perm.mp hw₂]

/-- The rounds still to come, at most. -/
def Scheduler.rounds (s : Scheduler σ) : Nat := s.remaining + if s.hasWork then 1 else 0

/-- **A step with work leaves fewer rounds.** -/
theorem step_rounds (hm : m.Serves cfg) (hbatch : 1 ≤ cfg.maxBatch) {s s' : Scheduler σ}
    (hgood : Good cfg m (rest s inbox))
    (hl : ∀ p, StepOps env cfg (fun _ _ => True) (rest s inbox) p → Loaded m p)
    (hwork : s.hasWork = true) (hs' : s.step env cfg = .ok s') : s'.rounds < s.rounds := by
  have hops := step_ops hgood.placed hs'
  simp only [Scheduler.rounds, hwork, if_true]
  by_cases hopen : ∃ r, (r ∈ s.waiting ∨ r ∈ s.running) ∧ (s.heap r).Open
  · obtain ⟨r, hr, ho, hgrows⟩ := step_grows hm hbatch hgood hl hopen hs'
    have hlt := remaining_lt hgood (hl _ .refl) hops hr ho hgrows
    split <;> omega
  · have hle := remaining_le hgood hops
    rw [step_drains hgood hopen hs']
    simp only [Bool.false_eq_true, if_false]
    omega

/-! ## The loop of `generate_batch` -/

theorem run_submits (env : Env σ) (cfg : EngineConfig) : ∀ (reqs : List NewRequest) (s : Scheduler σ),
    run (Scheduler.act env cfg) s (reqs.map .submit) = .ok (reqs.foldl Scheduler.accept s)
  | [], _ => rfl
  | n :: reqs, s => run_submits env cfg reqs (s.accept n)

@[simp] theorem submitted_batch (reqs : List NewRequest) (k : Nat) :
    submitted (reqs.map .submit ++ List.replicate k .step) = reqs := by
  have hsteps : submitted (List.replicate k .step) = [] := by
    simp [submitted]
  have hsubmits : submitted (reqs.map .submit) = reqs := by
    simp [submitted, List.filterMap_map]
  rw [submitted_append, hsteps, hsubmits, List.append_nil]

/-- The states between two rounds. -/
def Round (env : Env σ) (cfg : EngineConfig) (m : Manager) (w : σ) (reqs : List NewRequest)
    (s : Scheduler σ) : Prop :=
  ∃ k, run (Scheduler.act env cfg) (.init cfg m w)
    (reqs.map .submit ++ List.replicate k .step) = .ok s

theorem Round.next {reqs : List NewRequest} {s s' : Scheduler σ} (h : Round env cfg m w reqs s)
    (hs' : s.step env cfg = .ok s') : Round env cfg m w reqs s' := by
  obtain ⟨k, hk⟩ := h
  refine ⟨k + 1, ?_⟩
  rw [List.replicate_succ', ← List.append_assoc, run_snoc, hk]
  exact hs'

/-- **A round succeeds and leaves fewer.** -/
theorem round_decreases (hm : m.Serves cfg) (hbatch : 1 ≤ cfg.maxBatch) (henv : env.Answers)
    {reqs : List NewRequest} (hserve : ∀ n ∈ reqs, n.Servable m)
    (hids : (reqs.map NewRequest.requestId).Nodup) (s : Scheduler σ)
    (h : Round env cfg m w reqs s) (hwork : s.hasWork = true) :
    ∃ s', s.step env cfg = .ok s' ∧ Round env cfg m w reqs s' ∧ s'.rounds < s.rounds := by
  obtain ⟨k, hk⟩ := id h
  have hgood := run_good hm.fresh hk
  have hl : ∀ p, StepOps env cfg (fun _ _ => True) (rest s []) p → Loaded m p := fun p hp =>
    (Inside.of_stepOps hp).loaded hm.fresh hk (by simpa using hserve) (by simpa using hids)
  obtain ⟨s', hs'⟩ := step_isOk hm henv hgood hl
  exact ⟨s', hs', h.next hs', step_rounds hm hbatch hgood hl hwork hs'⟩

theorem remaining_accepted (reqs : List NewRequest) : ∀ (s : Scheduler σ),
    (reqs.foldl Scheduler.accept s).remaining =
      s.remaining + (reqs.map fun n => n.capped.toNat).sum := by
  induction reqs with
  | nil => exact fun _ => rfl
  | cons n reqs ih =>
    intro s
    have hone : (s.accept n).remaining = s.remaining + n.capped.toNat := by
      have hnext : (s.accept n).next = s.next + 1 := rfl
      have hold : ((List.range s.next).map fun r => ((s.accept n).heap r).remaining) =
          (List.range s.next).map fun r => (s.heap r).remaining := by
        refine List.map_congr_left fun r hr => ?_
        rw [accept_heap, Function.update_of_ne (List.mem_range.mp hr).ne]
      have hnew : ((s.accept n).heap s.next).remaining = n.capped.toNat := by
        rw [accept_heap, Function.update_self]
        simp [Request.remaining, Request.submitted, NewRequest.toRequest, NewRequest.capped]
      rw [Scheduler.remaining, hnext, List.range_succ, List.map_append, List.sum_append, hold,
        List.map_singleton, List.sum_singleton, hnew]
      rfl
    rw [List.foldl_cons, ih, hone, List.map_cons, List.sum_cons, Nat.add_assoc]

theorem Round.start (reqs : List NewRequest) :
    Round env cfg m w reqs (reqs.foldl Scheduler.accept (.init cfg m w)) :=
  ⟨0, by rw [List.replicate_zero, List.append_nil, run_submits]⟩

/-- The loop of `generate_batch` ends. -/
theorem generateBatch_ok (hm : m.Serves cfg) (hbatch : 1 ≤ cfg.maxBatch) (henv : env.Answers)
    {reqs : List NewRequest} (hserve : ∀ n ∈ reqs, n.Servable m)
    (hids : (reqs.map NewRequest.requestId).Nodup) {fuel : Nat}
    (hfuel : (reqs.map fun n => n.capped.toNat).sum + 1 ≤ fuel) :
    ∃ s, Scheduler.generateBatch env cfg fuel (.init cfg m w) reqs = .ok (some s) := by
  have hmeasure : (reqs.foldl Scheduler.accept (.init cfg m w : Scheduler σ)).rounds ≤ fuel := by
    have hzero : (Scheduler.init cfg m w : Scheduler σ).remaining = 0 := rfl
    rw [Scheduler.rounds, remaining_accepted, hzero]
    split <;> omega
  obtain ⟨s, hs, -⟩ := loop_terminates (round_decreases hm hbatch henv hserve hids) fuel _
    (Round.start reqs) hmeasure
  exact ⟨s, hs⟩

/-- And it ends after whole steps, with nothing left to do. -/
theorem generateBatch_done {reqs : List NewRequest} {fuel : Nat} {s : Scheduler σ}
    (h : Scheduler.generateBatch env cfg fuel (.init cfg m w) reqs = .ok (some s)) :
    Round env cfg m w reqs s ∧ s.hasWork = false :=
  loop_some (fun _ _ hround _ hs' => hround.next hs') fuel _ (Round.start reqs) h

/-- Then every request has left, as its client made it. -/
theorem Round.left (hm : m.Fresh) {reqs : List NewRequest} {s : Scheduler σ}
    (h : Round env cfg m w reqs s) (hdone : s.hasWork = false) {r : Ref} {n : NewRequest}
    (hr : reqs[r]? = some n) :
    r < s.next ∧ r ∉ (rest s []).placed ∧ (s.heap r).cancelled = n.cancelled ∧
      n.toRequest.submitted.Evolves (s.heap r) := by
  obtain ⟨k, hk⟩ := h
  have hprov := run_provenance hm hk
  have hr' : (submitted (reqs.map .submit ++ List.replicate k .step))[r]? = some n := by
    rwa [submitted_batch]
  refine ⟨hprov.next ▸ (List.getElem?_eq_some_iff.mp hr').1, ?_, ?_, hprov.evolves r n hr'⟩
  · simp only [Scheduler.hasWork, Bool.or_eq_false_iff, Bool.not_eq_false',
      List.isEmpty_iff] at hdone
    simp [placed, held, rest, hdone]
  · refine hprov.cancelled r n hr' fun hcan => ?_
    rcases List.mem_append.mp hcan with hcan | hcan
    · obtain ⟨n', -, he⟩ := List.mem_map.mp hcan
      cases he
    · cases List.eq_of_mem_replicate hcan

/--
**Overload drains.** The loop of `generate_batch` ends within one round more than there are tokens
to produce, with every request finished. In every run over these requests, whatever is cancelled
in between, a step that starts with open work gives an open request a token. At every point of
every run a request has been evicted at most once for each of its tokens, and less than its limit.
-/
theorem overload_drains (hm : m.Serves cfg) (hbatch : 1 ≤ cfg.maxBatch) (henv : env.Answers)
    {reqs : List NewRequest} (hserve : ∀ n ∈ reqs, n.Servable m)
    (hids : (reqs.map NewRequest.requestId).Nodup) :
    (∀ fuel, (reqs.map fun n => n.capped.toNat).sum + 1 ≤ fuel →
      ∃ s, Scheduler.generateBatch env cfg fuel (.init cfg m w) reqs = .ok (some s) ∧
        ∀ (r : Ref) (n : NewRequest), reqs[r]? = some n → n.cancelled = false →
          (s.heap r).finishReason = some .length ∨ (s.heap r).finishReason = some .stop) ∧
    (∀ acts s s', submitted acts = reqs →
      run (Scheduler.act env cfg) (.init cfg m w) acts = .ok s →
      (∃ r, (r ∈ s.waiting ∨ r ∈ s.running) ∧ (s.heap r).Open) → s.step env cfg = .ok s' →
      ∃ r, (r ∈ s.waiting ∨ r ∈ s.running) ∧ (s.heap r).Open ∧ Grows s s' r) ∧
    (∀ p, Reach env cfg (rest (.init cfg m w) []) p → ∀ r,
      (p.sched.heap r).preemptCount ≤ (p.sched.heap r).outputTokenIds.length ∧
        (1 ≤ (p.sched.heap r).maxNewTokens →
          ((p.sched.heap r).preemptCount : Int) ≤ (p.sched.heap r).maxNewTokens - 1)) := by
  refine ⟨fun fuel hfuel => ?_, fun acts s s' hacts hrun hwork hs' => ?_, fun p hp r => ?_⟩
  · obtain ⟨s, hs⟩ := generateBatch_ok (w := w) hm hbatch henv hserve hids hfuel
    obtain ⟨hround, hdone⟩ := generateBatch_done hs
    refine ⟨s, hs, fun r n hr hc => ?_⟩
    obtain ⟨hlt, hleft, hflag, -⟩ := hround.left hm.fresh hdone hr
    obtain ⟨k, hk⟩ := hround
    exact (run_good hm.fresh hk).finished_of_left hlt hleft (hflag.trans hc)
  · have hl : ∀ p, StepOps env cfg (fun _ _ => True) (rest s []) p → Loaded m p := fun p hp =>
      (Inside.of_stepOps hp).loaded hm.fresh hrun (hacts ▸ hserve) (hacts ▸ hids)
    exact step_grows hm hbatch (run_good hm.fresh hrun) hl hwork hs'
  · have hgood := (Good.init hm.fresh w).ops hp
    have hfacts := hgood.facts r
    refine ⟨hfacts.counted.le, fun hpos => ?_⟩
    have hlt := hfacts.counted.lt_maxNewTokens hfacts.ending hpos
    change ((p.sched.heap r).preemptCount : Int) < (p.sched.heap r).maxNewTokens at hlt
    omega

/-- Three requests that want four blocks each share a pool of four. -/
theorem overload_drains_overcommit :
    ∃ s, Scheduler.generateBatch (Env.ofNext fun toks => toks.length)
        { backend := .paged, preemption := true } 10
        (.init { backend := .paged, preemption := true } (.block (.new 4 1 Nat.one_pos false)) .start)
        [{ requestId := "a", promptTokenIds := [1], maxNewTokens := 3 },
          { requestId := "b", promptTokenIds := [2], maxNewTokens := 3 },
          { requestId := "c", promptTokenIds := [3], maxNewTokens := 3 }] = .ok (some s) ∧
      ((s.heap 2).finishReason = some .length ∨ (s.heap 2).finishReason = some .stop) := by
  have hserve : ∀ n ∈ ([{ requestId := "a", promptTokenIds := [1], maxNewTokens := 3 },
      { requestId := "b", promptTokenIds := [2], maxNewTokens := 3 },
      { requestId := "c", promptTokenIds := [3], maxNewTokens := 3 }] : List NewRequest),
      n.Servable (.block (.new 4 1 Nat.one_pos false)) := by
    intro n hn
    simp only [List.mem_cons, List.not_mem_nil, or_false] at hn
    rcases hn with rfl | rfl | rfl <;> exact ⟨⟨by decide, by decide, by decide⟩, by decide⟩
  have hm : (Manager.block (.new 4 1 Nat.one_pos false)).Serves
      { backend := .paged, preemption := true } :=
    ⟨Manager.fresh_block_new .., nofun, fun _ => rfl⟩
  obtain ⟨s, hs, hdone⟩ := (overload_drains (w := History.start) hm (by decide)
    (Env.ofNext_answers fun toks => toks.length) hserve (by decide)).1 10 (by decide)
  exact ⟨s, hs, hdone 2 _ rfl rfl⟩

end LlmServe
