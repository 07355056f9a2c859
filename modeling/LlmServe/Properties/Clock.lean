import LlmServe.Engine.ModelRunner
import LlmServe.Properties.Books
import LlmServe.Spec.ForwardPass
import LlmServe.Spec.StepOps
import Mathlib.Algebra.Order.BigOperators.Group.List

/-!
# Times come in order

With a clock that does not go back, the times of a request come in the order of its life: arrival,
first token, end, now (`Request.Timed`). `_retire` computes the latencies of its record from them,
so these are not negative and TTFT is at most E2E (`RequestMetrics.Ordered`). Every small step of
the engine keeps this (`timely_stepOp`).
-/

namespace LlmServe

open Infra Point

variable {σ : Type} {env : Env σ} {cfg : EngineConfig} {adm : Point σ → Ref → Prop} {m : Manager}
  {p p' : Point σ} {s s' : Scheduler σ}

/-! ## A world with a clock -/

/-- What the clock shows next. -/
def Env.now (env : Env σ) (w : σ) : Time := (env.perfCounter w).1

/-- The clock does not go back, and a forward pass leaves a fraction in `last_pad_frac`. -/
structure Env.Steady (env : Env σ) : Prop where
  clock : ∀ w, env.now w ≤ env.now (env.perfCounter w).2
  step : ∀ w rows b, env.stepTokens w rows = .ok b → env.now w ≤ env.now b.2
  padFrac : ∀ w rows b, env.stepTokens w rows = .ok b →
    0 ≤ env.lastPadFrac b.2 ∧ env.lastPadFrac b.2 ≤ 1
  padFrac_clock : ∀ w, env.lastPadFrac (env.perfCounter w).2 = env.lastPadFrac w

/-! ## The times of a request -/

theorem Request.emit_firstTokenTime_eq (now : Time) (tok : Token) (q : Request) :
    (q.emit now tok).firstTokenTime =
      if q.firstTokenTime = none then some now else q.firstTokenTime := by
  unfold Request.emit
  by_cases hf : q.firstTokenTime = none <;> simp only [hf, if_true, if_false] <;>
    split_ifs <;> rfl

theorem Request.emit_finishTime_eq (now : Time) (tok : Token) (q : Request) :
    (q.emit now tok).finishTime =
      if (q.emit now tok).finished then some now else q.finishTime := by
  obtain ⟨_, -, -, ⟨-, he⟩ | ⟨-, -, -, he⟩ | ⟨-, -, he⟩⟩ := emit_cases now tok q
  · simp [he, Request.finished]
  · simp [he, Request.finished]
  · rw [he]
    rfl

structure Request.Timed (now : Time) (q : Request) : Prop where
  arrival : q.arrivalTime ≤ now
  first : ∀ t, q.firstTokenTime = some t → q.arrivalTime ≤ t ∧ t ≤ now
  finish : ∀ t, q.finishTime = some t → t ≤ now ∧ q.finishReason ≠ none ∧
    ∀ t', q.firstTokenTime = some t' → t' ≤ t

namespace Request.Timed

variable {now now' : Time} {q q' : Request}

theorem later (h : q.Timed now) (hle : now ≤ now') : q.Timed now' := by
  refine ⟨h.arrival.trans hle, fun t ht => ?_, fun t ht => ?_⟩
  · obtain ⟨hlo, hhi⟩ := h.first t ht
    exact ⟨hlo, hhi.trans hle⟩
  · obtain ⟨hhi, hrest⟩ := h.finish t ht
    exact ⟨hhi.trans hle, hrest⟩

theorem congr (h : q.Timed now) (harrival : q'.arrivalTime = q.arrivalTime)
    (hfirst : q'.firstTokenTime = q.firstTokenTime) (hfinish : q'.finishTime = q.finishTime)
    (hreason : q'.finishReason = q.finishReason) : q'.Timed now :=
  ⟨harrival ▸ h.arrival, hfirst ▸ harrival ▸ h.first, hfinish ▸ hreason ▸ hfirst ▸ h.finish⟩

/-- A request that is open has no end yet. -/
theorem finishTime_eq_none (h : q.Timed now) (hopen : q.finishReason = none) :
    q.finishTime = none := by
  cases ht : q.finishTime with
  | none => rfl
  | some t => exact absurd hopen (h.finish t ht).2.1

theorem cancelled (h : q.Timed now) :
    ({ q with finishReason := some .cancelled, finishTime := some now } : Request).Timed now := by
  refine ⟨h.arrival, h.first, ?_⟩
  rintro t ⟨⟩
  exact ⟨le_rfl, Option.some_ne_none _, fun t' ht' => (h.first t' ht').2⟩

/-- `_emit` takes both times from the same reading. -/
theorem emit (h : q.Timed now) (hopen : q.finishReason = none) (tok : Token) :
    (q.emit now tok).Timed now := by
  have hnone := h.finishTime_eq_none hopen
  have hfirst : ∀ t, (q.emit now tok).firstTokenTime = some t → q.arrivalTime ≤ t ∧ t ≤ now := by
    intro t ht
    rw [Request.emit_firstTokenTime_eq] at ht
    split at ht
    · cases ht
      exact ⟨h.arrival, le_rfl⟩
    · exact h.first t ht
  refine ⟨by simpa using h.arrival, by simpa using hfirst, fun t ht => ?_⟩
  rw [Request.emit_finishTime_eq, hnone] at ht
  split at ht
  · next hfin =>
    cases ht
    exact ⟨le_rfl, Request.finished_iff.mp hfin, fun t' ht' => (hfirst t' ht').2⟩
  · cases ht

end Request.Timed

/-! ## The record of a request -/

structure RequestMetrics.Ordered (rec : RequestMetrics) : Prop where
  ttft : 0 ≤ rec.ttft
  e2e : rec.ttft ≤ rec.e2e
  tpot : ∀ t, rec.tpot = some t → 0 ≤ t

theorem Request.Timed.record {now : Time} {q : Request} {rec : RequestMetrics} (h : q.Timed now)
    (hrec : requestMetrics q = .ok rec) : rec.Ordered := by
  unfold requestMetrics at hrec
  split at hrec
  · next first finish hfirst hfinish =>
    obtain ⟨hlo, -⟩ := h.first first hfirst
    obtain ⟨-, -, hle⟩ := h.finish finish hfinish
    have hle := hle first hfirst
    cases hrec
    refine ⟨sub_nonneg.mpr hlo, sub_le_sub_right hle _, fun t ht => ?_⟩
    dsimp only at ht
    split at ht
    · next hn =>
      cases ht
      have hn : (1 : Rat) ≤ q.outputTokenIds.length := by exact_mod_cast hn.le
      have hle : (first : Rat) ≤ finish := by exact_mod_cast hle
      push_cast
      apply div_nonneg <;> linarith
    · cases ht
  · cases hrec

/-! ## A step of the engine -/

/-- The times of all requests and records. -/
structure Timely (env : Env σ) (s : Scheduler σ) : Prop where
  requests : ∀ r < s.next, (s.heap r).Timed (env.now s.world)
  records : ∀ rec ∈ s.metrics.requests, rec.Ordered

/-- A small step that writes no time and no record. -/
theorem Timely.quiet (h : Timely env s) (hnext : s'.next = s.next)
    (hnow : env.now s.world ≤ env.now s'.world)
    (hrequests : s'.metrics.requests = s.metrics.requests)
    (hheap : ∀ r, (s'.heap r).arrivalTime = (s.heap r).arrivalTime ∧
      (s'.heap r).firstTokenTime = (s.heap r).firstTokenTime ∧
      (s'.heap r).finishTime = (s.heap r).finishTime ∧
      (s'.heap r).finishReason = (s.heap r).finishReason) : Timely env s' where
  requests := fun r hr => by
    obtain ⟨h1, h2, h3, h4⟩ := hheap r
    exact ((h.requests r (hnext ▸ hr)).congr h1 h2 h3 h4).later hnow
  records := hrequests ▸ h.records

/-- A small step that writes the times of one request. -/
theorem Timely.touch (h : Timely env s) {x : Ref} {q : Request} (hnext : s'.next = s.next)
    (hheap : s'.heap = Function.update s.heap x q) (hnow : env.now s.world ≤ env.now s'.world)
    (hrequests : s'.metrics.requests = s.metrics.requests)
    (hq : x < s.next → q.Timed (env.now s.world)) : Timely env s' where
  requests := fun r hr => by
    rw [hheap]
    refine Request.Timed.later ?_ hnow
    by_cases hrx : r = x
    · subst hrx
      rw [Function.update_self]
      exact hq (hnext ▸ hr)
    · rw [Function.update_of_ne hrx]
      exact h.requests r (hnext ▸ hr)
  records := hrequests ▸ h.records

/-- Another thread builds a request. -/
theorem Timely.create (h : Timely env s) {q : Request} (hq : q.Timed (env.now s.world)) :
    Timely env (s.create q) where
  requests := fun r hr => by
    change (Function.update s.heap s.next q r).Timed (env.now s.world)
    by_cases hnew : r = s.next
    · rw [hnew, Function.update_self]
      exact hq
    · have hlt : r < s.next := lt_of_le_of_ne (Nat.le_of_lt_succ hr) hnew
      rw [Function.update_of_ne hnew]
      exact h.requests r hlt
  records := h.records

/-- The four fields, where a record is updated in others. -/
theorem times_update {heap heap' : Ref → Request} {x : Ref} {q : Request}
    (h : heap' = Function.update heap x q) (harrival : q.arrivalTime = (heap x).arrivalTime)
    (hfirst : q.firstTokenTime = (heap x).firstTokenTime)
    (hfinish : q.finishTime = (heap x).finishTime)
    (hreason : q.finishReason = (heap x).finishReason) (r : Ref) :
    (heap' r).arrivalTime = (heap r).arrivalTime ∧
      (heap' r).firstTokenTime = (heap r).firstTokenTime ∧
      (heap' r).finishTime = (heap r).finishTime ∧
      (heap' r).finishReason = (heap r).finishReason := by
  rw [h]
  exact ⟨apply_update _ harrival r, apply_update _ hfirst r, apply_update _ hfinish r,
    apply_update _ hreason r⟩

/-- **Every small step of the engine keeps the times in order.** -/
theorem timely_stepOp (henv : env.Steady) (hgood : Good cfg m p)
    (hop : StepOp env cfg adm p p') (h : Timely env p.sched) : Timely env p'.sched := by
  have hstep : ∀ {rows nxt} {s' : Scheduler σ}, p.sched.stepTokens env rows = .ok (nxt, s') →
      env.now p.sched.world ≤ env.now s'.world := by
    intro rows nxt s' hf
    obtain ⟨w, hw, rfl⟩ := Scheduler.stepTokens_ok hf
    exact henv.step _ rows (nxt, w) hw
  cases hop with
  | markCancelled r hidle hr =>
    by_cases hc : (p.sched.heap r).cancelled && !(p.sched.heap r).finished
    · have hs : p.sched.markCancelled env r =
          (p.sched.perfCounter env).2.modify r fun q =>
            { q with finishReason := some .cancelled
                     finishTime := some (env.now p.sched.world) } := if_pos hc
      rw [hs]
      exact h.touch rfl rfl (henv.clock _) rfl fun hlt => (h.requests r hlt).cancelled
    · have hs : p.sched.markCancelled env r = p.sched := if_neg hc
      rw [hs]
      exact h
  | leave s' pre post r hidle hr hfin hl =>
    obtain ⟨hheap, hbooks⟩ := Scheduler.leave_books hl hfin
    obtain ⟨q, -, ht⟩ := Scheduler.leave_ok hl
    have hlt : r < p.sched.next := hgood.placed.lt_next r
      (mem_placed_of_held (mem_held_of_running (by simp [hr])))
    have hworld : s'.world = p.sched.world := Scheduler.leave_world hl
    have hquiet : Timely env { s' with running := pre ++ post, metrics := p.sched.metrics } :=
      h.quiet ht.next (by rw [hworld]) rfl (times_update hheap rfl rfl rfl rfl)
    refine ⟨hquiet.requests, ?_⟩
    intro x hx
    change x ∈ s'.metrics.requests at hx
    rcases hbooks with ⟨-, hmet⟩ | ⟨-, hmet⟩
    · -- the record is made of the times there are
      obtain ⟨rec, hrec, hreqs, -⟩ := EngineMetrics.recordRequest_ok hmet
      rw [hreqs] at hx
      rcases List.mem_append.mp hx with hx | hx
      · exact h.records x hx
      · rw [List.mem_singleton.mp hx]
        exact (h.requests r hlt).record hrec
    · rw [hmet] at hx
      exact h.records x hx
  | admitHead s' r tail hbatch hdue hw hsorted hroom hcan hadm ha =>
    obtain ⟨q, hq⟩ := Scheduler.stampAdmit_admitted ha
    obtain ⟨blocks, rfl, -⟩ := Manager.allocate_ok hq.allocate
    have hworld := Scheduler.allocate_world ha
    have hmet := Scheduler.allocate_metrics ha
    exact h.quiet hq.next (congrArg env.now hworld).ge (congrArg EngineMetrics.requests hmet)
      (times_update hq.heap rfl rfl rfl rfl)
  | prefill s' batch rest nxt hbatch hdue hp hf =>
    have hnow := hstep hf
    obtain ⟨w, -, rfl⟩ := Scheduler.stepTokens_ok hf
    exact h.quiet rfl hnow rfl fun r => ⟨rfl, rfl, rfl, rfl⟩
  | setRunning r hr => exact h.quiet rfl le_rfl rfl (times_update rfl rfl rfl rfl rfl)
  | emit r tok due hdue =>
    have hheap : (p.sched.emit env r tok).heap = Function.update p.sched.heap r
        ((p.sched.heap r).emit (env.now p.sched.world) tok) := by
      unfold Scheduler.emit
      dsimp only
      split <;> rfl
    have hopen : (p.sched.heap r).finishReason = none :=
      (hgood.facts r).ending.due_open (by simp [view, dueRefs, hdue])
    obtain ⟨now, he⟩ := Scheduler.emit_ok env p.sched r tok
    refine h.touch he.next hheap ?_ (by rw [Scheduler.emit_metrics]) fun hlt =>
      (h.requests r hlt).emit hopen tok
    rw [Scheduler.emit_world]
    exact henv.clock _
  | grow r hidle hr hfin =>
    obtain ⟨blocks, hq, -⟩ := p.sched.manager.appendSlot_spec (p.sched.heap r)
    have ht := (p.sched.appendSlot_touches r).2
    rw [hq] at ht
    exact h.quiet rfl le_rfl rfl (times_update ht.heap rfl rfl rfl rfl)
  | preempt s' r hidle hr hfin hpre hp =>
    obtain ⟨q, hq⟩ := Scheduler.preempt_ok hp
    obtain ⟨rfl, -⟩ := Manager.free_ok hq.free
    have hworld := Scheduler.preempt_world hp
    exact h.quiet hq.next (congrArg env.now hworld).ge (Scheduler.preempt_books hp).1
      (times_update hq.heap rfl rfl rfl rfl)
  | decode s' batch rows nxt hidle hnd hrun hfin hcov hrows hf =>
    have hnow := hstep hf
    obtain ⟨w, -, rfl⟩ := Scheduler.stepTokens_ok hf
    exact h.quiet rfl hnow rfl fun r => ⟨rfl, rfl, rfl, rfl⟩
  | clock => exact h.quiet rfl (henv.clock _) rfl fun r => ⟨rfl, rfl, rfl, rfl⟩
  | count met owed hcount =>
    exact h.quiet rfl le_rfl hcount.sameBooks.1 fun r => ⟨rfl, rfl, rfl, rfl⟩
  | _ => exact h.quiet rfl le_rfl rfl fun r => ⟨rfl, rfl, rfl, rfl⟩

/-! ## The world of the server -/

variable {Hidden K V κ : Type} {M : Transformer Hidden K V} {clock : κ → Time × κ}

/-- The padding of a forward pass: its rows are no longer than the longest of them. -/
theorem Transformer.padFrac_mem {pool pool' : Pool K V} {rows : List Row} {nxt : List Token}
    {padFrac : Rat} (h : M.stepTokens pool rows = .ok (nxt, pool', padFrac)) :
    0 ≤ padFrac ∧ padFrac ≤ 1 := by
  obtain ⟨acc, hacc, h⟩ := exists_of_bind_ok h
  obtain ⟨hstarts, -, htotals, -, hlk⟩ := BatchAccess.new_ok (Layout.access_new hacc)
  dsimp only at h
  split at h
  · cases h
  · cases h
    have hlen : acc.totals.length ≤ acc.b := by
      rw [htotals, BatchAccess.b, hstarts, List.length_zipWith]
      exact min_le_left _ _
    have hle : acc.totals.sum ≤ acc.b * acc.lk := by
      have hsum := acc.totals.sum_le_card_nsmul acc.lk (List.max?_eq_some_iff.mp hlk).2
      exact hsum.trans (Nat.mul_le_mul_right _ hlen)
    have hle : (acc.totals.sum : Rat) ≤ (acc.b * acc.lk : Nat) := by exact_mod_cast hle
    have h0 : (0 : Rat) ≤ acc.totals.sum := Nat.cast_nonneg _
    have hfrac : (acc.totals.sum : Rat) / (acc.b * acc.lk : Nat) ≤ 1 :=
      div_le_one_of_le₀ hle (Nat.cast_nonneg _)
    have hpos : 0 ≤ (acc.totals.sum : Rat) / (acc.b * acc.lk : Nat) :=
      div_nonneg h0 (Nat.cast_nonneg _)
    constructor <;> linarith

theorem ofRunner_steady (hclock : ∀ c, (clock c).1 ≤ (clock (clock c).2).1) :
    (Env.ofRunner M clock).Steady := by
  have hmodel : ∀ {w rows b}, (Env.ofRunner M clock).stepTokens w rows = .ok b →
      b.2.clock = w.clock ∧ 0 ≤ b.2.lastPadFrac ∧ b.2.lastPadFrac ≤ 1 := by
    intro w rows b h
    obtain ⟨_, -, h⟩ := exists_of_bind_ok h
    obtain ⟨⟨nxt, pool, padFrac⟩, hstep, h⟩ := exists_of_bind_ok h
    cases h
    exact ⟨rfl, Transformer.padFrac_mem hstep⟩
  refine ⟨fun w => hclock w.clock, fun w rows b h => ?_, fun w rows b h => (hmodel h).2,
    fun _ => rfl⟩
  show (clock w.clock).1 ≤ (clock b.2.clock).1
  rw [(hmodel h).1]

end LlmServe
