import LlmServe.Properties.Accounting

/-!
# Where a call of `step` cannot raise

The assertions and lookups of the scheduler, the allocators and the metrics hold at every point:
`leave`, `_preempt`, the last token of a decode row and the division in `record_step` never fail,
and neither does `allocate` after a positive `can_allocate`. What is left of `Fault` is the forward
pass itself and, without preemption, a failed `append_slot` (`fault_cases`).
-/

namespace LlmServe

open Infra Point

variable {σ : Type} {env : Env σ} {cfg : EngineConfig} {adm : Point σ → Ref → Prop}
  {m : Manager} {p : Point σ}

theorem Good.output_ne_nil (h : Good cfg m p) {r : Ref} (hr : r ∈ p.sched.running) :
    (p.sched.heap r).outputTokenIds ≠ [] := by
  have hlt := (h.facts r).counted.lt_running (phase_running h.placed hr)
  change (p.sched.heap r).preemptCount < (p.sched.heap r).outputTokenIds.length at hlt
  exact List.ne_nil_of_length_pos (by omega)

/-- A holder's memory can be freed. -/
theorem Good.free_ne_error (h : Good cfg m p) {r : Ref} (hr : r ∈ p.held) {q : Request}
    (hq : q.blockTable = (p.sched.heap r).blockTable) (e : PyError) :
    p.sched.manager.free q ≠ .error e := by
  obtain ⟨b, hb⟩ := Manager.free_isOk (m := p.sched.manager) (q := q)
    fun hp => hq ▸ h.oneSlot hp r hr
  rw [hb]
  nofun

theorem free_error {s : Scheduler σ} {r : Ref} {e : PyError} (h : s.free r = .error e) :
    s.manager.free (s.heap r) = .error e := by
  rcases or_of_bind_error h with h | ⟨b, -, hb⟩
  · exact h
  · cases hb

/-- The metrics of a request that ended by itself are there to be recorded. -/
theorem Good.times (h : Good cfg m p) {r : Ref} (hfin : (p.sched.heap r).finished = true)
    (hc : (p.sched.heap r).finishReason ≠ some .cancelled) :
    (p.sched.heap r).firstTokenTime ≠ none ∧ (p.sched.heap r).finishTime ≠ none := by
  have hend := (h.facts r).ending
  have hne := Request.finished_iff.mp hfin
  refine ⟨hend.firstTokenTime fun hnil => hne ?_, hend.finishTime hne⟩
  refine (hend.reason hc).trans ?_
  rw [hnil]
  rfl

theorem leave_ne_error (h : Good cfg m p) {r : Ref} (hr : r ∈ p.sched.running)
    (hfin : (p.sched.heap r).finished = true) (e : PyError) : p.sched.leave r ≠ .error e := by
  intro he
  rcases or_of_bind_error he with hfree | ⟨s₁, hfree, hrest⟩
  · have hfree := free_error hfree
    rw [(Scheduler.touches_modify ..).self] at hfree
    exact h.free_ne_error (mem_held_of_running hr) (by rfl) e hfree
  · obtain ⟨q, hm, ht⟩ := Scheduler.free_ok hfree
    rw [(Scheduler.touches_modify ..).self] at hm
    obtain ⟨rfl, -⟩ := Manager.free_ok hm
    split at hrest
    · next hc =>
      rw [ht.self] at hc
      obtain ⟨hfirst, hfinish⟩ := h.times hfin hc
      rcases or_of_bind_error hrest with hrec | ⟨b, -, hb⟩
      · rw [ht.self] at hrec
        obtain ⟨met, hmet⟩ := EngineMetrics.recordRequest_isOk (m := s₁.metrics)
          (q := { p.sched.heap r with state := .finished, blockTable := [] }) hfirst hfinish
        exact absurd (hrec.symm.trans hmet) nofun
      · cases hb
    · cases hrest

theorem preempt_ne_error (h : Good cfg m p) {r : Ref} (hr : r ∈ p.sched.running) (e : PyError) :
    p.sched.preempt r ≠ .error e := by
  intro he
  rcases or_of_bind_error he with hfree | ⟨s₁, hfree, hrest⟩
  · exact h.free_ne_error (mem_held_of_running hr) rfl e (free_error hfree)
  · obtain ⟨q, -, ht⟩ := Scheduler.free_ok hfree
    split at hrest
    · cases hrest
    · next hany =>
      -- the object itself is still in the list
      refine hany (List.any_eq_true.mpr ⟨r, ?_, by simp⟩)
      rw [ht.running]
      exact hr

theorem decodeRow_ne_error (h : Good cfg m p) {r : Ref} (hr : r ∈ p.sched.running) (e : PyError) :
    p.sched.decodeRow r ≠ .error e := by
  intro he
  unfold Scheduler.decodeRow at he
  split at he
  · next hnil => exact h.output_ne_nil hr (List.getLast?_eq_none_iff.mp hnil)
  · cases he

theorem stats_total (m : Manager) (heap : Ref → Request) : (m.stats heap).total = m.units := by
  cases m <;> rfl

/-- There is a unit in the pool once a request has fed a token. -/
theorem total_ne_zero (h : Good cfg m p) {r : Ref} (hr : r ∈ p.sched.running) (hdue : r ∈ p.dueRefs) :
    (p.sched.manager.stats p.sched.heap).total ≠ 0 := by
  rw [stats_total]
  intro hzero
  have hout := List.length_pos_iff.mpr (h.output_ne_nil hr)
  have htable := (h.facts r).table.due (decide_eq_true hdue)
  change m.unitsNeeded (((p.sched.heap r).seqLen : Nat) : Int)
    ≤ ((p.sched.heap r).blockTable.length : Int) at htable
  have hpos : 0 < m.unitsNeeded (p.sched.heap r).seqLen :=
    m.unitsNeeded_pos (by simp only [Request.seqLen]; omega)
  have hle := h.table_le_units (mem_held_of_running hr)
  rw [h.shape.units] at hzero
  omega

/-- **A positive `can_allocate` is enough for `allocate`.** -/
theorem admit_ne_error (h : Good cfg m p) (hpos : Positive p)
    (hbooked : m.reserves = true → Accounted m p) {r : Ref}
    {headroom : Nat} (hw : r ∈ p.sched.waiting)
    (hcan : p.sched.manager.canAllocate (p.sched.heap r) headroom = true) {tail : List Ref}
    (e : PyError) : { p.sched with waiting := tail }.allocate r ≠ .error e := by
  intro he
  have hneed := room_of_canAllocate h
    (fun hres => ⟨hbooked hres, hpos.covering, h.tablesFit hpos⟩) hw hcan
  obtain ⟨b, hb⟩ := Manager.allocate_isOk (r := r) hneed
  rcases or_of_bind_error he with he | ⟨b', -, hb'⟩
  · exact absurd (he.symm.trans hb) nofun
  · cases hb'

/-- A row of a forward pass ends at the last token of a request that holds memory. -/
def Row.Ends (p : Point σ) (row : Row) : Prop :=
  ∃ r ∈ p.held, row.start + row.tokens.length = (p.sched.heap r).seqLen ∧
    (row.tokens = [] → (p.sched.heap r).seqLen = 0)

theorem prefillRow_ends {r : Ref} (hr : r ∈ p.held) : (p.sched.prefillRow r).Ends p := by
  refine ⟨r, hr, ?_, fun hnil => ?_⟩
  · rw [Scheduler.prefillRow, Request.length_tokens, Nat.zero_add]
  · rw [← Request.length_tokens]
    exact congrArg List.length hnil

theorem decodeRow_ends (h : Good cfg m p) {r : Ref} (hr : r ∈ p.sched.running) {row : Row}
    (hrow : p.sched.decodeRow r = .ok row) : row.Ends p := by
  obtain ⟨tok, -, rfl⟩ := decodeRow_ok hrow
  refine ⟨r, mem_held_of_running hr, ?_, nofun⟩
  have hout := List.length_pos_iff.mpr (h.output_ne_nil hr)
  show (p.sched.heap r).seqLen - 1 + 1 = (p.sched.heap r).seqLen
  simp only [Request.seqLen]
  omega

/--
**What is left of the faults**: the forward pass raises, or a request without preemption finds no
block.
-/
theorem fault_cases {e : PyError} (h : Good cfg m p) (hpos : Positive p)
    (hbooked : m.reserves = true → Accounted m p) (hf : Fault env cfg p e) :
    (∃ w rows, env.stepTokens w rows = .error e ∧ ∀ row ∈ rows, row.Ends p) ∨
      cfg.preemption = false ∧ ∃ r ∈ p.sched.running, (p.sched.heap r).finishReason = none ∧
        (p.sched.appendSlot r).1 = false := by
  cases hf with
  | leave r _ hidle hr hfin he => exact absurd he (leave_ne_error h hr hfin e)
  | admitHead r tail _ hbatch hw hcan he =>
    exact absurd he (admit_ne_error h hpos hbooked (by simp [hw]) hcan e)
  | prefill batch rest _ hp he =>
    refine Or.inl ⟨_, _, he, fun row hrow => ?_⟩
    obtain ⟨r, hr, rfl⟩ := List.mem_map.mp hrow
    exact prefillRow_ends (mem_held_of_popped (hp ▸ List.mem_append_left _ hr))
  | decode batch rows _ hrun hrows he =>
    refine Or.inl ⟨_, rows, he, fun row hrow => ?_⟩
    obtain ⟨r, hr, hrow⟩ := exists_of_mem_decodeRows hrows hrow
    exact decodeRow_ends h (hrun r hr) hrow
  | capacity r hidle hr hfin hpre hno =>
    exact Or.inr ⟨hpre, r, hr, Request.not_finished_iff.mp hfin, hno⟩
  | preempt r _ hidle hr hpre he => exact absurd he (preempt_ne_error h hr e)
  | decodeRow r _ hidle hr he => exact absurd he (decodeRow_ne_error h hr e)
  | recordStep r hr hdue hzero => exact absurd hzero (total_ne_zero h hr hdue)

end LlmServe
