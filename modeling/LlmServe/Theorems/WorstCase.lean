import LlmServe.Engine.NextToken
import LlmServe.Properties.Workload

/-!
# Worst-case-commit admission never over-commits

Without preemption the paged allocator admits a request only if the pool covers the worst case of
everything it has promised. It never looks at the free list, and blocks are still handed out
one at a time; so the free list is compared with the promises at every point (`promised_le_free`),
and a request that is still growing finds its block.
-/

namespace LlmServe

open Infra Point

variable {σ : Type} {env : Env σ} {cfg : EngineConfig} {m : Manager} {w : σ} {p : Point σ}

/-- A holder of memory has an entry in its table. -/
theorem Good.table_ne_nil (h : Good cfg m p) {r : Ref} (hr : r ∈ p.held)
    (hprompt : 1 ≤ (p.sched.heap r).promptTokenIds.length) : (p.sched.heap r).blockTable ≠ [] := by
  have hfacts := h.facts r
  have hholds := h.holds_of_held hr
  have hlen : 0 < m.unitsNeeded (p.sched.heap r).seqLen :=
    m.unitsNeeded_pos (by simp only [Request.seqLen]; omega)
  have hgrown : 0 < (p.sched.heap r).outputTokenIds.length →
      0 < m.unitsNeeded (((p.sched.heap r).seqLen : Int) - 1) := fun hout =>
    m.unitsNeeded_pos (by simp only [Request.seqLen]; omega)
  have hstored : m.unitsNeeded (((p.sched.heap r).seqLen : Int) - 1)
    ≤ ((p.sched.heap r).blockTable.length : Int) := hfacts.table.stored hholds
  have hpos : 0 < ((p.sched.heap r).blockTable.length : Int) := by
    rcases hholds with hpop | hbat | hrun
    · exact hlen.trans_le (hfacts.table.popped hpop)
    · cases hdue : (p.view r).due with
      | true => exact hlen.trans_le (hfacts.table.due hdue)
      | false =>
        exact (hgrown (Nat.zero_lt_of_lt (hfacts.counted.lt_batch hbat hdue))).trans_le hstored
    · exact (hgrown (Nat.zero_lt_of_lt (hfacts.counted.lt_running hrun))).trans_le hstored
  exact List.ne_nil_of_length_pos (by omega)

theorem Good.mem_held_iff (h : Good cfg m p)
    (hprompt : ∀ r < p.sched.next, 1 ≤ (p.sched.heap r).promptTokenIds.length) {r : Ref}
    (hr : r < p.sched.next) : r ∈ p.held ↔ (p.sched.heap r).blockTable ≠ [] := by
  refine ⟨fun hh => h.table_ne_nil hh (hprompt r hr), fun hne => ?_⟩
  by_contra hno
  exact hne ((h.facts r).table.nil fun hholds => hno (mem_held_of_holds hholds))

/-- The books read by id: the keys are the ids of those holding memory. -/
theorem Accounted.mem_keys_iff (ha : Accounted m p) (hpaged : m.paged = true) {id : String} :
    id ∈ p.sched.manager.committed.keys ↔ ∃ r ∈ p.held, (p.sched.heap r).requestId = id := by
  rw [(Dict.keys_perm (ha.committed hpaged)).mem_iff, committedEntries, List.map_map]
  exact List.mem_map

theorem Accounted.mem_entries (ha : Accounted m p) (hpaged : m.paged = true) {r : Ref}
    (hr : r ∈ p.held) : ((p.sched.heap r).requestId, m.worst (p.sched.heap r)) ∈
      p.sched.manager.committed.entries :=
  (ha.committed hpaged).mem_iff.mpr
    (List.mem_map_of_mem (f := fun r => ((p.sched.heap r).requestId, m.worst (p.sched.heap r))) hr)

/-- Without preemption no move counts an eviction. -/
theorem preemptCount_move (hcfg : cfg.preemption = false) {r : Ref} {v v' : View}
    (hmv : Move cfg m r v v') (h : v.req.preemptCount = 0) : v'.req.preemptCount = 0 := by
  cases hmv with
  | create n hphase => rfl
  | emit now tok hdue => rwa [Request.emit_preemptCount]
  | preempt hphase hdue hopen hpre => exact absurd (hcfg.symm.trans hpre) nofun
  | _ => exact h

/-- What worst-case admission guarantees at one point. -/
structure NeverOvercommits (m : Manager) (p : Point σ) : Prop where
  sum_le : p.sched.manager.committed.values.sum ≤ m.units
  /-- The keys are the ids of the requests that hold blocks. -/
  keys : ∀ id, id ∈ p.sched.manager.committed.keys ↔
    ∃ r < p.sched.next, (p.sched.heap r).blockTable ≠ [] ∧ (p.sched.heap r).requestId = id
  entry : ∀ r < p.sched.next, (p.sched.heap r).blockTable ≠ [] →
    ∃ c, ((p.sched.heap r).requestId, c) ∈ p.sched.manager.committed.entries ∧
      ((p.sched.heap r).blockTable.length : Int) ≤ c
  /-- `append_slot` answers `true` wherever `_ensure_capacity` asks. -/
  grows : p.Idle → ∀ r ∈ p.sched.running, (p.sched.heap r).finished = false →
    (p.sched.appendSlot r).1 = true
  unpreempted : ∀ r, (p.sched.heap r).preemptCount = 0

theorem neverOvercommits_of_booked (h : Good cfg m p) (hb : Booked m p) (hpos : Positive p)
    (hprompt : ∀ r < p.sched.next, 1 ≤ (p.sched.heap r).promptTokenIds.length)
    (hres : m.reserves = true) (hzero : ∀ r, (p.sched.heap r).preemptCount = 0) :
    NeverOvercommits m p := by
  have hpaged := Manager.reserves_paged hres
  have hlt : ∀ r ∈ p.held, r < p.sched.next := fun r hr =>
    h.placed.lt_next r (mem_placed_of_held hr)
  refine ⟨?_, fun id => ?_, fun r hr ht => ?_, fun _ r hr hfin => ?_, hzero⟩
  · rw [hb.accounted.sum_committed hpaged]
    exact hb.promised hres
  · rw [hb.accounted.mem_keys_iff hpaged]
    constructor
    · rintro ⟨r, hr, hid⟩
      exact ⟨r, hlt r hr, h.table_ne_nil hr (hprompt r (hlt r hr)), hid⟩
    · rintro ⟨r, hr, ht, hid⟩
      exact ⟨r, (h.mem_held_iff hprompt hr).mpr ht, hid⟩
  · have hheld := (h.mem_held_iff hprompt hr).mpr ht
    exact ⟨_, hb.accounted.mem_entries hpaged hheld, h.tablesFit hpos _ hheld⟩
  · exact grow_succeeds h hpos (hb.promised hres) (mem_held_of_running hr)
      (Request.not_finished_iff.mp hfin)

/--
**Worst-case-commit admission never over-commits.** In a run of the paged engine without
preemption, over requests with distinct ids, at every point: the committed blocks fit in the pool,
they are those of the requests holding blocks, no table outgrows its entry, `append_slot` finds the
block it needs, and nobody has been preempted. A step raises only what the forward pass raises.
-/
theorem worst_case_commit_never_overcommits (hm : m.Fresh) (hres : m.reserves = true)
    (hcfg : cfg.preemption = false) {acts : List Action} {s : Scheduler σ}
    (hvalid : ∀ n ∈ submitted acts, n.Valid)
    (hids : ((submitted acts).map NewRequest.requestId).Nodup)
    (hrun : run (Scheduler.act env cfg) (.init cfg m w) acts = .ok s) :
    (∀ p, Inside env cfg s p → NeverOvercommits m p) ∧
      ∀ e, s.step env cfg = .error e → ∃ w rows, env.stepTokens w rows = .error e := by
  have hstart : Good cfg m (rest (.init cfg m w : Scheduler σ) []) := .init hm w
  have hpoint : ∀ p, Inside env cfg s p → Good cfg m p ∧ NeverOvercommits m p := by
    intro p hp
    have hreach := (run_reach hm hrun).trans hp.reach
    have hgood := hstart.ops hreach
    refine ⟨hgood, neverOvercommits_of_booked hgood (hp.booked hm hrun hvalid hids)
      (hp.positive hm hrun hvalid) (fun r hr => (hp.valid hm hrun hvalid hr).1) hres fun r => ?_⟩
    exact view_of_reach hm hreach r (fun _ _ hmv _ => preemptCount_move hcfg hmv) rfl
  refine ⟨fun p hp => (hpoint p hp).2, fun e he => ?_⟩
  have hout := step_outcome env s [] (run_good hm hrun).placed (stepKeeps_true env cfg [] s)
  rw [he] at hout
  obtain ⟨p, hops, hfault⟩ := hout
  have hp := Inside.of_stepOps hops
  obtain ⟨hgood, hnever⟩ := hpoint p hp
  have hbooked := hp.booked hm hrun hvalid hids
  rcases fault_cases hgood (hp.positive hm hrun hvalid) (fun _ => hbooked.accounted) hfault with
    ⟨w', rows, hforward, -⟩ | ⟨-, r, hr, hopen, hno⟩
  · exact ⟨w', rows, hforward⟩
  · have htrue := grow_succeeds hgood (hp.positive hm hrun hvalid) (hbooked.promised hres)
      (mem_held_of_running hr) hopen
    exact absurd (htrue.symm.trans hno) nofun

/-- Two requests whose worst cases fill six blocks; a third would not fit and waits. -/
theorem worst_case_commit_never_overcommits_full :
    ∃ s, run (Scheduler.act (Env.ofNext fun toks => toks.length) {})
        (.init {} (.block (.new 6 1 Nat.one_pos true)) .start)
        [.submit { requestId := "a", promptTokenIds := [1], maxNewTokens := 2 },
          .submit { requestId := "b", promptTokenIds := [2], maxNewTokens := 2 },
          .submit { requestId := "c", promptTokenIds := [3], maxNewTokens := 1 }, .step, .step]
        = .ok s ∧ NeverOvercommits (.block (.new 6 1 Nat.one_pos true)) (rest s []) :=
  exists_ok_and (by decide +kernel) fun s hs =>
    (worst_case_commit_never_overcommits (Manager.fresh_block_new ..) rfl rfl
      (by
        intro n hn
        simp only [submitted, List.filterMap_cons, List.filterMap_nil, List.mem_cons,
          List.not_mem_nil, or_false] at hn
        rcases hn with rfl | rfl | rfl <;> constructor <;> decide)
      (by decide) hs).1 _ (.refl s)

end LlmServe
