import LlmServe.Spec.Runs
import LlmServe.Engine.NextToken

/-!
# No leak, no double allocation

At every step boundary the free list and the block tables of the running requests are a
rearrangement of all units. The free list may start in any order, the model may answer anything,
requests may share ids.
-/

namespace LlmServe

open Infra Point

variable {σ : Type} {env : Env σ} {cfg : EngineConfig} {m : Manager} {w : σ}

/--
**No leak, no double allocation.** `freeUnits` is `free_blocks` or `free_slots`, `units` is
`num_blocks` or `n_slots`.
-/
theorem no_leak_no_double_allocation (hm : m.Fresh) {acts : List Action} {s : Scheduler σ}
    (hrun : run (Scheduler.act env cfg) (.init cfg m w) acts = .ok s) :
    (s.manager.freeUnits ++ s.running.flatMap fun r => (s.heap r).blockTable).Perm
        (List.range m.units) ∧
      s.running.Nodup ∧
      (∀ r ∈ s.running, ∀ r' ∈ s.running, r ≠ r' →
        (s.heap r).blockTable.Disjoint (s.heap r').blockTable) ∧
      (∀ r ∈ s.waiting, (s.heap r).blockTable = []) ∧
      (m.paged = false → ∀ r ∈ s.running, ∃ slot, (s.heap r).blockTable = [slot]) ∧
      (s.hasWork = false → s.manager.freeUnits.Perm (List.range m.units)) := by
  have hgood := run_good hm hrun
  have hheld : (rest s []).held = s.running := rfl
  have hperm : (owned s.manager.freeUnits s.running fun r => (s.heap r).blockTable).Perm
      (List.range m.units) := hgood.shape.units ▸ hgood.owned
  have hnd : (owned s.manager.freeUnits s.running fun r => (s.heap r).blockTable).Nodup :=
    hperm.nodup_iff.mpr List.nodup_range
  refine ⟨hperm, hgood.placed.running_nodup, fun r hr r' hr' hne => ?_, fun r hr => ?_,
    fun hp r hr => ?_, fun hwork => ?_⟩
  · exact disjoint_of_owned hnd hr hr' hne
  · have hphase := phase_waiting hgood.placed hr
    exact (hgood.facts r).table.nil (by simp [Phase.Holds, view, hphase])
  · exact List.length_eq_one_iff.mp (hgood.oneSlot (hgood.shape.paged.trans hp) r hr)
  · simp only [Scheduler.hasWork, Bool.or_eq_false_iff, Bool.not_eq_false',
      List.isEmpty_iff] at hwork
    rw [owned, hwork.2, List.flatMap_nil, List.append_nil] at hperm
    exact hperm

/-- Two requests with one id overcommit three blocks; the younger is evicted, the other leaves. -/
theorem no_leak_no_double_allocation_overcommit :
    ∃ s, run (Scheduler.act (Env.ofNext fun toks => toks.length) { preemption := true })
        (.init { preemption := true } (.block (.new 3 1 Nat.one_pos false)) .start)
        [.submit { requestId := "a", promptTokenIds := [1], maxNewTokens := 2 },
          .submit { requestId := "a", promptTokenIds := [2], maxNewTokens := 3 }, .step, .step]
        = .ok s ∧
      (s.manager.freeUnits ++ s.running.flatMap fun r => (s.heap r).blockTable).Perm
        (List.range 3) :=
  exists_ok_and (by decide +kernel) fun _ hs =>
    (no_leak_no_double_allocation (Manager.fresh_block_new ..) hs).1

end LlmServe
