import LlmServe.Engine.NextToken
import LlmServe.Properties.Progress
import LlmServe.Properties.Batches
import Mathlib.Data.Rat.Floor

/-!
# Memory tracks tokens exactly

A row reaches the end of a step with its first token just emitted, with one token more than before,
or untouched because it is finished. On each way its table holds the blocks of all its tokens but
the newest (`Exact`): that one owns no storage until it is fed.
-/

namespace LlmServe

open Infra Point

variable {σ : Type} {env : Env σ} {cfg : EngineConfig} {m : Manager} {w : σ} {s s' : Scheduler σ}

/-- Every running request holds the units of its stored tokens. -/
def Exact (m : Manager) (s : Scheduler σ) : Prop :=
  ∀ r ∈ s.running,
    ((s.heap r).blockTable.length : Int) = m.unitsNeeded ((s.heap r).seqLen - 1)

theorem BlockManager.blocksNeeded_eq_ceil (b : BlockManager) (n : Int) :
    b.blocksNeeded n = ⌈(n : ℚ) / b.blockSize⌉ := (Rat.ceil_intCast_div_natCast n b.blockSize).symm

/-- A request that got the units of its tokens and then one more token. -/
theorem exact_emit {q : Request} {now : Time} {tok : Token}
    (h : (q.blockTable.length : Int) = m.unitsNeeded q.seqLen) :
    ((q.emit now tok).blockTable.length : Int) =
      m.unitsNeeded (((q.emit now tok).seqLen : Nat) - 1) := by
  rw [Request.emit_blockTable, Request.emit_seqLen, h, Nat.cast_add_one, Int.add_sub_cancel]

/-! ## One step -/

theorem Retired.exact (h : Retired s s') (he : Exact m s) : Exact m s' := by
  intro r hr
  obtain ⟨hrun, hopen⟩ := (h.running r).mp hr
  rw [h.heap r hopen]
  exact he r hrun

theorem AdmittedAll.exact {batch : List Ref} (h : AdmittedAll s s' batch)
    (hm : s.manager.unitsNeeded = m.unitsNeeded) (hnd : s'.running.Nodup) (he : Exact m s) :
    Exact m s' := by
  intro r hr
  rw [h.running] at hr hnd
  rcases List.mem_append.mp hr with hr | hr
  · rw [h.other r fun hb => (List.nodup_append.mp hnd).2.2 r hr r hb rfl]
    exact he r hr
  · obtain ⟨blocks, seq, st, now, tok, hq, hlen⟩ := h.admitted r hr
    rw [hq]
    exact exact_emit (hm ▸ hlen)

theorem Decoded.exact {rows out : List Ref} (h : Decoded s s' rows out)
    (hp : s.manager.paged = true) (hm : s.manager.unitsNeeded = m.unitsNeeded)
    (hnd : s.running.Nodup) (he : Exact m s) : Exact m s' := by
  intro r hr
  have hrun : r ∈ s.running := h.running.mem_iff.mpr (List.mem_append_left _ hr)
  by_cases hopen : r ∈ s.openRows
  · have hrow : r ∈ rows := by
      refine (List.mem_append.mp (h.perm.mem_iff.mp hopen)).resolve_right fun hout => ?_
      exact (List.nodup_append.mp (h.running.nodup_iff.mp hnd)).2.2 r hr r hout rfl
    obtain ⟨blocks, st, now, tok, hq, hlen⟩ := h.served r hrow
    rw [hq]
    exact exact_emit (hm ▸ hlen hp)
  · rw [h.other r hopen]
    exact he r hrun

/-- **A completed step keeps the tables exact**, in either mode, with or without evictions. -/
theorem exact_step (hp : m.paged = true) (hgood : Good cfg m (rest s [])) (he : Exact m s)
    (h : s.step env cfg = .ok s') : Exact m s' := by
  obtain ⟨s₁, s₂, hret, hadmits, hdecode, hops₁, hops₂, -⟩ := step_parts hgood h
  have hgood₁ := hgood.ops (ops_of_stepOps hops₁)
  have hgood₂ := hgood₁.ops (ops_of_stepOps hops₂)
  have he₁ := hret.exact he
  have he₂ : Exact m s₂ := by
    rcases admit_batch hgood₁.placed.waiting_nodup hadmits with ⟨-, -, rfl⟩ | ⟨batch, -, -, -, -, hall⟩
    · exact he₁
    · exact hall.exact hgood₁.shape.unitsNeeded hgood₂.placed.running_nodup he₁
  obtain ⟨rows, out, hdec, -⟩ := decode_rows hgood₂ hdecode
  exact hdec.exact (hgood₂.shape.paged.trans hp) hgood₂.shape.unitsNeeded
    hgood₂.placed.running_nodup he₂

/-! ## A whole run -/

theorem run_exact (hm : m.Fresh) (hp : m.paged = true) {acts : List Action}
    (hrun : run (Scheduler.act env cfg) (.init cfg m w) acts = .ok s) : Exact m s := by
  refine run_invariant (P := fun _ s => Exact m s) (Q := fun _ => True) (fun _ _ => id)
    (fun r hr => absurd hr List.not_mem_nil) (fun acts a s s' _ hs he ha => ?_) trivial hrun
  have hgood := run_good hm hs
  cases a with
  | submit n =>
    cases ha
    intro r hr
    have hne : r ≠ s.next := (hgood.placed.lt_next r (mem_placed_of_held (mem_held_of_running hr))).ne
    rw [accept_heap, Function.update_of_ne hne]
    exact he r hr
  | cancel x =>
    cases ha
    split
    · intro r hr
      have hsame : ((s.cancel x).heap r).blockTable = (s.heap r).blockTable ∧
          ((s.cancel x).heap r).seqLen = (s.heap r).seqLen :=
        ⟨apply_update Request.blockTable (by rfl) r, apply_update Request.seqLen (by rfl) r⟩
      rw [hsame.1, hsame.2]
      exact he r hr
    · exact he
  | step => exact exact_step hp hgood he ha

/-- What `append_slot` answers for a running request: one block will do, and without it nothing
changes. -/
structure AsksForOne (s : Scheduler σ) (r : Ref) : Prop where
  need_le : s.manager.unitsNeeded (s.heap r).seqLen ≤ (s.heap r).blockTable.length + 1
  unchanged : (s.appendSlot r).1 = false → s.appendSlot r = (false, s)

/-- A failed `append_slot` found the pool empty before it took anything. -/
theorem appendSlot_unchanged {r : Ref}
    (hone : s.manager.unitsNeeded (s.heap r).seqLen ≤ (s.heap r).blockTable.length + 1)
    (hno : (s.appendSlot r).1 = false) : s.appendSlot r = (false, s) := by
  have happ : s.manager.appendSlot (s.heap r) = (false, s.manager, s.heap r) := by
    rw [Scheduler.appendSlot_fst] at hno
    cases hman : s.manager with
    | slot b =>
      -- a slot is never full
      rw [hman] at hno
      cases hno
    | block b =>
      rw [hman] at hno hone
      obtain ⟨blocks, ht, hf, -, hfalse⟩ := BlockManager.appendLoop_spec
        (b.blocksNeeded (s.heap r).seqLen) b.freeBlocks (s.heap r).blockTable
      obtain ⟨hnil, hlt⟩ := hfalse hno
      change b.blocksNeeded (s.heap r).seqLen ≤ _ at hone
      -- short of a need of one block, the loop took none
      have hblocks : blocks = [] := by
        refine List.length_eq_zero_iff.mp ?_
        rw [List.length_append] at hlt
        omega
      rw [hblocks, List.append_nil] at ht
      rw [hblocks, hnil, List.append_nil] at hf
      have hloop : BlockManager.appendLoop (b.blocksNeeded (s.heap r).seqLen) (s.heap r).blockTable
          b.freeBlocks = (false, (s.heap r).blockTable, b.freeBlocks) :=
        Prod.ext hno (Prod.ext ht (hnil.trans hf.symm))
      simp only [Manager.appendSlot, BlockManager.appendSlot, hloop]
  unfold Scheduler.appendSlot
  rw [happ]
  show (false, { s with manager := s.manager, heap := Function.update s.heap r (s.heap r) }) = _
  rw [Function.update_eq_self]

/--
**Memory tracks tokens exactly.** At the end of every completed step of a run of the paged engine,
each running request, finished or not, holds `ceil((seq_len - 1) / block_size)` blocks; and
at every point of the next call `append_slot` needs one block at most, so that an answer of `False`
leaves everything as it was.
-/
theorem memory_tracks_tokens {b : BlockManager} (hm : (Manager.block b).Fresh)
    {acts : List Action} (hrun : run (Scheduler.act env cfg) (.init cfg (.block b) w) acts = .ok s) :
    (∀ r ∈ s.running,
      ((s.heap r).blockTable.length : Int) = ⌈((s.heap r).seqLen - 1 : ℚ) / b.blockSize⌉) ∧
    ∀ p, Reach env cfg (rest s []) p → ∀ r ∈ p.sched.running, AsksForOne p.sched r := by
  refine ⟨fun r hr => ?_, fun p hp r hr => ?_⟩
  · have hexact := run_exact hm rfl hrun r hr
    change _ = b.blocksNeeded _ at hexact
    rw [hexact, BlockManager.blocksNeeded_eq_ceil]
    push_cast
    rfl
  · have hone := ((run_good hm hrun).ops hp).need_le_succ (mem_held_of_running hr)
    exact ⟨hone, appendSlot_unchanged hone⟩

/-- Two prompts that end on a block boundary, and a pool that evicts one of them. -/
theorem memory_tracks_tokens_boundary :
    ∃ s, run (Scheduler.act (Env.ofNext fun toks => toks.length) { preemption := true })
        (.init { preemption := true } (.block (.new 3 2 Nat.two_pos false)) .start)
        [.submit { requestId := "a", promptTokenIds := [1, 2], maxNewTokens := 3 },
          .submit { requestId := "b", promptTokenIds := [3, 4], maxNewTokens := 3 }, .step] = .ok s ∧
      ∀ r ∈ s.running,
        ((s.heap r).blockTable.length : Int) = ⌈((s.heap r).seqLen - 1 : ℚ) / (2 : Nat)⌉ :=
  exists_ok_and (by decide +kernel) fun _ hs =>
    (memory_tracks_tokens (Manager.fresh_block_new ..) hs).1

end LlmServe
