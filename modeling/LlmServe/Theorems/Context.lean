import LlmServe.Engine.NextToken
import LlmServe.Properties.Context
import LlmServe.Properties.NaiveLines
import LlmServe.Properties.Storage
import LlmServe.Spec.Runs

/-!
# The context is never overrun

What a forward pass feeds ends at the newest token of each request, so the bound on the length of a
request bounds every position (`Pass.withinContext`): `positions()` clamps no position of a token, a
slot is long enough, and the blocks of a row reach its last position. The naive backend stops at
the context by itself.
-/

namespace LlmServe

open Infra Point

variable {σ τ : Type} {env : Env σ} {cfg : EngineConfig} {adm : Point σ → Ref → Prop} {m : Manager}
  {p p' : Point σ} {w : σ}

/-- The rows of a forward pass keep to the context, to their slots and to their block tables. -/
structure WithinContext (m : Manager) (rows : List Row) : Prop where
  position_le : ∀ row ∈ rows, ∀ c < row.len, row.start + c ≤ 1023
  /-- `positions()` is exact on the column of a token. -/
  unclamped : ∀ a, BatchAccess.new (rows.map Row.start) (rows.map Row.len) = .ok a →
    ∀ (i : Nat) (row : Row), rows[i]? = some row → ∀ c < row.len,
      a.positions i c = row.start + c
  slot : m.paged = false → ∀ row ∈ rows, ∀ j < row.total, j < maxLen
  block : ∀ b, m = .block b → ∀ row ∈ rows, ∀ j < row.total,
    j / b.blockSize < row.blockTable.length

theorem Pass.withinContext {batch : List Ref} {rows : List Row} {nxt : List Token}
    (h : Pass env p p' batch rows nxt) (hgood : Good cfg m p)
    (hlen : ∀ r < p.sched.next, (p.sched.heap r).seqLen ≤ maxContext) : WithinContext m rows := by
  have hrow : ∀ row ∈ rows, row.total ≤ maxContext := by
    intro row hr
    obtain ⟨hof, hb⟩ := h.rowOf hr
    rw [hof.total, Request.length_tokens]
    exact hlen _ (hgood.placed.lt_next _ (mem_placed_of_held (h.held _ hb)))
  have hpos : ∀ row ∈ rows, ∀ c < row.len, row.start + c ≤ 1023 := by
    intro row hr c hc
    have htot := hrow row hr
    simp only [Row.total, maxContext] at htot
    omega
  refine ⟨hpos, fun a ha i row hi c hc => ?_, fun _ row hr j hj => ?_, fun b hm row hr j hj => ?_⟩
  · -- the clamp is at 1023, so it is the identity here
    have hle := hpos row (List.mem_of_getElem? hi) c hc
    rw [BatchAccess.positions, (laid_new ha).1, List.getD_eq_getElem?_getD, List.getElem?_map, hi]
    show min (row.start + c) (maxLen - 1) = row.start + c
    simp only [maxLen]
    omega
  · exact hj.trans_le (hrow row hr)
  · obtain ⟨hof, hb⟩ := h.rowOf hr
    subst hm
    have hcov := h.covered _ hb hgood.shape.paged
    rw [hgood.shape.unitsNeeded] at hcov
    have hle := (b.blocksNeeded_le_iff).mp hcov
    rw [hof.blockTable]
    rw [hof.total, Request.length_tokens] at hj
    refine (Nat.div_lt_iff_lt_mul b.blockSize_pos).mpr (hj.trans_le ?_)
    exact_mod_cast hle

/-- The naive loop feeds a request only while it has room left. -/
theorem NaiveThread.loop_feeds {runner : Runner τ} {t : NaiveThread τ} {r : Ref} {tok : Token}
    (h : (t.loop runner r).pc = .stamp r tok) :
    tok = runner.nextToken (t.sched.heap r).tokens ∧
      (t.sched.heap r).tokens.length < maxContext := by
  unfold loop at h
  dsimp only at h
  split at h
  · split at h
    · cases h
    · next hgo =>
      cases h
      rw [Request.length_tokens]
      exact ⟨rfl, Nat.lt_of_not_le fun hle => hgo (Or.inl hle)⟩
  · cases h

/-- **The context is never overrun.** At every point the batched engine gets to, in the middle of
a step too, no request is longer than the context, and the next small step is a forward pass that
keeps to it or feeds nobody. The naive backend keeps to it as well. -/
theorem context_never_overrun {runner : Runner τ} {v : τ} {acts : List NaiveAction}
    {t : NaiveThread τ} (hm : m.Fresh) (hreach : Reach env cfg (rest (.init cfg m w) []) p)
    (hprompt : ∀ r < p.sched.next, 1 ≤ (p.sched.heap r).promptTokenIds.length ∧
      (p.sched.heap r).promptTokenIds.length ≤ 1023)
    (hnew : ∀ n, .create n ∈ acts → 1 ≤ n.promptTokenIds.length ∧ n.promptTokenIds.length ≤ 1023)
    (hrun : run (NaiveThread.act runner) (.init v) acts = .ok t) :
    ((∀ r < p.sched.next, (p.sched.heap r).seqLen ≤ maxContext) ∧
      ∀ p', Op env cfg (fun _ _ => True) p p' →
        (∃ batch rows nxt, Pass env p p' batch rows nxt ∧ WithinContext m rows) ∨ Quiet env p p') ∧
    (∀ r, (t.sched.heap r).seqLen ≤ maxContext) ∧
      ∀ r tok, (t.loop runner r).pc = .stamp r tok →
        tok = runner.nextToken (t.sched.heap r).tokens ∧
          (t.sched.heap r).tokens.length < maxContext := by
  have hgood : Good cfg m p := Good.ops (.init hm w) hreach
  have hlen : ∀ r < p.sched.next, (p.sched.heap r).seqLen ≤ maxContext := fun r hr =>
    seqLen_le_maxContext hm hreach hr (hprompt r hr).2
  refine ⟨⟨hlen, fun p' hop => ?_⟩, ?_, fun _ _ => NaiveThread.loop_feeds⟩
  · rcases op_pass_or_quiet hop hgood with ⟨batch, rows, nxt, hpass⟩ | hquiet
    · exact Or.inl ⟨batch, rows, nxt, hpass, hpass.withinContext hgood hlen⟩
    · exact Or.inr hquiet
  · exact NaiveThread.run_fits (fun n hn => (hnew n hn).2) hrun

/-- A limit below zero, an eviction, and a naive request in the middle of its loop. -/
theorem context_never_overrun_evicted :
    ∃ s, run (Scheduler.act (Env.ofNext fun toks => toks.length) { preemption := true })
        (.init { preemption := true } (.block (.new 3 2 Nat.two_pos false)) .start)
        [.submit { requestId := "a", promptTokenIds := [1, 2], maxNewTokens := 9 },
          .submit { requestId := "b", promptTokenIds := [3, 4], maxNewTokens := -1 },
          .submit { requestId := "c", promptTokenIds := [5], maxNewTokens := 4 },
          .step, .step] = .ok s ∧
      ∀ r < s.next, (s.heap r).seqLen ≤ maxContext := by
  obtain ⟨s, hs, hprompt⟩ : ∃ s, run (Scheduler.act (Env.ofNext fun toks => toks.length)
        { preemption := true })
      (.init { preemption := true } (.block (.new 3 2 Nat.two_pos false)) .start)
      [.submit { requestId := "a", promptTokenIds := [1, 2], maxNewTokens := 9 },
        .submit { requestId := "b", promptTokenIds := [3, 4], maxNewTokens := -1 },
        .submit { requestId := "c", promptTokenIds := [5], maxNewTokens := 4 },
        .step, .step] = .ok s ∧
      ∀ r < s.next, 1 ≤ (s.heap r).promptTokenIds.length ∧
        (s.heap r).promptTokenIds.length ≤ 1023 := by decide +kernel
  have hnaive : run (NaiveThread.act ⟨fun now => (now, now + 1), fun toks => toks.length⟩)
      (.init 0) [.create { requestId := "d", promptTokenIds := [6], maxNewTokens := 2 }, .submit,
        .advance, .advance, .advance, .advance] = .ok _ := rfl
  refine ⟨s, hs, ((context_never_overrun (Manager.fresh_block_new ..)
    (run_reach (Manager.fresh_block_new ..) hs) hprompt ?_ hnaive).1).1⟩
  simp

end LlmServe
