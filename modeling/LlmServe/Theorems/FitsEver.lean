import LlmServe.Properties.Alone
import LlmServe.Theorems.Drains

/-!
# What `fits_ever` refuses

`fits_ever` asks for room for the prompt and all new tokens, but the last token is never stored.
Alone on the engine a request completes exactly if the pool holds all its tokens but that one
(`completesAlone_iff`). The two differ where the pool is filled to the last cell by then.
-/

namespace LlmServe

open Infra Point

variable {σ : Type} {env : Env σ} {cfg : EngineConfig} {m : Manager} {w : σ} {n : NewRequest}

/-- Submitted alone to an empty engine, `n` gets all its tokens and is never evicted. -/
def CompletesAlone (env : Env σ) (cfg : EngineConfig) (m : Manager) (w : σ) (n : NewRequest) :
    Prop :=
  ∃ s, Round env cfg m w [n] s ∧ (s.heap 0).finishReason = some .length ∧
    ((s.heap 0).outputTokenIds.length : Int) = n.maxNewTokens ∧ (s.heap 0).preemptCount = 0

/-- Every token but the last was stored. -/
theorem CompletesAlone.stored (hm : m.Fresh) (hpos : 1 ≤ n.maxNewTokens)
    (h : CompletesAlone env cfg m w n) :
    m.unitsNeeded (n.promptTokenIds.length + n.maxNewTokens - 1) ≤ m.units := by
  obtain ⟨s, ⟨k, hk⟩, -, hout, -⟩ := h
  have hne : (s.heap 0).outputTokenIds ≠ [] := List.ne_nil_of_length_pos (by omega)
  have hlen := oldTokensFit hm (run_reach hm hk) 0 hne
  obtain ⟨n', hn', hev⟩ := (run_provenance hm hk).request (r := 0) (by
    rw [(run_provenance hm hk).next, submitted_batch]
    exact Nat.one_pos)
  rw [submitted_batch] at hn'
  cases hn'
  have hprompt : (s.heap 0).promptTokenIds = n.promptTokenIds := hev.promptTokenIds
  change m.unitsNeeded (((s.heap 0).seqLen : Nat) - 1) ≤ m.units at hlen
  rw [Request.seqLen, hprompt] at hlen
  push_cast at hlen
  rwa [hout] at hlen

/-! ## The run -/

theorem arrived_accept (hig : n.ignoreEos = true) (hc : n.cancelled = false)
    (hpos : 1 ≤ n.maxNewTokens) (hcap : n.capped = n.maxNewTokens) :
    Arrived n ((Scheduler.init cfg m w).accept n) := by
  have hheap : ((Scheduler.init cfg m w).accept n).heap 0 = n.toRequest.submitted := by
    rw [accept_heap]
    exact Function.update_self ..
  refine ⟨rfl, rfl, ?_⟩
  rw [hheap]
  exact ⟨rfl, hcap, hig, hc, rfl, rfl, (if_neg (by push_cast; omega)).symm⟩

/-- **A request that ignores EOS gets a token a step**, and one more in the first. -/
theorem alone_rounds (hm : m.Fresh) (hp : m.paged = true) (hres : m.reserves = false)
    (hbatch : 1 ≤ cfg.maxBatch) (hpre : cfg.preemption = true) (henv : env.Answers)
    (hvalid : n.Valid) (hcap : n.capped = n.maxNewTokens) (hig : n.ignoreEos = true)
    (hc : n.cancelled = false)
    (hfits : m.unitsNeeded (n.promptTokenIds.length + (n.maxNewTokens - 1)) ≤ m.units) {k : Nat}
    (hk : 1 ≤ k) (hlast : (k : Int) ≤ max 1 (n.maxNewTokens - 1)) :
    ∃ (s : Scheduler σ) (j : Nat), run (Scheduler.act env cfg) (.init cfg m w)
        ([n].map .submit ++ List.replicate k .step) = .ok s ∧
      (j : Int) = min ((k : Int) + 1) n.maxNewTokens ∧ Alone n j s := by
  have hpos := hvalid.maxNew_pos
  -- no step raises
  have hnext : ∀ {k : Nat} {s : Scheduler σ}, run (Scheduler.act env cfg) (.init cfg m w)
      ([n].map .submit ++ List.replicate k .step) = .ok s → ∃ s', s.step env cfg = .ok s' ∧
        run (Scheduler.act env cfg) (.init cfg m w)
          ([n].map .submit ++ List.replicate (k + 1) .step) = .ok s' := by
    intro k s hs
    obtain ⟨s', hs'⟩ := step_isOk_of_preemption hm hpre hres henv hs
      (by rw [submitted_batch]; simpa using hvalid)
    refine ⟨s', hs', ?_⟩
    rw [List.replicate_succ', ← List.append_assoc, run_snoc, hs]
    exact hs'
  induction k, hk using Nat.le_induction with
  | base =>
    have hstart : run (Scheduler.act env cfg) (.init cfg m w)
        ([n].map .submit ++ List.replicate 0 .step) = .ok ((Scheduler.init cfg m w).accept n) := rfl
    obtain ⟨s', hstep, hs'⟩ := hnext hstart
    obtain ⟨j, hj⟩ := Int.eq_ofNat_of_zero_le (show 0 ≤ min 2 n.maxNewTokens by omega)
    refine ⟨s', j, hs', hj.symm, ?_⟩
    exact arrived_step (run_good hm hstart) hp hres hbatch (arrived_accept hig hc hpos hcap) hpos
      hj.symm hfits hstep
  | succ k hk ih =>
    obtain ⟨s, j, hs, hj, hone⟩ := ih (by omega)
    obtain ⟨s', hstep, hs'⟩ := hnext hs
    refine ⟨s', j + 1, hs', by push_cast at hlast ⊢; omega, ?_⟩
    refine alone_step (run_good hm hs) hone (by omega) ((m.unitsNeeded_mono ?_).trans hfits) hstep
    omega

/-- **Alone on the engine a request completes exactly if the pool stores all its tokens but the
last.** -/
theorem completesAlone_iff (hm : m.Fresh) (hp : m.paged = true) (hres : m.reserves = false)
    (hbatch : 1 ≤ cfg.maxBatch) (hpre : cfg.preemption = true) (henv : env.Answers)
    (hvalid : n.Valid) (hcap : n.capped = n.maxNewTokens) (hig : n.ignoreEos = true)
    (hc : n.cancelled = false) : CompletesAlone env cfg m w n ↔
      m.unitsNeeded (n.promptTokenIds.length + n.maxNewTokens - 1) ≤ m.units := by
  have hpos := hvalid.maxNew_pos
  refine ⟨fun h => h.stored hm hpos, fun hfits => ?_⟩
  obtain ⟨k, hk⟩ := Int.eq_ofNat_of_zero_le (show 0 ≤ max 1 (n.maxNewTokens - 1) by omega)
  obtain ⟨s, j, hs, hj, hone⟩ := alone_rounds hm hp hres hbatch hpre henv hvalid hcap hig hc
    (by rwa [← add_sub_assoc]) (k := k) (by omega) hk.ge
  have hj : (j : Int) = n.maxNewTokens := by omega
  exact ⟨s, ⟨k, hs⟩, by rw [hone.served.reason, if_pos hj.ge], by rw [hone.served.output, hj],
    hone.served.preemptCount⟩

/-- **When `fits_ever` is exact.** It refuses exactly the requests that cannot complete, unless
their tokens without the last fill the pool to the last cell: such a request is refused and would
complete. -/
theorem fits_ever_exact_iff {numBlocks blockSize : Nat} (hbs : 0 < blockSize)
    (hbatch : 1 ≤ cfg.maxBatch) (hpre : cfg.preemption = true) (henv : env.Answers)
    (hprompt : 1 ≤ n.promptTokenIds.length ∧ n.promptTokenIds.length ≤ 1023)
    (hmax : 1 ≤ n.maxNewTokens ∧ n.maxNewTokens ≤ 1024 - n.promptTokenIds.length)
    (hig : n.ignoreEos = true) (hc : n.cancelled = false) :
    (((BlockManager.new numBlocks blockSize hbs false).fitsEver n.promptTokenIds.length
          n.maxNewTokens = true ↔
        CompletesAlone env cfg (.block (.new numBlocks blockSize hbs false)) w n) ↔
      (numBlocks : Int) * blockSize ≠ n.promptTokenIds.length + n.maxNewTokens - 1) := by
  have hcap : n.capped = n.maxNewTokens := by
    simp only [NewRequest.capped, maxContext]
    omega
  have hdone := completesAlone_iff (w := w) (Manager.fresh_block_new numBlocks blockSize hbs false)
    rfl rfl hbatch hpre henv ⟨hprompt.1, hprompt.2, hmax.1⟩ hcap hig hc
  rw [hdone, BlockManager.fitsEver, decide_eq_true_eq, BlockManager.blocksNeeded_le_iff]
  change (_ ↔ (BlockManager.new numBlocks blockSize hbs false).blocksNeeded _ ≤ (numBlocks : Int)) ↔ _
  rw [BlockManager.blocksNeeded_le_iff]
  change (n.promptTokenIds.length + n.maxNewTokens ≤ (numBlocks : Int) * blockSize ↔
    _ ≤ (numBlocks : Int) * blockSize) ↔ _
  omega

/-- A pool with a block to spare. -/
theorem fits_ever_exact_iff_three :
    ((BlockManager.new 3 2 Nat.two_pos false).fitsEver 3 2 = true ↔
        CompletesAlone (Env.ofNext fun toks => toks.length) { preemption := true }
          (.block (.new 3 2 Nat.two_pos false)) .start
          { requestId := "a", promptTokenIds := [1, 2, 3], maxNewTokens := 2, ignoreEos := true }) ↔
      ((3 : Nat) : Int) * (2 : Nat) ≠ (3 : Nat) + 2 - 1 :=
  fits_ever_exact_iff
    (n := { requestId := "a", promptTokenIds := [1, 2, 3], maxNewTokens := 2, ignoreEos := true })
    Nat.two_pos (by decide) rfl (Env.ofNext_answers _) (by decide) (by decide) rfl rfl

/-- Three prompt tokens and the first new one fill two blocks of two; the second new token is the
last and is never stored. `fits_ever` refuses the request, and it completes in the first step. -/
theorem fits_ever_refuses_what_completes :
    (BlockManager.new 2 2 Nat.two_pos false).fitsEver 3 2 = false ∧
      CompletesAlone (Env.ofNext fun toks => toks.length) { preemption := true }
        (.block (.new 2 2 Nat.two_pos false)) .start
        { requestId := "a", promptTokenIds := [1, 2, 3], maxNewTokens := 2, ignoreEos := true } := by
  refine ⟨by decide, ?_⟩
  obtain ⟨s, hs, hend⟩ : ∃ s, run (Scheduler.act (Env.ofNext fun toks => toks.length)
        { preemption := true }) (.init { preemption := true } (.block (.new 2 2 Nat.two_pos false))
        .start)
        [.submit
          { requestId := "a", promptTokenIds := [1, 2, 3], maxNewTokens := 2, ignoreEos := true },
          .step] = .ok s ∧
      (s.heap 0).finishReason = some .length ∧ ((s.heap 0).outputTokenIds.length : Int) = 2 ∧
        (s.heap 0).preemptCount = 0 := by decide +kernel
  exact ⟨s, ⟨1, hs⟩, hend⟩

end LlmServe
