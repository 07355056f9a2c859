import LlmServe.Properties.CachedDecode
import LlmServe.Properties.NaiveRun
import LlmServe.Spec.Runs

/-!
# The golden law: a request does not see its batch

`Env.ofModel` runs the transformer through the pool, with the rows, positions and masks of
`step_tokens`. Whatever the scheduler does around a request (batching, block growth, eviction and
recompute, reuse of the blocks of others), what it returns is what decoding the request alone
returns.
-/

namespace LlmServe

open Infra Point

variable {Hidden K V κ τ : Type} {M : Transformer Hidden K V} {clock : κ → Time × κ}
  {cfg : EngineConfig} {m : Manager} {w : RunnerState κ K V} {acts : List Action}
  {s : Scheduler (RunnerState κ K V)}

/-- Valid requests stay within the context. -/
theorem Provenance.inContext (h : Provenance acts s) (hvalid : ∀ n ∈ submitted acts, n.Valid) :
    InContext (rest s []) := by
  intro r hr
  obtain ⟨n, hn, hev⟩ := h.request hr.1
  have hv := hvalid n (List.mem_of_getElem? hn)
  have hprompt : (s.heap r).promptTokenIds = n.promptTokenIds := hev.promptTokenIds
  have hmax : (s.heap r).maxNewTokens = n.capped := hev.maxNewTokens
  have hle : n.capped ≤ maxContext - n.promptTokenIds.length := min_le_right ..
  change 1 ≤ (s.heap r).promptTokenIds.length ∧ 1 ≤ (s.heap r).maxNewTokens ∧
    ((s.heap r).promptTokenIds.length : Int) + (s.heap r).maxNewTokens ≤ maxContext
  rw [hprompt, hmax]
  exact ⟨hv.prompt_pos, hv.capped_pos, by omega⟩

/-- What the scheduler gives to a request it finished. -/
theorem scheduler_ends (hm : m.Fresh) (hpool : w.pool.layout = m.layout)
    (hvalid : ∀ n ∈ submitted acts, n.Valid)
    (hrun : run (Scheduler.act (Env.ofModel M clock) cfg) (.init cfg m w) acts = .ok s) {r : Ref}
    {n : NewRequest} (hr : (submitted acts)[r]? = some n)
    (hfin : (s.heap r).finishReason ≠ none) (hself : (s.heap r).finishReason ≠ some .cancelled) :
    Request.Ends M.next n.promptTokenIds n.capped n.ignoreEos (s.heap r).outputTokenIds := by
  have hprov := run_provenance hm hrun
  have hev := hprov.evolves r n hr
  obtain ⟨hgood, -, hfol⟩ := computed_ops hm hpool (hprov.inContext hvalid) (run_reach hm hrun)
  have hends := hgood.firstStop hfol hfin hself
  change Request.Ends M.next (s.heap r).promptTokenIds (s.heap r).maxNewTokens (s.heap r).ignoreEos
    (s.heap r).outputTokenIds at hends
  rw [hev.promptTokenIds, hev.maxNewTokens, hev.ignoreEos] at hends
  exact hends

/-- A request on which nobody has worked yet, as `run` is given it. -/
theorem ongoing_fresh (runner : Runner τ) (n : NewRequest) (hv : n.Valid) (metrics : EngineMetrics)
    (w' : τ) (trace : List Event) : RunState.Ongoing runner
      { req := { n.toRequest with cancelled := false }, metrics, world := w', trace } where
  live := rfl
  limit_pos := hv.capped_pos
  unrolled := rfl
  goes := fun pre hpre => by rw [List.prefix_nil.mp hpre]; rfl

/-! ## The model that `run` calls -/

/-- The model without a cache answers as the transformer does, for what fits the context. -/
def Runner.Recomputes (runner : Runner τ) (M : Transformer Hidden K V) : Prop :=
  ∀ toks, toks ≠ [] → toks.length ≤ maxContext → runner.nextToken toks = M.next toks

/-- Greedy decoding stays within its limit. -/
theorem ends_length_le {next : List Token → Token} {prompt out : List Token} {maxNew : Int}
    {ignoreEos : Bool} (h : Request.Ends next prompt maxNew ignoreEos out) (hpos : 1 ≤ maxNew) :
    (out.length : Int) ≤ maxNew := by
  rcases List.eq_nil_or_concat out with rfl | ⟨init, tok, rfl⟩
  · exact Int.le_of_lt hpos
  · rw [List.concat_eq_append] at h ⊢
    have hinit := not_not.mp (h.goes init (List.prefix_append _ _) (by simp))
    rw [List.length_append, List.length_singleton]
    rcases Request.lt_of_endReason_none hinit with rfl | hlt
    · exact hpos
    · omega

theorem Runner.Recomputes.ends {runner : Runner τ} (h : runner.Recomputes M) {n : NewRequest}
    (hv : n.Valid) {out : List Token}
    (hends : Request.Ends runner.nextToken n.promptTokenIds n.capped n.ignoreEos out) :
    Request.Ends M.next n.promptTokenIds n.capped n.ignoreEos out := by
  have hle := ends_length_le hends hv.capped_pos
  have hcap : n.capped ≤ maxContext - n.promptTokenIds.length := min_le_right ..
  refine hends.congr fun j hj => h _ ?_ ?_
  · have hne : n.promptTokenIds ≠ [] := List.ne_nil_of_length_pos hv.prompt_pos
    exact fun hnil => hne (List.append_eq_nil_iff.mp hnil).1
  · rw [List.length_append, length_unroll]
    omega

/--
**The golden law.** A request that the scheduler finished, whatever else it served meanwhile, has
the tokens that `generate_cached` returns for it, and those that `run` gives it.
-/
theorem golden_law (hm : m.Fresh) (hpool : w.pool.layout = m.layout)
    (hvalid : ∀ n ∈ submitted acts, n.Valid)
    (hrun : run (Scheduler.act (Env.ofModel M clock) cfg) (.init cfg m w) acts = .ok s)
    {runner : Runner τ} (hrunner : runner.Recomputes M) {r : Ref} {n : NewRequest}
    (hr : (submitted acts)[r]? = some n) (hfin : (s.heap r).finishReason ≠ none)
    (hself : (s.heap r).finishReason ≠ some .cancelled) :
    (∀ cache, M.generateCached cache n.promptTokenIds n.maxNewTokens n.ignoreEos
      = .ok (s.heap r).outputTokenIds) ∧
    ∀ onToken metrics w' trace, ∃ t, RunState.run runner onToken
        { req := { n.toRequest with cancelled := false }, metrics, world := w', trace } = .ok t ∧
      t.req.outputTokenIds = (s.heap r).outputTokenIds := by
  have hv := hvalid n (List.mem_of_getElem? hr)
  have hends := scheduler_ends hm hpool hvalid hrun hr hfin hself
  refine ⟨fun cache => ?_, fun onToken metrics w' trace => ?_⟩
  · obtain ⟨res, hres, hcached⟩ :=
      M.generateCached_ends cache hv.prompt_pos hv.prompt_le n.maxNewTokens n.ignoreEos
    rw [hres, hcached.unique hends]
  · have hkeep : ∀ s, RunState.Ongoing runner s → True →
        (fun _ => True) (s.append runner onToken (s.nextId runner)) := fun _ _ _ => trivial
    obtain ⟨t, u, ht, hrunEnds, -⟩ :=
      RunState.run_ends hkeep (ongoing_fresh runner n hv metrics w' trace) trivial
    exact ⟨t, ht, (hrunner.ends hv hrunEnds).unique hends⟩

def tinyRunner : Runner Nat where
  perfCounter := tinyClock
  nextToken := tiny.next

/-- Two requests in three blocks: the younger is evicted, and the pool starts full of other keys. -/
theorem golden_law_evicted :
    ∃ s, run (Scheduler.act tinyEnv { preemption := true })
        (.init { preemption := true } (.block (.new 3 2 Nat.two_pos false))
          (tinyWorld (.block (.new 3 2 Nat.two_pos false))))
        [.submit { requestId := "a", promptTokenIds := [5, 6], maxNewTokens := 3 },
          .submit { requestId := "b", promptTokenIds := [7], maxNewTokens := 4 },
          .step, .step, .step, .step, .step, .step, .step, .step] = .ok s ∧
      (s.heap 1).preemptCount = 1 ∧
      ∀ cache, tiny.generateCached cache [7] 4 false = .ok (s.heap 1).outputTokenIds := by
  have hrun : ∃ s, run (Scheduler.act tinyEnv { preemption := true })
        (.init { preemption := true } (.block (.new 3 2 Nat.two_pos false))
          (tinyWorld (.block (.new 3 2 Nat.two_pos false))))
        [.submit { requestId := "a", promptTokenIds := [5, 6], maxNewTokens := 3 },
          .submit { requestId := "b", promptTokenIds := [7], maxNewTokens := 4 },
          .step, .step, .step, .step, .step, .step, .step, .step] = .ok s ∧
      (s.heap 1).preemptCount = 1 ∧ (s.heap 1).finishReason = some .length := by
    decide +kernel
  obtain ⟨s, hs, hpre, hfin⟩ := hrun
  have hvalid : ∀ n ∈ [({ requestId := "a", promptTokenIds := [5, 6], maxNewTokens := 3 } :
      NewRequest), { requestId := "b", promptTokenIds := [7], maxNewTokens := 4 }], n.Valid := by
    intro n hn
    rcases List.mem_pair.mp hn with rfl | rfl
    · exact ⟨by decide, by decide, by decide⟩
    · exact ⟨by decide, by decide, by decide⟩
  have hrunner : tinyRunner.Recomputes tiny := fun _ _ _ => rfl
  refine ⟨s, hs, hpre, (golden_law (Manager.fresh_block_new ..) rfl ?_ hs hrunner
    (r := 1) (n := { requestId := "b", promptTokenIds := [7], maxNewTokens := 4 }) rfl ?_ ?_).1⟩
  · exact hvalid
  · rw [hfin]
    exact Option.some_ne_none _
  · rw [hfin]
    nofun

end LlmServe
