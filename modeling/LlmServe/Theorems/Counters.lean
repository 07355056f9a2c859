import LlmServe.Engine.NextToken
import LlmServe.Properties.Counters
import LlmServe.Spec.Operator

/-!
# The counters balance

A call of `/stats/reset` can fall between any two lines of the engine thread, and sets one counter
after the other. It writes nothing but the metrics, so the invariants of the engine hold whatever
calls there are (`operation_valid`). But one that falls into a step takes away what the step has
counted and not what it is about to count, so the counters are compared between moments at which
nothing is half done (`counters_balance`).
-/

namespace LlmServe

open Infra Point Relation

variable {σ : Type} {env : Env σ} {cfg : EngineConfig} {m : Manager} {w : σ}
  {encode : Text → List Token} {calls : ResetCalls} {v v' : Operated σ}

/-! ## The invariants of the engine -/

/-- No invariant is about the metrics. -/
theorem Good.withMetrics {p : Point σ} (h : Good cfg m p) (met : EngineMetrics) :
    Good cfg m { p with sched := { p.sched with metrics := met } } :=
  ⟨{ h.placed with }, h.shape, h.facts, h.stream, h.owned⟩

/-- The invariants of the engine; between its calls of `step`, the engine thread has nothing half done. -/
structure Operated.Valid (cfg : EngineConfig) (m : Manager) (v : Operated σ) : Prop where
  good : Good cfg m v.settled
  stepping : v.stepping = true → v.loop.pc = .work
  outside : v.stepping = false → v.loop.pc ≠ .done → v.AtRest

theorem Operated.Valid.init (hm : m.Fresh) (t₀ : Time) : (Operated.init cfg m w t₀).Valid cfg m where
  good := .init hm w
  stepping := nofun
  outside _ _ := ⟨rfl, rfl, rfl, rfl, rfl⟩

theorem Operated.Valid.point (h : v.Valid cfg m) : Good cfg m v.point := h.good.withMetrics v.metrics

/-- What a handler of `/generate` does, the engine takes at any point of a step. -/
theorem generate_reach (v : Operated σ) (body : GenerateIn) (rid : String) (now : Time) :
    Reach env cfg v.settled
      ({ v with loop := (v.loop.generate encode cfg body rid now).2 } : Operated σ).settled := by
  rcases generate_posts encode cfg v.loop body rid now with he | he | ⟨n, -, he⟩
  · rw [he]
  · rw [he]
    have hop : Op env cfg (fun _ _ => True) v.settled
        { v.settled with sched := { v.settled.sched with
            metrics := v.settled.sched.metrics.write .rejected } } :=
      .step (.count _ _ _ (.line .rejected trivial))
    unfold Operated.settled at hop ⊢
    dsimp only at hop ⊢
    rw [foldl_write_rejected]
    exact .single hop
  · rw [he]
    have hop : Op env cfg (fun _ _ => True) v.settled
        { v.settled with sched := v.settled.sched.create n.toRequest
                         inbox := (v.loop.hand ++ v.loop.inbox) ++ [v.loop.sched.next] } :=
      .create v.settled n
    rw [List.append_assoc] at hop
    exact .single hop

/-- The engine thread has handed over what it took before it calls `step`. -/
theorem Operated.Valid.settled_left (h : v.Valid cfg m) (hin : v.stepping = true) {pc : LoopPc}
    (hpc : pc = .top ∨ pc = .done) :
    ({ v with stepping := false, loop := { v.loop with pc } } : Operated σ).settled = v.settled := by
  have hhand : v.loop.hand = ({ v.loop with pc } : EngineLoop σ).hand := by
    rcases hpc with rfl | rfl <;> simp [EngineLoop.hand, h.stepping hin]
  unfold Operated.settled Operated.point
  rw [← hhand]

theorem advance_done {l l' : EngineLoop σ} (hpc : l.pc = .done)
    (h : l.advance env cfg = .ok l') : l' = l := by
  unfold EngineLoop.advance at h
  rw [hpc] at h
  cases h
  rfl

theorem Operated.Valid.advance_reach (h : v.Valid cfg m) {l : EngineLoop σ}
    (hout : v.stepping = false) (hpc : v.loop.pc = .work → v.loop.sched.hasWork = false)
    (hadv : v.loop.advance env cfg = .ok l) :
    Reach env cfg v.settled ({ v with loop := l } : Operated σ).settled := by
  by_cases hdone : v.loop.pc = .done
  · rw [advance_done hdone hadv]
  · have hrest : v.AtRest := h.outside hout hdone
    have hrest' : ({ v with loop := l } : Operated σ).AtRest := hrest
    rw [hrest.settled, hrest'.settled]
    unfold EngineLoop.point
    rcases advance_outside hadv hpc with ⟨hsched, hinbox⟩ | ⟨r, hsched, hhand, hnone, hinbox⟩
    · rw [hsched, hinbox]
    · rw [hsched, hhand, hnone, hinbox]
      exact .single (.submit _ [] v.loop.inbox r (idle_rest ..) rfl)

/-- **Every line is a small step of the engine or none**, unless `reset` writes to the metrics. -/
theorem operation_reach (hop : Operation encode env cfg calls v v') (h : v.Valid cfg m) :
    Reach env cfg v.settled v'.settled ∨ calls ≠ .none ∧
      ∃ met, v'.settled = { v.settled with sched := { v.settled.sched with metrics := met } } := by
  cases hop with
  | generate body rid now hnow => exact .inl (generate_reach v body rid now)
  | cancel r hr => exact .inl (.single (.cancel v.settled r hr))
  | stop | retire | retired | enter | resetCalled | resetReturns => exact .inl .refl
  | advance l hout hpc hadv => exact .inl (h.advance_reach hout hpc hadv)
  | small p st hin hlines hstep hmet =>
    rw [settled_eq hlines, settled_small (stepOp_frame hstep).inbox hmet]
    exact .inl (.single (.step hstep))
  | line line lines hlines =>
    refine .inl ?_
    unfold Operated.settled
    rw [hlines]
    exact .refl
  | leave hin hrest hretiring => exact .inl (by rw [h.settled_left hin (.inl rfl)])
  | die hin hlines => exact .inl (by rw [h.settled_left hin (.inr rfl)])
  | reset hcalls hlines => exact .inr ⟨by simp [hcalls], _, rfl⟩
  | resetLine pre post keep field fields hcalls hresets =>
    exact .inr ⟨by simp [hcalls], _, rfl⟩

theorem generate_pc (l : EngineLoop σ) (body : GenerateIn) (rid : String) (now : Time) :
    (l.generate encode cfg body rid now).2.pc = l.pc := by
  rcases generate_posts encode cfg l body rid now with he | he | ⟨n, -, he⟩ <;>
    rw [he]

/-- **Every line keeps the invariants of the engine.** -/
theorem operation_valid (hop : Operation encode env cfg calls v v') (h : v.Valid cfg m) :
    v'.Valid cfg m := by
  have hgood : Good cfg m v'.settled := by
    rcases operation_reach hop h with hreach | ⟨-, met, hmet⟩
    · exact h.good.ops hreach
    · rw [hmet]
      exact h.good.withMetrics met
  have hrun : (v'.stepping = true → v'.loop.pc = .work) ∧
      (v'.stepping = false → v'.loop.pc ≠ .done → v'.AtRest) := by
    cases hop with
    | generate body rid now hnow =>
      dsimp only
      rw [generate_pc]
      exact ⟨h.stepping, h.outside⟩
    | advance l hout hpc hadv =>
      refine ⟨fun hin => absurd (hout.symm.trans hin) nofun, fun _ hdone => h.outside hout ?_⟩
      intro hpc
      rw [advance_done hpc hadv] at hdone
      exact hdone hpc
    | enter hout hpc hwork => exact ⟨fun _ => hpc, nofun⟩
    | small p st hin hlines hstep hmet =>
      exact ⟨h.stepping, fun hout => absurd (hin.symm.trans hout) nofun⟩
    | line line lines hlines =>
      exact ⟨h.stepping, fun hout hpc =>
        absurd (hlines.symm.trans (h.outside hout hpc).2.2.2.2) nofun⟩
    | leave hin hrest hretiring => exact ⟨nofun, fun _ _ => hrest⟩
    | die hin hlines => exact ⟨nofun, fun _ hpc => absurd rfl hpc⟩
    | _ => exact ⟨h.stepping, h.outside⟩
  exact ⟨hgood, hrun.1, hrun.2⟩

theorem operations_valid (hops : Operations encode env cfg calls v v') (h : v.Valid cfg m) :
    v'.Valid cfg m := by
  have hstep : ∀ x y, Operation encode env cfg calls x y → x.Valid cfg m → y.Valid cfg m :=
    fun _ _ => operation_valid
  exact reach_invariant hstep hops h

/-- Where `reset` does not write, the engine takes small steps. -/
theorem operations_reach (hops : Operations encode env cfg .none v v') (h : v.Valid cfg m) :
    Reach env cfg v.settled v'.settled := by
  induction hops with
  | refl => exact .refl
  | tail hops hop ih =>
    rcases operation_reach hop (operations_valid hops h) with hreach | ⟨hcalls, -⟩
    · exact ih.trans hreach
    · exact absurd rfl hcalls

/-! ## The theorem -/

/--
**The counters balance.** From any moment of a server at which nothing is half done, wherever resets
have fallen before, to any later such moment before a reset writes again: `prefills` grows by the
numbers handed out to admitted requests, `preemptions` by the `preempt_count`s of the requests,
`prefills` and `occupied_slot_steps` together by the tokens of the requests; admissions of requests
that have tokens already are matched by evictions; there are at least as many rows as decode steps,
and at most `max_batch` times as many.
-/
theorem counters_balance (hm : m.Fresh) {t₀ : Time}
    (hrun : Operations encode env cfg .torn (.init cfg m w t₀) v) (hrest : v.AtRest)
    (hquiet : Operations encode env cfg .none v v') (hrest' : v'.AtRest) :
    ∃ admitted steps rows evicted, Did cfg v.loop.sched v'.loop.sched admitted steps rows evicted := by
  have hvalid : v.Valid cfg m := operations_valid hrun (.init hm t₀)
  have hreach : Reach env cfg v.settled v'.settled := operations_reach hquiet hvalid
  have hgood : Good cfg m v.settled := hvalid.good
  rw [hrest.settled] at hgood hreach
  rw [hrest'.settled] at hreach
  exact (balance_ops hgood (fun _ hn => absurd hn List.not_mem_nil) hreach).did

/-- After a reset one of two requests is evicted and prefilled again: two tokens more, one from its
second prefill and one from a decode step. -/
theorem counters_balance_evicted :
    ∃ v v' : Operated History,
      Operations (fun _ => []) (Env.ofNext fun toks => toks.length) { preemption := true } .torn
        (.init { preemption := true } (.block (.new 4 1 Nat.one_pos false)) .start 0) v ∧
      v.metrics.prefills = 0 ∧ v'.metrics.preemptions = 1 ∧
      Operations (fun _ => []) (Env.ofNext fun toks => toks.length) { preemption := true } .none v v' ∧
      ∃ admitted steps rows evicted,
        Did { preemption := true } v.loop.sched v'.loop.sched admitted steps rows evicted := by
  have hm : (Manager.block (.new 4 1 Nat.one_pos false)).Fresh := Manager.fresh_block_new ..
  have hruns : ∃ l,
      run (EngineLoop.serve (fun _ => []) (Env.ofNext fun toks => toks.length)
          { preemption := true })
        (.init { preemption := true } (.block (.new 4 1 Nat.one_pos false)) .start)
        ([.generate { promptTokenIds := some [1], maxNewTokens := 3 } "a" 0,
          .generate { promptTokenIds := some [2], maxNewTokens := 3 } "b" 0] ++
          List.replicate 8 .advance) = .ok l ∧
      PunctualRun (fun _ => []) (Env.ofNext fun toks => toks.length) { preemption := true }
        (.init { preemption := true } (.block (.new 4 1 Nat.one_pos false)) .start)
        ([.generate { promptTokenIds := some [1], maxNewTokens := 3 } "a" 0,
          .generate { promptTokenIds := some [2], maxNewTokens := 3 } "b" 0] ++
          List.replicate 8 .advance) ∧
      PunctualRun (fun _ => []) (Env.ofNext fun toks => toks.length) { preemption := true }
        { l with sched := { l.sched with metrics := l.sched.metrics.reset } }
        (List.replicate 10 .advance) ∧
      ∃ l', run (EngineLoop.serve (fun _ => []) (Env.ofNext fun toks => toks.length)
          { preemption := true }) { l with sched := { l.sched with metrics := l.sched.metrics.reset } }
          (List.replicate 10 .advance) = .ok l' ∧ l'.sched.metrics.preemptions = 1 := by
    decide +kernel
  obtain ⟨l, hl, hpunctual, hpunctual', l', hl', hone⟩ := hruns
  have hrun : Operations (fun _ => []) (Env.ofNext fun toks => toks.length) { preemption := true }
      .torn (.init _ _ _ 0)
      { loop := { l with sched := { l.sched with metrics := l.sched.metrics.reset } }, tReset := 5 } :=
    operations_torn (serveRun_reset hm hpunctual hl)
  have hrest : Operated.AtRest
      { loop := { l with sched := { l.sched with metrics := l.sched.metrics.reset } }, tReset := 5 } :=
    ⟨rfl, rfl, rfl, rfl, rfl⟩
  have hgood := (operations_valid hrun (.init hm 0)).point
  have hquiet : Operations (fun _ => []) (Env.ofNext fun toks => toks.length) { preemption := true }
      .none _ { loop := l', tReset := 5 } :=
    serveRun_operations rfl rfl hrest hgood hpunctual' hl'
  exact ⟨_, { loop := l', tReset := 5 }, hrun, rfl, hone, hquiet,
    counters_balance hm hrun hrest hquiet hrest⟩

end LlmServe
