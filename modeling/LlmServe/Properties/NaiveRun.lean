import LlmServe.Engine.NaiveScheduler
import LlmServe.Properties.TokenStream

/-!
# The loop of `run`

The naive loop looks at the limit before each forward pass, the scheduler after each token. Both
stop at the same output: `runLoop_ends` is about any callback, and what the callback shows is
carried along as an invariant of the caller's choice.
-/

namespace LlmServe

open Infra

/-- `max_new_tokens`, as far as the context allows it. -/
def Request.limit (q : Request) : Int := min q.maxNewTokens (maxContext - q.promptTokenIds.length)

namespace RunState

variable {σ : Type} {runner : Runner σ} {onToken : Request → Token → List Event}

/-- In the loop: every token followed the model, and none of them ended the request. -/
structure Ongoing (runner : Runner σ) (s : RunState σ) : Prop where
  live : s.req.cancelled = false
  limit_pos : 1 ≤ s.req.limit
  unrolled : s.req.outputTokenIds
    = unroll runner.nextToken s.req.promptTokenIds s.req.outputTokenIds.length
  goes : ∀ pre, pre <+: s.req.outputTokenIds →
    Request.endReason s.req.limit s.req.ignoreEos pre = none

/-- After the loop. -/
structure Ended (runner : Runner σ) (s t : RunState σ) : Prop where
  req : ∃ first, first ≠ none ∧
    t.req = { s.req with outputTokenIds := t.req.outputTokenIds, firstTokenTime := first }
  ends : Request.Ends runner.nextToken s.req.promptTokenIds s.req.limit s.req.ignoreEos
    t.req.outputTokenIds

/-- The loop of an ongoing request has room for a token. -/
theorem Ongoing.lt (h : Ongoing runner s) :
    (s.req.outputTokenIds.length : Int) < s.req.maxNewTokens ∧ s.req.seqLen < maxContext := by
  have hlt : (s.req.outputTokenIds.length : Int) < s.req.limit := by
    rcases Request.lt_of_endReason_none (h.goes _ (List.prefix_refl _)) with hnil | hlt
    · have hpos := h.limit_pos
      rw [hnil]
      exact hpos
    · exact hlt
  simp only [Request.limit, Request.seqLen, maxContext] at hlt ⊢
  omega

theorem append_limit (s : RunState σ) (tok : Token) :
    (s.append runner onToken tok).req.limit = s.req.limit ∧
    (s.append runner onToken tok).req.ignoreEos = s.req.ignoreEos ∧
    (s.append runner onToken tok).req.promptTokenIds = s.req.promptTokenIds ∧
    (s.append runner onToken tok).req.cancelled = s.req.cancelled ∧
    (s.append runner onToken tok).req.outputTokenIds = s.req.outputTokenIds ++ [tok] := by
  obtain ⟨first, -, hreq⟩ := append_req runner onToken s tok
  rw [hreq]
  exact ⟨rfl, rfl, rfl, rfl, rfl⟩

/-- A token that ends the request. -/
theorem Ongoing.ended (h : Ongoing runner s)
    (hend : Request.endReason s.req.limit s.req.ignoreEos
      (s.req.outputTokenIds ++ [s.nextId runner]) ≠ none) :
    Ended runner s (s.append runner onToken (s.nextId runner)) := by
  obtain ⟨first, hfirst, hreq⟩ := append_req runner onToken s (s.nextId runner)
  refine ⟨⟨first, hfirst, by rw [hreq]⟩, ?_⟩
  rw [hreq]
  refine ⟨unroll_snoc h.unrolled rfl, hend, fun pre hpre hne => not_not.mpr (h.goes pre ?_)⟩
  exact (List.prefix_concat_iff.mp hpre).resolve_left hne

/-- A token that does not. -/
theorem Ongoing.next (h : Ongoing runner s)
    (hopen : Request.endReason s.req.limit s.req.ignoreEos
      (s.req.outputTokenIds ++ [s.nextId runner]) = none) :
    Ongoing runner (s.append runner onToken (s.nextId runner)) := by
  obtain ⟨hlim, hign, hprompt, hcan, hout⟩ := append_limit s (s.nextId runner)
  refine ⟨hcan ▸ h.live, hlim ▸ h.limit_pos, ?_, fun pre hpre => ?_⟩
  · rw [hout, hprompt]
    exact unroll_snoc h.unrolled rfl
  · rw [hlim, hign]
    rw [hout] at hpre
    rcases List.prefix_concat_iff.mp hpre with rfl | hpre
    · exact hopen
    · exact h.goes pre hpre

/-- At the limit the loop stops without looking at the token. -/
theorem runLoop_stop {s : RunState σ} (h : s.req.limit ≤ s.req.outputTokenIds.length) :
    s.runLoop runner onToken = s := by
  unfold runLoop
  by_cases hlt : (s.req.outputTokenIds.length : Int) < s.req.maxNewTokens
  · have hctx : maxContext ≤ s.req.seqLen := by
      simp only [Request.limit, Request.seqLen, maxContext] at h ⊢
      omega
    rw [if_pos hlt, if_pos (Or.inl hctx)]
  · rw [if_neg hlt]

/--
**The loop of `run` ends where greedy decoding ends**, and keeps what every appended token keeps.
-/
theorem runLoop_ends {T : RunState σ → Prop}
    (hT : ∀ s, Ongoing runner s → T s → T (s.append runner onToken (s.nextId runner)))
    (s : RunState σ) (h : Ongoing runner s) (ht : T s) :
    Ended runner s (s.runLoop runner onToken) ∧ T (s.runLoop runner onToken) := by
  induction s using runLoop.induct runner onToken with
  | case1 s hlt hbreak =>
    rcases hbreak with hctx | hcan
    · exact absurd hctx (Nat.not_le.mpr h.lt.2)
    · cases h.live.symm.trans hcan
  | case2 s hlt hgo heos =>
    rw [runLoop, if_pos hlt, if_neg hgo, if_pos heos]
    refine ⟨h.ended ?_, hT s h ht⟩
    rw [Request.endReason_snoc, if_pos heos]
    split <;> nofun
  | case3 s hlt hgo heos ih =>
    rw [runLoop, if_pos hlt, if_neg hgo, if_neg heos]
    cases hend : Request.endReason s.req.limit s.req.ignoreEos
        (s.req.outputTokenIds ++ [s.nextId runner]) with
    | none =>
      have hnext : Ongoing runner (s.append runner onToken (s.nextId runner)) := h.next hend
      obtain ⟨⟨⟨first, hfirst, hreq⟩, hends⟩, ht'⟩ := ih hnext (hT s h ht)
      obtain ⟨hlim, hign, hprompt, -, -⟩ := append_limit s (s.nextId runner)
      obtain ⟨_, -, happ⟩ := append_req runner onToken s (s.nextId runner)
      rw [hlim, hign, hprompt] at hends
      refine ⟨⟨⟨first, hfirst, ?_⟩, hends⟩, ht'⟩
      rw [hreq, happ]
    | some reason =>
      have hne := ne_of_eq_of_ne hend (Option.some_ne_none reason)
      have hlen : s.req.limit ≤ s.req.outputTokenIds.length + 1 := by
        rw [Request.endReason_snoc, if_neg heos] at hne
        by_contra hle
        exact hne (if_neg hle)
      have hstop : (s.append runner onToken (s.nextId runner)).req.limit
          ≤ (s.append runner onToken (s.nextId runner)).req.outputTokenIds.length := by
        obtain ⟨hlim, -, -, -, hout⟩ := append_limit s (s.nextId runner)
        rw [hlim, hout, List.length_append]
        exact hlen
      rw [runLoop_stop hstop]
      exact ⟨h.ended hne, hT s h ht⟩
  | case4 s hlt => exact absurd h.lt.1 hlt

/-- `run` returns when nobody cancels and a token was produced, and then what its loop left. -/
theorem run_ok {s u : RunState σ}
    (hu : { s with req := { s.req with state := .running } }.runLoop runner onToken = u)
    (hlive : u.req.cancelled = false) (hfirst : u.req.firstTokenTime ≠ none) :
    ∃ t, s.run runner onToken = .ok t ∧ t.req.outputTokenIds = u.req.outputTokenIds ∧
      t.req.finishReason = u.req.finishReason ∧ t.trace = u.trace := by
  have hrec := u.metrics.recordRequest_isOk (q := { u.req with
    finishTime := some (runner.perfCounter u.world).1, state := .finished }) hfirst nofun
  obtain ⟨metrics, hrec⟩ := hrec
  unfold run
  dsimp only [perfCounter] at hu ⊢
  rw [hu, if_neg (by rw [hlive]; exact Bool.false_ne_true), hrec]
  exact ⟨_, rfl, rfl, rfl, rfl⟩

/-- **`run` on a request that may produce nothing raises**: the first-token time is not set. -/
theorem run_rejects {s : RunState σ} (hmax : s.req.maxNewTokens ≤ s.req.outputTokenIds.length)
    (hlive : s.req.cancelled = false) (hfirst : s.req.firstTokenTime = none) :
    s.run runner onToken = .error (.assertionError "") := by
  have hu : { s with req := { s.req with state := .running } }.runLoop runner onToken
      = { s with req := { s.req with state := .running } } := by
    rw [runLoop, if_neg (by simpa using hmax)]
  unfold run
  dsimp only [perfCounter] at hu ⊢
  rw [hu, if_neg (by rw [hlive]; exact Bool.false_ne_true)]
  simp only [EngineMetrics.recordRequest, requestMetrics, hfirst]
  rfl

/-- **`run` on an ongoing request returns, with the greedy output.** -/
theorem run_ends {T : RunState σ → Prop}
    (hT : ∀ s, Ongoing runner s → T s → T (s.append runner onToken (s.nextId runner)))
    {s : RunState σ} (h : Ongoing runner s)
    (ht : T { s with req := { s.req with state := .running } }) :
    ∃ t u, s.run runner onToken = .ok t ∧
      Request.Ends runner.nextToken s.req.promptTokenIds s.req.limit s.req.ignoreEos
        t.req.outputTokenIds ∧
      t.req.finishReason = s.req.finishReason ∧ t.trace = u.trace ∧
      (∃ first, u.req = { s.req with
        state := .running, outputTokenIds := t.req.outputTokenIds, firstTokenTime := first }) ∧
      T u := by
  have hstart : Ongoing runner { s with req := { s.req with state := .running } } := { h with }
  obtain ⟨⟨⟨first, hfirst, hreq⟩, hends⟩, htu⟩ := runLoop_ends hT _ hstart ht
  generalize hu : { s with req := { s.req with state := .running } }.runLoop runner onToken = u
    at hreq hends htu
  obtain ⟨t, hrun, hout, hreason, htrace⟩ :=
    run_ok hu (by rw [hreq]; exact h.live) (by rw [hreq]; exact hfirst)
  refine ⟨t, u, hrun, hout ▸ hends, hreason.trans (by rw [hreq]), htrace, ⟨first, ?_⟩, htu⟩
  rw [hreq, hout]

/-- `done` of the naive scheduler says what `_emit` of the other decides. -/
theorem onToken_done (q : Request) (out : List Token) (tok : Token) :
    (decide (q.maxNewTokens ≤ (out.length + 1 : Nat)) || (tok == eosTokenId && !q.ignoreEos) ||
      decide (maxContext ≤ q.promptTokenIds.length + (out.length + 1)))
      = (Request.endReason q.limit q.ignoreEos (out ++ [tok])).isSome := by
  have hlim : q.limit ≤ out.length + 1 ↔ q.maxNewTokens ≤ (out.length + 1 : Nat) ∨
      maxContext ≤ q.promptTokenIds.length + (out.length + 1) := by
    simp only [Request.limit, maxContext]
    omega
  rw [Request.endReason_snoc, Bool.eq_iff_iff]
  simp only [Bool.or_eq_true, Bool.and_eq_true, decide_eq_true_eq, beq_iff_eq,
    Bool.not_eq_eq_eq_not, Bool.not_true]
  by_cases hl : q.limit ≤ out.length + 1
  · rw [if_pos hl]
    refine iff_of_true ?_ rfl
    rcases hlim.mp hl with hm | hc
    · exact Or.inl (Or.inl hm)
    · exact Or.inr hc
  · obtain ⟨hm, hc⟩ := not_or.mp (mt hlim.mpr hl)
    rw [if_neg hl, or_iff_left hc, or_iff_right hm]
    split
    · next heos => exact iff_of_true heos rfl
    · next heos => exact iff_of_false heos Bool.false_ne_true

/-- What `on_token` of the naive scheduler keeps: the calls go with the output. -/
theorem append_streamed {r : Ref} {s : RunState σ} (h : Ongoing runner s)
    (hs : s.req.sink ≠ none ∧
      Streamed s.req.limit s.req.ignoreEos s.req.outputTokenIds (calls r s.trace)) :
    let t := s.append runner (NaiveScheduler.onToken r) (s.nextId runner)
    t.req.sink ≠ none ∧
      Streamed t.req.limit t.req.ignoreEos t.req.outputTokenIds (calls r t.trace) := by
  obtain ⟨hsink, hst⟩ := hs
  obtain ⟨first, -, hreq⟩ := append_req runner (NaiveScheduler.onToken r) s (s.nextId runner)
  intro t
  have htrace : t.trace = s.trace ++ NaiveScheduler.onToken r t.req (s.nextId runner) :=
    append_trace ..
  have hcalls : calls r (NaiveScheduler.onToken r t.req (s.nextId runner)) =
      [(s.nextId runner, (Request.endReason s.req.limit s.req.ignoreEos
        (s.req.outputTokenIds ++ [s.nextId runner])).isSome)] := by
    rw [hreq, NaiveScheduler.onToken, if_pos (Option.isSome_iff_ne_none.mpr hsink), ← onToken_done]
    simp [calls, Request.seqLen]
  rw [htrace, calls_append, hcalls, hreq]
  exact ⟨hsink, hst.snoc (h.goes _ (List.prefix_refl _)) (s.nextId runner)⟩

end RunState

end LlmServe
