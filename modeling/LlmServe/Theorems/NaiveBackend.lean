import LlmServe.Properties.Greedy
import LlmServe.Properties.NaiveRun
import LlmServe.Theorems.Drains

/-!
# The naive backend against the batched ones

Both backends produce the greedy output of a request and call its sink in the same way: each stops
at the first output with an end reason, and there is only one. They part at both ends of `run`:
a request that may produce nothing ends in an assertion of `request_metrics`, and a request that
EOS ended is said to have reached its limit, since only `step` sets the reason.
-/

namespace LlmServe

open Infra Point

variable {τ : Type} {runner : Runner τ} {cfg : EngineConfig} {m : Manager} {w : History} {w' : τ}
  {n : NewRequest}

/-! ## The naive backend on one request -/

/-- The request as both `submit` methods leave it. -/
theorem accept_naive (w' : τ) (n : NewRequest) :
    (NaiveScheduler.init w').accept n = { NaiveScheduler.init w' with
      heap := Function.update (fun _ => .blank) 0 n.toRequest.submitted, next := 1
      waiting := [0] } := by
  simp [NaiveScheduler.accept, NaiveScheduler.submit, NaiveScheduler.init, Request.submitted,
    NewRequest.toRequest]

/-- What `run` starts from in the first step. -/
def firstRun (w' : τ) (n : NewRequest) : RunState τ :=
  { req := n.toRequest.submitted, metrics := { maxSlots := 1 }, world := w', trace := [] }

/-- What is left when `run` has returned. -/
def served (w' : τ) (n : NewRequest) (t : RunState τ) : NaiveScheduler τ :=
  { (NaiveScheduler.init w').accept n with
    heap := Function.update ((NaiveScheduler.init w').accept n).heap 0
      { t.req with finishReason := some (t.req.finishReason.getD .length) }
    waiting := [], running := [], runnerMetrics := t.metrics, world := t.world, trace := t.trace }

theorem served_heap (w' : τ) (n : NewRequest) (t : RunState τ) : (served w' n t).heap 0 =
    { t.req with finishReason := some (t.req.finishReason.getD .length) } := by
  show Function.update ((NaiveScheduler.init w').accept n).heap 0 _ 0 = _
  exact Function.update_self ..

theorem naive_step (runner : Runner τ) (w' : τ) (hc : n.cancelled = false) :
    ((NaiveScheduler.init w').accept n).step runner =
      (firstRun w' n).run runner (NaiveScheduler.onToken 0) >>= fun t => .ok (served w' n t) := by
  unfold served
  rw [accept_naive]
  have hflag : n.toRequest.submitted.cancelled = false := hc
  simp only [NaiveScheduler.step, Function.update_self, hflag, List.filter_cons, Bool.not_false,
    if_true, List.filter_nil]
  rfl

/-- One request is one step. -/
theorem naive_generateBatch (runner : Runner τ) (w' : τ) (hc : n.cancelled = false) (fuel : Nat) :
    NaiveScheduler.generateBatch runner (fuel + 1) (.init w') [n] =
      (firstRun w' n).run runner (NaiveScheduler.onToken 0) >>= fun t =>
        .ok (some (served w' n t)) := by
  have hwork : ((NaiveScheduler.init w').accept n).hasWork = true := by
    rw [accept_naive]
    rfl
  rw [NaiveScheduler.generateBatch, List.foldl_cons, List.foldl_nil, loop, if_pos hwork,
    naive_step runner w' hc]
  cases (firstRun w' n).run runner (NaiveScheduler.onToken 0) with
  | error e => rfl
  | ok t => cases fuel <;> rfl

theorem firstRun_ongoing (hle : n.promptTokenIds.length ≤ 1023) (hmax : 1 ≤ n.maxNewTokens)
    (hc : n.cancelled = false) : RunState.Ongoing runner (firstRun w' n) where
  live := hc
  limit_pos := by
    simp only [Request.limit, firstRun, Request.submitted, NewRequest.toRequest, maxContext]
    omega
  unrolled := rfl
  goes := fun pre hpre => by rw [List.prefix_nil.mp hpre]; rfl

theorem firstRun_limit (w' : τ) (n : NewRequest) : (firstRun w' n).req.limit = n.capped := by
  simp [Request.limit, firstRun, Request.submitted, NewRequest.toRequest, NewRequest.capped]

/-- What a served request was given. -/
structure NaiveServed (runner : Runner τ) (n : NewRequest) (t : NaiveScheduler τ) : Prop where
  ends : Request.Ends runner.nextToken n.promptTokenIds n.capped n.ignoreEos
    (t.heap 0).outputTokenIds
  finishReason : (t.heap 0).finishReason = some .length
  streamed : Streamed n.capped n.ignoreEos (t.heap 0).outputTokenIds (calls 0 t.trace)

/-- **The naive backend serves a request that may produce a token.** -/
theorem naive_serves (hle : n.promptTokenIds.length ≤ 1023) (hmax : 1 ≤ n.maxNewTokens)
    (hc : n.cancelled = false) (hsink : n.sink ≠ none) (fuel : Nat) :
    ∃ t, NaiveScheduler.generateBatch runner (fuel + 1) (.init w') [n] = .ok (some t) ∧
      NaiveServed runner n t := by
  have hgo : RunState.Ongoing runner (firstRun w' n) := firstRun_ongoing hle hmax hc
  obtain ⟨t, u, hrun, hends, hreason, htrace, ⟨first, hreq⟩, -, hst⟩ := RunState.run_ends
    (T := fun s => s.req.sink ≠ none ∧
      Streamed s.req.limit s.req.ignoreEos s.req.outputTokenIds (calls 0 s.trace))
    (fun s h hs => RunState.append_streamed h hs) hgo ⟨hsink, rfl, nofun, nofun⟩
  rw [firstRun_limit] at hends
  refine ⟨served w' n t, ?_, ?_, ?_, ?_⟩
  · rw [naive_generateBatch runner w' hc, hrun]
    rfl
  · rw [served_heap]
    exact hends
  · rw [served_heap, hreason]
    rfl
  · have hlim : u.req.limit = n.capped := by
      rw [hreq]
      exact firstRun_limit w' n
    rw [served_heap]
    rw [hlim, ← htrace, hreq] at hst
    exact hst

/-- **It raises on a request that may not.** -/
theorem naive_rejects (hmax : n.maxNewTokens ≤ 0) (hc : n.cancelled = false) (fuel : Nat) :
    NaiveScheduler.generateBatch runner (fuel + 1) (.init w') [n]
      = .error (.assertionError "") := by
  have hcap : (firstRun w' n).req.maxNewTokens ≤ (firstRun w' n).req.outputTokenIds.length :=
    (min_le_left ..).trans hmax
  rw [naive_generateBatch runner w' hc, RunState.run_rejects hcap hc rfl]
  rfl

/-! ## The batched backend on one request -/

/-- What a served request was given. -/
structure BatchServed (next : List Token → Token) (n : NewRequest) (s : Scheduler History) :
    Prop where
  ends : Request.Ends next n.promptTokenIds n.capped n.ignoreEos (s.heap 0).outputTokenIds
  finishReason : (s.heap 0).finishReason
    = Request.endReason n.capped n.ignoreEos (s.heap 0).outputTokenIds
  streamed : Streamed n.capped n.ignoreEos (s.heap 0).outputTokenIds (calls 0 s.trace)

theorem batch_served (hm : m.Fresh) (hc : n.cancelled = false) (hsink : n.sink ≠ none)
    {next : List Token → Token} {fuel : Nat} {s : Scheduler History}
    (h : Scheduler.generateBatch (Env.ofNext next) cfg fuel (.init cfg m w) [n] = .ok (some s)) :
    BatchServed next n s := by
  obtain ⟨hround, hdone⟩ := generateBatch_done h
  obtain ⟨hlt, hleft, hflag, hev⟩ := hround.left (r := 0) (n := n) hm hdone rfl
  obtain ⟨k, hk⟩ := hround
  have hgood := run_good hm hk
  have hprompt : (s.heap 0).promptTokenIds = n.promptTokenIds := hev.promptTokenIds
  have hmax : (s.heap 0).maxNewTokens = n.capped := hev.maxNewTokens
  have hign : (s.heap 0).ignoreEos = n.ignoreEos := hev.ignoreEos
  have hself : (s.heap 0).finishReason ≠ some .cancelled := by
    rcases hgood.finished_of_left hlt hleft (hflag.trans hc) with hr | hr <;>
      exact fun he => nomatch hr.symm.trans he
  have hfin : (s.heap 0).finishReason ≠ none := by
    rcases hgood.finished_of_left hlt hleft (hflag.trans hc) with hr | hr <;>
      exact fun he => nomatch hr.symm.trans he
  have hends := hgood.firstStop (follows_ops hm w (run_reach hm hk)) hfin hself
  have hstream := (hgood.stream 0).streamed (ne_of_eq_of_ne hev.sink hsink)
  have hreason := (hgood.facts 0).ending.reason hself
  change (s.heap 0).finishReason = Request.endReason (s.heap 0).maxNewTokens (s.heap 0).ignoreEos
    (s.heap 0).outputTokenIds at hreason
  change Streamed (s.heap 0).maxNewTokens (s.heap 0).ignoreEos (s.heap 0).outputTokenIds
    (calls 0 (log s 0)) at hstream
  change Request.Ends next (s.heap 0).promptTokenIds (s.heap 0).maxNewTokens (s.heap 0).ignoreEos
    (s.heap 0).outputTokenIds at hends
  rw [hmax, hign] at hreason hstream
  rw [hprompt, hmax, hign] at hends
  exact ⟨hends, hreason, calls_filter s.trace ▸ hstream⟩

/-! ## Why it ended -/

/-- EOS does not come before the last token that the limit allows. -/
def NoEarlyEos (next : List Token → Token) (n : NewRequest) : Prop :=
  n.ignoreEos = true ∨ ∀ k : Nat, (k : Int) + 1 < n.capped →
    next (n.promptTokenIds ++ unroll next n.promptTokenIds k) ≠ eosTokenId

/-- **The limit ended the request if and only if EOS did not come early.** -/
theorem endReason_length_iff {next : List Token → Token} {out : List Token}
    (h : Request.Ends next n.promptTokenIds n.capped n.ignoreEos out) :
    Request.endReason n.capped n.ignoreEos out = some .length ↔ NoEarlyEos next n := by
  rcases List.eq_nil_or_concat out with rfl | ⟨init, tok, rfl⟩
  · exact absurd rfl h.stops
  rw [List.concat_eq_append] at *
  have hstops := h.stops
  rw [Request.endReason_snoc] at hstops ⊢
  constructor
  · intro hlength
    have hcap : n.capped ≤ init.length + 1 := by
      by_contra hlt
      rw [if_neg hlt] at hlength
      split at hlength <;> cases hlength
    cases hign : n.ignoreEos with
    | true => exact Or.inl hign
    | false =>
      refine Or.inr fun k hk heos => ?_
      -- EOS at `k` would have ended the request there
      have hpre : unroll next n.promptTokenIds (k + 1) <+: init ++ [tok] := by
        rw [h.unrolled, List.length_append, List.length_singleton]
        exact unroll_prefix _ _ (by omega)
      have hne : unroll next n.promptTokenIds (k + 1) ≠ init ++ [tok] := fun he => by
        have hlen := congrArg List.length he
        rw [length_unroll, List.length_append, List.length_singleton] at hlen
        omega
      refine h.goes _ hpre hne ?_
      rw [unroll, Request.endReason_snoc, length_unroll, if_neg (by omega), if_pos ⟨heos, hign⟩]
      exact Option.some_ne_none _
  · intro hno
    by_cases hcap : n.capped ≤ init.length + 1
    · exact if_pos hcap
    rw [if_neg hcap] at hstops
    by_cases heos : tok = eosTokenId ∧ n.ignoreEos = false
    · have hun := h.unrolled
      rw [List.length_append, List.length_singleton, unroll] at hun
      obtain ⟨-, htok⟩ := List.append_inj' hun rfl
      rcases hno with hign | hno
      · cases hign.symm.trans heos.2
      · exact absurd ((List.cons.inj htok).1.symm.trans heos.1) (hno init.length (by omega))
    · rw [if_neg heos] at hstops
      exact absurd rfl hstops

/-! ## The two together -/

/-- The two backends gave the request the same. -/
structure SameAnswer (n : NewRequest) (s : Scheduler History) (t : NaiveScheduler τ) : Prop where
  output : (s.heap 0).outputTokenIds = (t.heap 0).outputTokenIds
  finishReason : (s.heap 0).finishReason = (t.heap 0).finishReason
  reason : (s.heap 0).finishReason
    = Request.endReason n.capped n.ignoreEos (s.heap 0).outputTokenIds
  sink : calls 0 s.trace = calls 0 t.trace
  closed : Closed (calls 0 s.trace)

/-- Both backends return, with the same answer. -/
def Agree (runner : Runner τ) (cfg : EngineConfig) (m : Manager) (w : History) (w' : τ)
    (n : NewRequest) : Prop :=
  ∃ fuel s t, Scheduler.generateBatch (Env.ofNext runner.nextToken) cfg fuel (.init cfg m w) [n]
      = .ok (some s) ∧
    NaiveScheduler.generateBatch runner fuel (.init w') [n] = .ok (some t) ∧ SameAnswer n s t

/--
**When the naive backend is a backend like the others.** For one request that fits into memory and
that nobody cancels, the two agree exactly when the request may produce a token and EOS does not
come before the last token its limit allows.
-/
theorem backends_agree_iff (hm : m.Serves cfg) (hbatch : 1 ≤ cfg.maxBatch)
    (hpos : 1 ≤ n.promptTokenIds.length) (hle : n.promptTokenIds.length ≤ 1023)
    (hfit : m.fitsEver n.promptTokenIds.length n.capped = true) (hc : n.cancelled = false)
    (hsink : n.sink ≠ none) :
    Agree runner cfg m w w' n ↔ 1 ≤ n.maxNewTokens ∧ NoEarlyEos runner.nextToken n := by
  constructor
  · rintro ⟨fuel, s, t, hs, ht, hsame⟩
    cases fuel with
    | zero => cases ht
    | succ fuel =>
      have hmax : 1 ≤ n.maxNewTokens := by
        by_contra hlt
        rw [naive_rejects (by omega) hc] at ht
        cases ht
      obtain ⟨t', ht', hserved⟩ := naive_serves hle hmax hc hsink fuel
      rw [ht'] at ht
      cases ht
      have hb := batch_served hm.fresh hc hsink hs
      refine ⟨hmax, (endReason_length_iff hb.ends).mp ?_⟩
      rw [← hb.finishReason, hsame.finishReason, hserved.finishReason]
  · rintro ⟨hmax, hno⟩
    have hserve : ∀ x ∈ [n], x.Servable m := fun x hx =>
      List.mem_singleton.mp hx ▸ ⟨⟨hpos, hle, hmax⟩, hfit⟩
    have hfuel : ([n].map fun n => n.capped.toNat).sum + 1 ≤ n.capped.toNat + 1 := by simp
    obtain ⟨s, hs⟩ := generateBatch_ok (w := w) hm hbatch (Env.ofNext_answers runner.nextToken)
      hserve (List.nodup_singleton _) hfuel
    obtain ⟨t, ht, hserved⟩ := naive_serves hle hmax hc hsink n.capped.toNat
    have hb := batch_served hm.fresh hc hsink hs
    have hout := hb.ends.unique hserved.ends
    have hlength := (endReason_length_iff hb.ends).mpr hno
    refine ⟨_, s, t, hs, ht, hout, ?_, hb.finishReason, ?_, ?_⟩
    · rw [hb.finishReason, hlength, hserved.finishReason]
    · exact hb.streamed.unique (hout ▸ hserved.streamed)
    · exact hb.streamed.closed (hlength ▸ Option.some_ne_none _)

/-- A model that answers with the number of tokens, and a clock that counts its readings. -/
def countingRunner : Runner Time where
  perfCounter t := (t, t + 1)
  nextToken toks := toks.length

/-- A request of two tokens, on one slot. -/
theorem backends_agree_two_tokens :
    Agree countingRunner {} (.slot (.new 1)) .start 0
      { requestId := "a", promptTokenIds := [7], maxNewTokens := 2, sink := some 0 } := by
  have hm : (Manager.slot (.new 1)).Serves {} :=
    ⟨Manager.fresh_slot_new 1, fun _ => le_rfl, nofun⟩
  refine (backends_agree_iff hm (by decide) (by decide) (by decide) (by decide) rfl
    (Option.some_ne_none 0)).mpr ⟨by decide, Or.inr fun k hk => ?_⟩
  have hk : (k : Int) + 1 < 2 := hk
  obtain rfl : k = 0 := by omega
  decide

/-- A model that answers EOS at once. -/
def eosRunner : Runner Time where
  perfCounter t := (t, t + 1)
  nextToken _ := eosTokenId

/-- Nothing to produce, and EOS where five tokens are allowed. -/
theorem backends_differ :
    ¬Agree eosRunner {} (.slot (.new 1)) .start 0
      { requestId := "a", promptTokenIds := [7], maxNewTokens := 0, sink := some 0 } ∧
    ¬Agree eosRunner {} (.slot (.new 1)) .start 0
      { requestId := "a", promptTokenIds := [7], maxNewTokens := 5, sink := some 0 } := by
  constructor
  · rintro ⟨fuel, s, t, -, ht, -⟩
    cases fuel with
    | zero => cases ht
    | succ fuel =>
      rw [naive_rejects le_rfl rfl] at ht
      cases ht
  · rintro ⟨fuel, s, t, hs, ht, hsame⟩
    cases fuel with
    | zero => cases ht
    | succ fuel =>
      obtain ⟨t', ht', hserved⟩ : ∃ t', NaiveScheduler.generateBatch eosRunner (fuel + 1) (.init 0)
          [{ requestId := "a", promptTokenIds := [7], maxNewTokens := 5, sink := some 0 }]
          = .ok (some t') ∧ NaiveServed eosRunner _ t' :=
        naive_serves (by decide) (by decide) rfl (Option.some_ne_none 0) fuel
      rw [ht'] at ht
      cases ht
      have hb := batch_served (Manager.fresh_slot_new 1) rfl (Option.some_ne_none 0) hs
      have hlength := hb.finishReason.symm.trans (hsame.finishReason.trans hserved.finishReason)
      rcases (endReason_length_iff hb.ends).mp hlength with hign | hno
      · cases hign
      · exact hno 0 (by decide) rfl

end LlmServe
