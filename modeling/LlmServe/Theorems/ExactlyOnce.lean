import LlmServe.Spec.Runs
import LlmServe.Engine.NextToken

/-!
# Exactly-once token stream

A client's sink is called once for each token of the output, in order, and told that the request
is finished once, at the end. Greedy recomputation after an eviction produces the same tokens
again, so this is about `_emit` being called once for each token, not about the tokens.

The trace is cut at an event of one request and compared with that request's log, which the
machine of one request describes (`TokenStream`).
-/

namespace LlmServe

open Infra Point

variable {σ : Type} {env : Env σ} {cfg : EngineConfig} {m : Manager} {w : σ}

/-- The log before and after one of the request's own events. -/
theorem log_cut {s : Scheduler σ} {r : Ref} {pre post : List Event} {e : Event} (he : e.ref = r)
    (h : s.trace = pre ++ e :: post) :
    log s r = (pre.filter fun e => e.ref = r) ++ e :: post.filter fun e => e.ref = r := by
  unfold log
  rw [h, List.filter_append, List.filter_cons, if_pos (decide_eq_true he)]

/-- A list has one way to be cut at the only element with a property. -/
theorem cut_unique {α : Type} {P : α → Prop} {pre post init tail : List α} {e e' : α} (he : P e)
    (hinit : ∀ x ∈ init, ¬P x) (htail : ∀ x ∈ tail, ¬P x)
    (h : pre ++ e :: post = init ++ e' :: tail) : post = tail := by
  rcases List.append_eq_append_iff.mp h with ⟨c, rfl, hc⟩ | ⟨c, rfl, hc⟩
  · cases c with
    | nil => exact (List.cons.inj hc).2
    | cons x c =>
      obtain ⟨rfl, -⟩ := List.cons.inj hc
      exact absurd he (hinit e (by simp))
  · cases c with
    | nil => exact (List.cons.inj hc).2.symm
    | cons x c =>
      obtain ⟨-, rfl⟩ := List.cons.inj hc
      exact absurd he (htail e (by simp))

/-- After the final call nothing happens to the request but the end of that `_emit`. -/
theorem TokenStream.after_final {p : Point σ} {r : Ref} (h : TokenStream r (p.view r))
    {pre post : List Event} {tok : Token} (hcut : p.sched.trace = pre ++ .sink r tok true :: post) :
    ∃ out, (post.filter fun e => e.ref = r) = [.emitted r out] := by
  have hlog := log_cut (r := r) rfl hcut
  rcases h.closing with hno | ⟨init, tok', out, hinit, hflags⟩
  · have hmem : (tok, true) ∈ calls r (log p.sched r) := by
      rw [hlog, calls_append]
      exact List.mem_append_right _ (by simp [calls])
    cases hno _ hmem
  · refine ⟨out, cut_unique (P := fun e => ∃ tok, e = .sink r tok true) ⟨tok, rfl⟩ ?_ ?_
      (hlog.symm.trans hinit)⟩
    · rintro x hx ⟨tok'', rfl⟩
      cases hflags (tok'', true) (List.mem_filterMap.mpr ⟨_, hx, by simp⟩)
    · rintro x hx ⟨tok'', rfl⟩
      simp at hx

/--
**Exactly-once token stream.** At any point small steps lead to after a run: up to every completed
`_emit`, and at the point itself, the calls of a request's sink are its output tokens in order and
none but the last says that the request is finished; a request that left and was never cancelled
was told so by its last call; after that call there is no forward pass for the request, no call and
no other `_emit`.
-/
theorem exactly_once_token_stream (hm : m.Fresh) {acts : List Action} {s : Scheduler σ}
    (hrun : run (Scheduler.act env cfg) (.init cfg m w) acts = .ok s) {p : Point σ}
    (hops : Reach env cfg (rest s []) p) {r : Ref} (hr : r < p.sched.next)
    (hsink : (p.sched.heap r).sink ≠ none) :
    (∀ pre post out, p.sched.trace = pre ++ .emitted r out :: post →
      (calls r pre).map Prod.fst = out ∧ OnlyLast (calls r pre)) ∧
    (calls r p.sched.trace).map Prod.fst = (p.sched.heap r).outputTokenIds ∧
    OnlyLast (calls r p.sched.trace) ∧
    (r ∉ p.placed → (p.sched.heap r).cancelled = false → Closed (calls r p.sched.trace)) ∧
    (∀ pre post tok, p.sched.trace = pre ++ .sink r tok true :: post →
      ∃ out, (post.filter fun e => e.ref = r) = [.emitted r out]) := by
  have hgood := (run_good hm hrun).ops hops
  have hstream := hgood.stream r
  have hcalls : calls r p.sched.trace = calls r (log p.sched r) := (calls_filter _).symm
  rw [hcalls]
  refine ⟨fun pre post out hcut => ?_, hstream.tokens hsink, hstream.onlyLast,
    fun hleft hc => hgood.closed hr hleft hc hsink, fun pre post tok hcut =>
      hstream.after_final hcut⟩
  rw [← calls_filter pre]
  exact hstream.emitted hsink _ _ _ (log_cut (r := r) rfl hcut)

/-- The younger of two requests is evicted and recomputed; its client sees each token once. -/
theorem exactly_once_token_stream_evicted :
    ∃ s, run (Scheduler.act (Env.ofNext fun toks => toks.length) { preemption := true })
        (.init { preemption := true } (.block (.new 4 1 Nat.one_pos false)) .start)
        [.submit { requestId := "a", promptTokenIds := [1], maxNewTokens := 3, sink := some 0 },
          .submit { requestId := "b", promptTokenIds := [2], maxNewTokens := 3, sink := some 1 },
          .step, .step, .step, .step, .step]
        = .ok s ∧
      (calls 1 s.trace).map Prod.fst = (s.heap 1).outputTokenIds :=
  exists_ok_and (by decide +kernel) fun s hs => by
    have hprov := run_provenance (Manager.fresh_block_new ..) hs
    have hsink := (hprov.evolves 1 _ rfl).sink
    exact (exactly_once_token_stream (p := rest s []) (Manager.fresh_block_new ..) hs .refl
      (hprov.next ▸ by decide) (by rw [rest, hsink]; exact Option.some_ne_none 1)).2.1

end LlmServe
