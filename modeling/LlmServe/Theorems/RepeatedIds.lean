import LlmServe.Engine.NextToken
import LlmServe.Properties.Workload

/-!
# Memory accounting under repeated request ids

`live` and `committed` are keyed by an id the client chooses. When a request is admitted while
another one with its id holds blocks, `allocate` overwrites the entry and the first `free` of the
two removes it: from then on the books are short (`repeated_id_breaks_the_books`). They are right
in every run that admits a request only while no holder has its id.
-/

namespace LlmServe

open Infra Point

variable {σ : Type} {env : Env σ} {cfg : EngineConfig} {m : Manager} {w : σ} {p : Point σ}

/-- No request that holds blocks has the id of `r`. -/
def IdUnheld (p : Point σ) (r : Ref) : Prop :=
  ∀ x ∈ p.held, (p.sched.heap x).requestId ≠ (p.sched.heap r).requestId

instance (p : Point σ) (r : Ref) : Decidable (IdUnheld p r) :=
  inferInstanceAs (Decidable (∀ x ∈ p.held, _))

theorem Accounted.freshId (ha : Accounted m p) {r : Ref} (h : IdUnheld p r) : FreshId p r := by
  intro hk
  have hk' := (Dict.keys_perm ha.live).mem_iff.mp hk
  rw [liveEntries, List.map_map] at hk'
  obtain ⟨x, hx, he⟩ := List.mem_map.mp hk'
  exact h x hx he

/-- Small steps that let requests in under unheld ids keep the books right. -/
theorem accounted_of_idUnheld (h : Good cfg m p) (ha : Accounted m p) {p' : Point σ}
    (hops : Ops env cfg IdUnheld p p') : Accounted m p' :=
  accounted_ops h ha hops fun _ _ _ _ haq _ _ hr => haq.freshId hr

theorem booked_of_idUnheld (h : Good cfg m p) (hb : Booked m p) {p' : Point σ}
    (hops : Ops env cfg IdUnheld p p') (hpos : Positive p') : Booked m p' :=
  booked_ops h hb hops hpos.covering fun _ _ _ _ haq _ _ hr => haq.freshId hr

/-- What the books say at a step boundary. -/
structure BooksPerRequest (m : Manager) (s : Scheduler σ) : Prop where
  committed : s.manager.committed.values.sum = (s.running.map fun r => m.worst (s.heap r)).sum
  live_tokens : (s.manager.stats s.heap).liveTokens =
    (s.running.map fun r => ((s.heap r).seqLen : Int)).sum

instance (m : Manager) (s : Scheduler σ) : Decidable (BooksPerRequest m s) :=
  decidable_of_iff (_ ∧ _) ⟨fun h => ⟨h.1, h.2⟩, fun h => ⟨h.1, h.2⟩⟩

/--
**The books are per request while no id is admitted twice.** In a run whose steps let a request in
only while no holder has its id, at every step boundary `committed` is the sum of the running
requests' worst cases and `live_tokens` the sum of their lengths. The pool then covers what is
committed, and a further step of that kind raises only what the forward pass raises.
-/
theorem books_per_request_while_ids_unheld (hm : m.Fresh) (hres : m.reserves = true)
    {acts : List Action} {s : Scheduler σ}
    (hkeeps : RunKeeps IdUnheld env cfg (.init cfg m w) acts)
    (hrun : run (Scheduler.act env cfg) (.init cfg m w) acts = .ok s) :
    BooksPerRequest m s ∧
      ((∀ n ∈ submitted acts, n.Valid) → s.manager.committed.values.sum ≤ m.units ∧
        (StepKeeps IdUnheld env cfg [] s →
          ∀ e, s.step env cfg = .error e → ∃ w rows, env.stepTokens w rows = .error e)) := by
  have hpaged := Manager.reserves_paged hres
  have hstart : Good cfg m (rest (.init cfg m w : Scheduler σ) []) := .init hm w
  have hgood := run_good hm hrun
  have hprov := run_provenance hm hrun
  have hops : Ops env cfg IdUnheld (rest (.init cfg m w) []) (rest s []) := by
    have hout := run_outcome env cfg w hm acts hkeeps
    rw [hrun] at hout
    obtain ⟨p, hops, rfl⟩ := hout
    exact hops
  have haccounted := accounted_of_idUnheld hstart (accounted_init hm w) hops
  refine ⟨⟨haccounted.sum_committed hpaged, haccounted.live_tokens⟩, fun hvalid => ?_⟩
  have hpos : Positive (rest s []) := (Inside.refl s).positive hm hrun hvalid
  have hbooked := booked_of_idUnheld hstart (booked_init hm w) hops hpos
  refine ⟨(haccounted.sum_committed hpaged).trans_le (hbooked.promised hres), fun hkeep e he => ?_⟩
  have hout := step_outcome env s [] hgood.placed hkeep
  rw [he] at hout
  obtain ⟨p, hstep, hfault⟩ := hout
  have hp := hgood.ops (ops_of_stepOps hstep)
  have hpos' := hprov.positive hgood (ops_of_stepOps hstep) (stepOps_frame hstep).next hvalid
  have hbooked' := booked_of_idUnheld hgood hbooked (ops_of_stepOps hstep) hpos'
  rcases fault_cases hp hpos' (fun _ => hbooked'.accounted) hfault with
    ⟨w', rows, hforward, -⟩ | ⟨-, r, hr, hopen, hno⟩
  · exact ⟨w', rows, hforward⟩
  · have htrue := grow_succeeds hp hpos' (hbooked'.promised hres) (mem_held_of_running hr) hopen
    exact absurd (htrue.symm.trans hno) nofun

/-- One id twice, but the first request has left when the second comes. -/
theorem books_per_request_while_ids_unheld_reused :
    ∃ s, run (Scheduler.act (Env.ofNext fun toks => toks.length) {})
        (.init {} (.block (.new 4 1 Nat.one_pos true)) .start)
        [.submit { requestId := "a", promptTokenIds := [1], maxNewTokens := 2 }, .step, .step,
          .submit { requestId := "a", promptTokenIds := [2], maxNewTokens := 3 }, .step]
        = .ok s ∧ BooksPerRequest (.block (.new 4 1 Nat.one_pos true)) s :=
  exists_ok_and (by decide +kernel) fun _ hs =>
    (books_per_request_while_ids_unheld (Manager.fresh_block_new ..) rfl (by decide +kernel) hs).1

/--
Two requests `"a"` and one `"c"` of four blocks each in a pool of eight: the second `"a"` takes
over the entry of the first, so `"c"` is admitted too, and the next step has no block left.
-/
theorem repeated_id_breaks_the_books :
    ∃ s, run (Scheduler.act (Env.ofNext fun toks => toks.length) { backend := .paged })
        (.init { backend := .paged } (.block (.new 8 1 Nat.one_pos true)) .start)
        [.submit { requestId := "a", promptTokenIds := [1], maxNewTokens := 3 },
          .submit { requestId := "a", promptTokenIds := [2], maxNewTokens := 3 },
          .submit { requestId := "c", promptTokenIds := [3], maxNewTokens := 3 }, .step]
        = .ok s ∧
      s.manager.committed.values.sum ≠
        (s.running.map fun r => (Manager.block (.new 8 1 Nat.one_pos true)).worst (s.heap r)).sum ∧
      (s.manager.stats s.heap).liveTokens ≠
        (s.running.map fun r => ((s.heap r).seqLen : Int)).sum ∧
      s.step (Env.ofNext fun toks => toks.length) { backend := .paged } =
        .error (.runtimeError "out of KV blocks and preemption is disabled") := by
  decide +kernel

end LlmServe
