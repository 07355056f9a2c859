import LlmServe.Properties.Faults
import LlmServe.Spec.Runs

/-!
# What a run was given

From the engine's configuration and the list of submitted requests to every point of the run:
limits that allow a token (`Positive`), distinct ids (`DistinctIds`), and then the books (`booked`).
`Loaded` is what the front door guarantees when it also asks `fits_ever`.
-/

namespace LlmServe

open Infra Point

variable {σ : Type} {env : Env σ} {cfg : EngineConfig} {m : Manager} {w : σ} {p : Point σ}

/-- A point of a run that has built no request since `s`: at `s`, or inside the next call of
`step`. -/
structure Inside (env : Env σ) (cfg : EngineConfig) (s : Scheduler σ) (p : Point σ) : Prop where
  reach : Reach env cfg (rest s []) p
  next : p.sched.next = s.next

theorem Inside.refl (s : Scheduler σ) : Inside env cfg s (rest s []) := ⟨.refl, rfl⟩

/-- Where a call of `step` raises. -/
theorem Inside.of_stepOps {s : Scheduler σ} {p : Point σ}
    (hops : StepOps env cfg (fun _ _ => True) (rest s []) p) : Inside env cfg s p :=
  ⟨ops_of_stepOps hops, (stepOps_frame hops).next⟩

section

variable {adm : Point σ → Ref → Prop} {acts : List Action} {s : Scheduler σ}

theorem Provenance.valid (h : Provenance acts s) (hgood : Good cfg m (rest s []))
    (hops : Ops env cfg adm (rest s []) p) (hnext : p.sched.next = s.next)
    (hvalid : ∀ n ∈ submitted acts, n.Valid) {r : Ref} (hr : r < p.sched.next) :
    1 ≤ (p.sched.heap r).promptTokenIds.length ∧ 1 ≤ (p.sched.heap r).maxNewTokens := by
  obtain ⟨n, hn, hev⟩ := h.later hgood hops (hnext ▸ hr)
  have hv := hvalid n (List.mem_of_getElem? hn)
  rw [hev.promptTokenIds, hev.maxNewTokens]
  exact ⟨hv.prompt_pos, hv.capped_pos⟩

theorem Provenance.positive (h : Provenance acts s) (hgood : Good cfg m (rest s []))
    (hops : Ops env cfg adm (rest s []) p) (hnext : p.sched.next = s.next)
    (hvalid : ∀ n ∈ submitted acts, n.Valid) : Positive p :=
  fun _ hr => (h.valid hgood hops hnext hvalid hr.1).2

theorem Provenance.distinctIds (h : Provenance acts s) (hgood : Good cfg m (rest s []))
    (hops : Ops env cfg adm (rest s []) p) (hnext : p.sched.next = s.next)
    (hids : ((submitted acts).map NewRequest.requestId).Nodup) : DistinctIds p := by
  intro r r' hr hr' he
  obtain ⟨n, hn, hev⟩ := h.later hgood hops (hnext ▸ hr.1)
  obtain ⟨n', hn', hev'⟩ := h.later hgood hops (hnext ▸ hr'.1)
  have hid : n.requestId = n'.requestId := hev.requestId.symm.trans (he.trans hev'.requestId)
  obtain ⟨hlt, -⟩ := List.getElem?_eq_some_iff.mp hn
  refine (List.getElem?_inj (by rwa [List.length_map]) hids).mp ?_
  rw [List.getElem?_map, List.getElem?_map, hn, hn']
  exact congrArg some hid

/-- Every object a point knows was submitted. -/
theorem Inside.request (hm : m.Fresh)
    (hrun : run (Scheduler.act env cfg) (.init cfg m w) acts = .ok s) (hp : Inside env cfg s p)
    {r : Ref} (hr : r < p.sched.next) :
    ∃ n ∈ submitted acts, n.toRequest.submitted.Evolves (p.sched.heap r) := by
  obtain ⟨n, hn, hev⟩ := (run_provenance hm hrun).later (run_good hm hrun) hp.reach (hp.next ▸ hr)
  exact ⟨n, List.mem_of_getElem? hn, hev⟩

theorem Inside.valid (hm : m.Fresh)
    (hrun : run (Scheduler.act env cfg) (.init cfg m w) acts = .ok s) (hp : Inside env cfg s p)
    (hvalid : ∀ n ∈ submitted acts, n.Valid) {r : Ref} (hr : r < p.sched.next) :
    1 ≤ (p.sched.heap r).promptTokenIds.length ∧ 1 ≤ (p.sched.heap r).maxNewTokens :=
  (run_provenance hm hrun).valid (run_good hm hrun) hp.reach hp.next hvalid hr

theorem Inside.positive (hm : m.Fresh)
    (hrun : run (Scheduler.act env cfg) (.init cfg m w) acts = .ok s) (hp : Inside env cfg s p)
    (hvalid : ∀ n ∈ submitted acts, n.Valid) : Positive p :=
  (run_provenance hm hrun).positive (run_good hm hrun) hp.reach hp.next hvalid

/-- Under distinct ids the books are right, whatever the limits. -/
theorem Inside.accounted (hm : m.Fresh)
    (hrun : run (Scheduler.act env cfg) (.init cfg m w) acts = .ok s) (hp : Inside env cfg s p)
    (hids : ((submitted acts).map NewRequest.requestId).Nodup) : Accounted m p := by
  have hd := (run_provenance hm hrun).distinctIds (run_good hm hrun) hp.reach hp.next hids
  refine accounted_ops (.init hm w) (accounted_init hm w) ((run_reach hm hrun).trans hp.reach) ?_
  intro q _ hq hgood ha r hr _
  exact freshId_of_distinctIds hgood ha (hd.back hgood hq) hr

/-- **Under distinct ids the books are right at every point.** -/
theorem Inside.booked (hm : m.Fresh)
    (hrun : run (Scheduler.act env cfg) (.init cfg m w) acts = .ok s) (hp : Inside env cfg s p)
    (hvalid : ∀ n ∈ submitted acts, n.Valid)
    (hids : ((submitted acts).map NewRequest.requestId).Nodup) : Booked m p :=
  booked_of_distinctIds (.init hm w) (booked_init hm w) ((run_reach hm hrun).trans hp.reach)
    (hp.positive hm hrun hvalid).covering
    ((run_provenance hm hrun).distinctIds (run_good hm hrun) hp.reach hp.next hids)

/-! ## Requests the front door lets through -/

/-- What the front door checks, for a request with a positive limit. -/
structure NewRequest.Servable (m : Manager) (n : NewRequest) : Prop where
  valid : n.Valid
  fits : m.fitsEver n.promptTokenIds.length n.capped = true

/-- What is known about the submitted requests at a point. -/
structure Loaded (m : Manager) (p : Point σ) : Prop where
  booked : Booked m p
  positive : Positive p
  fits : ∀ r, p.Submitted r → m.fitsEver (p.sched.heap r).promptTokenIds.length
    (p.sched.heap r).maxNewTokens = true
  seqLen_pos : ∀ r, p.Submitted r → 1 ≤ (p.sched.heap r).seqLen
  /-- The prompt and the limit stay within the context. -/
  context : ∀ r, p.Submitted r →
    (p.sched.heap r).promptTokenIds.length + (p.sched.heap r).maxNewTokens ≤ maxContext

theorem Inside.loaded (hm : m.Fresh)
    (hrun : run (Scheduler.act env cfg) (.init cfg m w) acts = .ok s) (hp : Inside env cfg s p)
    (hserve : ∀ n ∈ submitted acts, n.Servable m)
    (hids : ((submitted acts).map NewRequest.requestId).Nodup) : Loaded m p := by
  have hvalid : ∀ n ∈ submitted acts, n.Valid := fun n hn => (hserve n hn).valid
  refine ⟨hp.booked hm hrun hvalid hids, hp.positive hm hrun hvalid, fun r hr => ?_, fun r hr => ?_,
    fun r hr => ?_⟩
  · obtain ⟨n, hn, hev⟩ := hp.request hm hrun hr.1
    rw [hev.promptTokenIds, hev.maxNewTokens]
    exact (hserve n hn).fits
  · have hprompt := (hp.valid hm hrun hvalid hr.1).1
    simp only [Request.seqLen]
    omega
  · obtain ⟨n, -, hev⟩ := hp.request hm hrun hr.1
    rw [hev.promptTokenIds, hev.maxNewTokens]
    show (n.promptTokenIds.length : Int) +
      min n.maxNewTokens (maxContext - n.promptTokenIds.length) ≤ maxContext
    omega

end

theorem Loaded.seqLen_le (hl : Loaded m p) (h : Good cfg m p) {r : Ref} (hr : p.Submitted r) :
    ((p.sched.heap r).seqLen : Int) ≤
      (p.sched.heap r).promptTokenIds.length + (p.sched.heap r).maxNewTokens := by
  have hout := (h.facts r).ending.output_le (hl.positive r hr)
  change ((p.sched.heap r).outputTokenIds.length : Int) ≤ (p.sched.heap r).maxNewTokens at hout
  simp only [Request.seqLen]
  omega

/-- What a submitted request needs fits in the empty pool. -/
theorem Loaded.needed_le (hl : Loaded m p) (h : Good cfg m p) (hp : m.paged = true) {r : Ref}
    (hr : p.Submitted r) : m.unitsNeeded (p.sched.heap r).seqLen ≤ m.units :=
  (m.unitsNeeded_mono (hl.seqLen_le h hr)).trans
    (Manager.worst_le_of_fitsEver hp (hl.fits r hr))

/-! ## Allocators the engine builds -/

/-- An allocator of the kind `Engine.__init__` builds, with a pool of any size in any order. -/
structure Manager.Serves (cfg : EngineConfig) (m : Manager) : Prop where
  fresh : m.Fresh
  slots : m.paged = false → 1 ≤ m.units
  reserves : m.paged = true → m.reserves = !cfg.preemption

theorem Engine.manager_serves (hbackend : cfg.backend ≠ .naive) (hbatch : 1 ≤ cfg.maxBatch)
    (h : Engine.manager cfg = .ok m) : m.Serves cfg := by
  unfold Engine.manager at h
  cases hb : cfg.backend with
  | naive => exact absurd hb hbackend
  | contiguous =>
    simp only [hb] at h
    cases h
    refine ⟨Manager.fresh_slot_new _, fun _ => ?_, nofun⟩
    exact Nat.le_min.mpr ⟨hbatch, Nat.le_max_left 1 _⟩
  | paged =>
    simp only [hb] at h
    split at h
    · cases h
      exact ⟨Manager.fresh_block_new .., nofun, fun _ => rfl⟩
    · cases h

end LlmServe
