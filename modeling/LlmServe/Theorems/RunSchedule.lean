import LlmServe.Properties.CachedDecode
import LlmServe.Properties.ServerWorld
import LlmServe.Theorems.Drains

/-!
# Requests that join and leave at any iteration (`Engine.run_schedule`)

All requests are built first and wait outside the scheduler until their iteration comes
(`Scheduled`). Until the last arrival the iterations count down; after it every round leaves fewer
(`round_scheduled`). So the loop ends, and what it returns for a request is what `generate_cached`
returns for it alone, whenever it and its neighbours arrive (`run_schedule_alone`).
-/

namespace LlmServe

open Infra Point

variable {σ : Type} {env : Env σ} {cfg : EngineConfig} {m : Manager} {w : σ}
  {src : Ref → NewRequest} {ats : Ref → Int} {k : Nat} {last : Int}

/-! ## Before the loop -/

/-- Between two tests of the loop's `break`; `ats` gives the iteration a request arrives at. -/
structure Scheduled (env : Env σ) (cfg : EngineConfig) (m : Manager) (w : σ)
    (src : Ref → NewRequest) (ats : Ref → Int) (k : Nat) (inbox : List Ref)
    (it : Int) (s : Scheduler σ) : Prop where
  reach : Reach env cfg (rest (.init cfg m w) []) (rest s inbox)
  sourced : Sourced src (rest s inbox)
  next : s.next = k
  cancelled : ∀ r < k, (s.heap r).cancelled = (src r).cancelled
  /-- Who has not arrived yet. -/
  inbox : ∀ r, r ∈ inbox ↔ r < k ∧ (ats r < 0 ∨ it < ats r)
  le_it : -1 ≤ it

theorem Scheduled.good {inbox : List Ref} {it : Int} {s : Scheduler σ}
    (h : Scheduled env cfg m w src ats k inbox it s) (hm : m.Fresh) :
    Good cfg m (rest s inbox) := Good.ops (.init hm w) h.reach

/-- The objects of `run_schedule`, all built before the loop. -/
theorem scheduled_built (env : Env σ) (cfg : EngineConfig) (w : σ) (src : Ref → NewRequest)
    (ats : Ref → Int) (hm : m.Fresh) (ns : List NewRequest)
    (hsrc : ∀ i n, ns[i]? = some n → src i = n) :
    Scheduled env cfg m w src ats ns.length (List.range ns.length) (-1)
      (ns.foldl (fun s n => s.create n.toRequest) (.init cfg m w)) := by
  have harrive : ∀ a : Int, a < 0 ∨ -1 < a := by omega
  induction ns using List.reverseRecOn with
  | nil =>
    exact ⟨.refl, .init src m w [], rfl, fun _ hr => absurd hr (Nat.not_lt_zero _),
      fun r => by simp, le_rfl⟩
  | append_singleton ns n ih =>
    have hold := ih fun i n' hi => hsrc i n'
      ((List.getElem?_append_left (List.getElem?_eq_some_iff.mp hi).1).trans hi)
    have hlast : src ns.length = n := hsrc _ _ (by simp)
    rw [List.foldl_append, List.length_append, List.length_singleton]
    obtain ⟨s, hs⟩ : ∃ s : Scheduler σ,
      s = ns.foldl (fun s n => s.create n.toRequest) (.init cfg m w) := ⟨_, rfl⟩
    rw [← hs] at hold ⊢
    have hnext : s.next = ns.length := hold.next
    have hnew := hold.sourced.create (hold.good hm) n
    have hop : Op env cfg (fun _ _ => True) (rest s (List.range ns.length))
        (rest (s.create n.toRequest) (List.range ns.length ++ [s.next])) := .create _ n
    have hupdate : Function.update src s.next n = src := by
      rw [hnext, ← hlast, Function.update_eq_self]
    rw [show (rest s (List.range ns.length)).sched.next = s.next from rfl, hupdate] at hnew
    rw [hnext] at hop hnew
    rw [List.range_succ]
    refine ⟨hold.reach.tail hop, hnew, congrArg (· + 1) hnext, fun r hr => ?_, fun r => ?_, le_rfl⟩
    · show (Function.update s.heap s.next n.toRequest r).cancelled = _
      rw [hnext]
      rcases Nat.lt_succ_iff_lt_or_eq.mp hr with hlt | rfl
      · rw [Function.update_of_ne hlt.ne]
        exact hold.cancelled r hlt
      · rw [Function.update_self, hlast]
        rfl
    · rw [← List.range_succ, List.mem_range]
      exact (and_iff_left (harrive _)).symm

/-! ## Arrivals -/

theorem arrivals_eq (it : Int) :
    (((List.range k).map fun r => (r, ats r)).filterMap fun (r, at_) =>
      if at_ = it then some r else none) = (List.range k).filter fun r => ats r = it := by
  rw [List.filterMap_map, ← List.filterMap_eq_filter]
  refine List.filterMap_congr fun r _ => ?_
  simp [Option.guard]

/-- Who is submitted leaves the inbox; nobody gets more to do. -/
theorem submit_all (env : Env σ) (cfg : EngineConfig) : ∀ (l : List Ref) {s : Scheduler σ} {inbox : List Ref}, l.Nodup →
    (∀ r ∈ l, r ∈ inbox) → inbox.Nodup → ∃ inbox',
      Reach env cfg (rest s inbox) (rest (l.foldl Scheduler.submit s) inbox') ∧
      (∀ r, r ∈ inbox' ↔ r ∈ inbox ∧ r ∉ l) ∧ (l.foldl Scheduler.submit s).next = s.next ∧
      (∀ r, ((l.foldl Scheduler.submit s).heap r).cancelled = (s.heap r).cancelled) ∧
      (l.foldl Scheduler.submit s).remaining ≤ s.remaining
  | [], s, inbox, _, _, _ => ⟨inbox, .refl, by simp, rfl, fun _ => rfl, le_rfl⟩
  | r :: l, s, inbox, hnd, hin, hinbox => by
    obtain ⟨hr, hnd⟩ := List.nodup_cons.mp hnd
    obtain ⟨pre, post, rfl⟩ := List.append_of_mem (hin r List.mem_cons_self)
    have hmiddle := List.nodup_middle.mp hinbox
    obtain ⟨hout, hinbox'⟩ := List.nodup_cons.mp hmiddle
    have hrest : ∀ x ∈ l, x ∈ pre ++ post := fun x hx => by
      have hne : x ≠ r := fun he => hr (he ▸ hx)
      simpa [hne] using hin x (List.mem_cons_of_mem _ hx)
    obtain ⟨inbox', hreach, hmem, hnext, hcan, hle⟩ :=
      submit_all env cfg l (s := s.submit r) hnd hrest hinbox'
    have hop : Op env cfg (fun _ _ => True) (rest s (pre ++ r :: post))
        (rest (s.submit r) (pre ++ post)) := .submit _ pre post r (idle_rest ..) rfl
    refine ⟨inbox', .head hop hreach, fun x => ?_, hnext, fun x => ?_,
      hle.trans (remaining_submit_le s r)⟩
    · rw [hmem]
      by_cases hx : x = r
      · subst hx
        simp [hout]
      · simp [hx]
    · have hheap : (s.submit r).heap = Function.update s.heap r (s.heap r).submitted := rfl
      show ((l.foldl Scheduler.submit (s.submit r)).heap x).cancelled = _
      rw [hcan, hheap]
      exact apply_update (q := (s.heap r).submitted) Request.cancelled rfl x

/-- Iteration `it + 1` begins. -/
theorem Scheduled.arrive {inbox : List Ref} {it : Int} {s : Scheduler σ}
    (h : Scheduled env cfg m w src ats k inbox it s) (hm : m.Fresh) :
    ∃ inbox', Scheduled env cfg m w src ats k inbox' (it + 1)
        (s.arrive ((List.range k).map fun r => (r, ats r)) (it + 1)) ∧
      (s.arrive ((List.range k).map fun r => (r, ats r)) (it + 1)).remaining ≤ s.remaining := by
  have hgood := h.good hm
  have hle := h.le_it
  unfold Scheduler.arrive
  rw [arrivals_eq]
  have hmem : ∀ r, r ∈ (List.range k).filter (fun r => ats r = it + 1) ↔ r < k ∧ ats r = it + 1 :=
    fun r => by simp
  have hin : ∀ r ∈ (List.range k).filter (fun r => ats r = it + 1), r ∈ inbox := fun r hr => by
    obtain ⟨hlt, hat⟩ := (hmem r).mp hr
    exact (h.inbox r).mpr ⟨hlt, Or.inr (by rw [hat]; exact Int.lt_succ it)⟩
  obtain ⟨inbox', hreach, hleft, hnext, hcan, hrem⟩ := submit_all env cfg
    _ (s := s) (List.nodup_range.filter _) hin hgood.placed.nodup.of_append_left.of_append_left
  refine ⟨inbox', ⟨h.reach.trans hreach, h.sourced.ops hgood hreach hnext, hnext.trans h.next,
    fun r hr => (hcan r).trans (h.cancelled r hr), fun r => ?_, Int.le_add_one hle⟩, hrem⟩
  rw [hleft, h.inbox, hmem]
  constructor
  · rintro ⟨⟨hlt, hat⟩, hno⟩
    have hne : ats r ≠ it + 1 := fun he => hno ⟨hlt, he⟩
    exact ⟨hlt, by omega⟩
  · rintro ⟨hlt, hat⟩
    exact ⟨⟨hlt, by omega⟩, fun hno => by omega⟩

/-! ## The loop -/

/-- What the rounds use up: first the iterations up to the last arrival, then the work. -/
def scheduleMeasure (last : Int) (st : Int × Scheduler σ) : Nat :=
  2 * (last + 1 - st.1).toNat + st.2.rounds

/-- **A round of the loop succeeds and uses something up.** -/
theorem round_scheduled (hm : m.Serves cfg) (hbatch : 1 ≤ cfg.maxBatch)
    (henv : env.NeverRaises cfg m w) (hserve : Serving m src k) (hlast : ∀ r < k, ats r ≤ last)
    {inbox : List Ref} {it : Int} {s : Scheduler σ}
    (h : Scheduled env cfg m w src ats k inbox it s) (hmore : it ≤ last ∨ s.hasWork = true) :
    ∃ s', s.step env cfg = .ok s' ∧ ∃ inbox', Scheduled env cfg m w src ats k inbox' (it + 1)
        (s'.arrive ((List.range k).map fun r => (r, ats r)) (it + 1)) ∧
      scheduleMeasure last (it + 1, s'.arrive ((List.range k).map fun r => (r, ats r)) (it + 1)) <
        scheduleMeasure last (it, s) := by
  have hgood := h.good hm.fresh
  have hserve' : Serving m src s.next := h.next ▸ hserve
  have hl := h.sourced.loaded_reach hm.fresh h.reach hserve'
  obtain ⟨s', hs'⟩ := henv src s inbox h.reach h.sourced hserve'
  have hsteps := step_ops hgood.placed hs'
  have hops := ops_of_stepOps hsteps
  have hnext : s'.next = s.next := (stepOps_frame hsteps).next
  have hstepped : Scheduled env cfg m w src ats k inbox it s' :=
    ⟨h.reach.trans hops, h.sourced.ops hgood hops hnext, hnext.trans h.next, fun r hr =>
      ((stepOps_frame hsteps).cancelled r).trans (h.cancelled r hr), h.inbox, h.le_it⟩
  obtain ⟨inbox', harrived, hrem⟩ := hstepped.arrive hm.fresh
  refine ⟨s', hs', inbox', harrived, ?_⟩
  have hle := remaining_le hgood hsteps
  simp only [scheduleMeasure]
  by_cases hit : it ≤ last
  · simp only [Scheduler.rounds]
    split <;> split <;> omega
  · -- nobody arrives any more
    have hnone : (List.range k).filter (fun r => ats r = it + 1) = [] := by
      refine List.filter_eq_nil_iff.mpr fun r hr hat => ?_
      have hlate := hlast r (List.mem_range.mp hr)
      have hat : ats r = it + 1 := of_decide_eq_true hat
      omega
    have hlt := step_rounds hm hbatch hgood (h.sourced.loaded_stepOps hgood hl.booked hserve')
      (hmore.resolve_left hit) hs'
    unfold Scheduler.arrive
    rw [arrivals_eq, hnone, List.foldl_nil]
    omega

/-- The loop of `run_schedule` ends, with nothing left to do. -/
theorem scheduleLoop_ends (hm : m.Serves cfg) (hbatch : 1 ≤ cfg.maxBatch)
    (henv : env.NeverRaises cfg m w) (hserve : Serving m src k) (hlast : ∀ r < k, ats r ≤ last)
    {inbox : List Ref} {s : Scheduler σ} (h : Scheduled env cfg m w src ats k inbox (-1) s) :
    ∃ rounds, ∀ fuel, rounds ≤ fuel → ∃ it s' inbox',
      s.scheduleLoop env cfg ((List.range k).map fun r => (r, ats r)) last fuel
        = .ok (some (it, s')) ∧
      Scheduled env cfg m w src ats k inbox' it s' ∧ last < it ∧ s'.hasWork = false := by
  obtain ⟨inbox₀, hstart, -⟩ := h.arrive hm.fresh
  refine ⟨scheduleMeasure last (0, s.arrive ((List.range k).map fun r => (r, ats r)) 0),
    fun fuel hfuel => ?_⟩
  have hround : ∀ st : Int × Scheduler σ,
      (∃ inbox, Scheduled env cfg m w src ats k inbox st.1 st.2) →
      (!(last < st.1 && !st.2.hasWork)) = true → ∃ st',
        (do
          let s ← st.2.step env cfg
          return (st.1 + 1, s.arrive ((List.range k).map fun r => (r, ats r)) (st.1 + 1))) = .ok st' ∧
        (∃ inbox, Scheduled env cfg m w src ats k inbox st'.1 st'.2) ∧
        scheduleMeasure last st' < scheduleMeasure last st := by
    rintro ⟨it, s⟩ ⟨inbox, hst⟩ hmore
    have hmore : it ≤ last ∨ s.hasWork = true := by
      simpa [Int.not_lt, or_iff_not_imp_left] using hmore
    obtain ⟨s', hs', inbox', hst', hlt⟩ :=
      round_scheduled hm hbatch henv hserve hlast hst hmore
    refine ⟨_, ?_, ⟨inbox', hst'⟩, hlt⟩
    rw [hs']
    rfl
  obtain ⟨⟨it, s'⟩, hloop, ⟨inbox', hend⟩, hdone⟩ :=
    loop_terminates hround fuel (0, _) ⟨inbox₀, hstart⟩ hfuel
  have hdone : last < it ∧ s'.hasWork = false := by simpa using hdone
  exact ⟨it, s', inbox', hloop, hend, hdone.1, hdone.2⟩

/-! ## What it returns -/

variable {Hidden K V κ : Type} {M : Transformer Hidden K V} {clock : κ → Time × κ}
  {w : RunnerState κ K V}

/-- At the end a request has nothing or what it would have alone. -/
theorem Scheduled.output (hm : m.Serves cfg) (hpool : w.pool.layout = m.layout)
    (hserve : Serving m src k) {inbox : List Ref} {it : Int} {s : Scheduler (RunnerState κ K V)}
    (h : Scheduled (Env.ofRunner M clock) cfg m w src ats k inbox it s) (hit : ∀ r < k, ats r < it)
    (hdone : s.hasWork = false) {r : Ref} (hr : r < k) (hc : (src r).cancelled = false) :
    (ats r < 0 → (s.heap r).outputTokenIds = []) ∧
      (0 ≤ ats r → Request.Ends M.next (src r).promptTokenIds (src r).capped (src r).ignoreEos
        (s.heap r).outputTokenIds) := by
  have hgood := h.good hm.fresh
  have hlt : r < (rest s inbox).sched.next := (show s.next = k from h.next).symm ▸ hr
  obtain ⟨hw, hrun⟩ := hasWork_false.mp hdone
  constructor <;> intro hat
  · have hin : r ∈ inbox := (h.inbox r).mpr ⟨hr, Or.inl hat⟩
    have hof := (View.of_inbox (v := (rest s inbox).view r) (phase_inbox hin)).mp
      (h.sourced r hlt)
    exact (congrArg Request.outputTokenIds hof.1).trans rfl
  · have hout : r ∉ inbox := fun hin => by
      have hwait := ((h.inbox r).mp hin).2
      have hpast := hit r hr
      omega
    have hplaced : r ∉ (rest s inbox).placed := by
      simpa [placed, held, rest, hw, hrun] using hout
    have hcan : ((rest s inbox).sched.heap r).cancelled = false := (h.cancelled r hr).trans hc
    have hfin := hgood.finished_of_left hlt hplaced hcan
    have hctx := h.sourced.inContext fun x hx =>
      (hserve.servable x ((show s.next = k from h.next) ▸ hx)).valid
    have hfol := (computed_ops hm.fresh hpool hctx (reach_of_withLookup h.reach)).2.2
    exact h.sourced.ends hgood hfol ⟨hlt, hout⟩ hfin

/-- The requests and their iterations, by position. -/
theorem exists_entries {α β : Type} (l : List (α × β)) (hne : l ≠ []) :
    ∃ (f : Nat → α) (g : Nat → β), ∀ i (hi : i < l.length), l[i] = (f i, g i) := by
  obtain ⟨a, ha⟩ := List.exists_mem_of_ne_nil l hne
  refine ⟨fun i => (l.getD i a).1, fun i => (l.getD i a).2, fun i hi => ?_⟩
  simp only [List.getD_eq_getElem _ _ hi]

/--
**Batch independence over a schedule.** Take requests that the engine can serve one by one (a prompt
of 1 to 1023 ids, a positive limit, room for both in the memory: `Servable`), with ids of the
vocabulary, each under an id of its own and none cancelled. Whatever the iterations they arrive at,
whatever the batching, the memory and the evictions, with `max_batch` at least one `run_schedule`
ends, and it returns for each request that arrives what `generate_cached` returns for it alone; a
request with a negative iteration never arrives and gets nothing.
-/
theorem run_schedule_alone (hm : m.Serves cfg) (hbatch : 1 ≤ cfg.maxBatch) (hM : M.InVocab)
    (hpool : w.pool.layout = m.layout) {specs : List (NewRequest × Int)} (hne : specs ≠ [])
    (hserve : ∀ spec ∈ specs, spec.1.Servable m ∧ spec.1.InVocab ∧ spec.1.cancelled = false)
    (hids : (specs.map fun spec => spec.1.requestId).Nodup) :
    ∃ rounds, ∀ fuel, rounds ≤ fuel → ∃ outs,
      Scheduler.runSchedule (Env.ofRunner M clock) cfg fuel (.init cfg m w) specs
        = .ok (some outs) ∧ outs.length = specs.length ∧
      ∀ (i : Nat) (n : NewRequest) (at_ : Int), specs[i]? = some (n, at_) → ∃ out,
        outs[i]? = some out ∧
        (at_ < 0 → out = []) ∧
        (0 ≤ at_ → ∀ cache, M.generateCached cache n.promptTokenIds n.maxNewTokens n.ignoreEos
          = .ok out) := by
  obtain ⟨src, ats, hget⟩ := exists_entries specs hne
  obtain ⟨last, hlast⟩ : ∃ last, (specs.map Prod.snd).max? = some last :=
    Option.ne_none_iff_exists'.mp fun hnone => hne (by simpa using hnone)
  have hreqs : specs.mapIdx (fun i spec => (0 + i, spec.2)) =
      (List.range specs.length).map fun r => (r, ats r) := by
    refine List.ext_getElem (by simp) fun i hi hi' => ?_
    have hi : i < specs.length := by simpa using hi
    simp [hget i hi]
  have hmem : ∀ r < specs.length, (src r, ats r) ∈ specs := fun r hr =>
    hget r hr ▸ List.getElem_mem hr
  have hle : ∀ r < specs.length, ats r ≤ last := fun r hr =>
    (List.max?_eq_some_iff.mp hlast).2 _ (List.mem_map.mpr ⟨_, hmem r hr, rfl⟩)
  have hserving : Serving m src specs.length := by
    refine ⟨fun r hr => (hserve _ (hmem r hr)).1, fun r hr => (hserve _ (hmem r hr)).2.1,
      fun r hr r' hr' he => ?_⟩
    have hlt : r < (specs.map fun spec => spec.1.requestId).length := by simpa using hr
    have hlt' : r' < (specs.map fun spec => spec.1.requestId).length := by simpa using hr'
    have he : (specs.map fun spec => spec.1.requestId)[r] =
        (specs.map fun spec => spec.1.requestId)[r'] := by
      simpa [hget r hr, hget r' hr'] using he
    exact hids.getElem_inj_iff.mp he
  have hbuilt := scheduled_built (Env.ofRunner M clock) cfg w src ats hm.fresh
    (specs.map Prod.fst) fun i n hi => by
      obtain ⟨hlt, rfl⟩ := List.getElem?_eq_some_iff.mp hi
      have hlt : i < specs.length := by simpa using hlt
      simp [hget i hlt]
  rw [List.length_map, List.foldl_map] at hbuilt
  obtain ⟨rounds, hends⟩ := scheduleLoop_ends hm hbatch (ofRunner_neverRaises hm hM hpool)
    hserving hle hbuilt
  refine ⟨rounds, fun fuel hfuel => ?_⟩
  obtain ⟨it, s, inbox, hloop, hend, hit, hdone⟩ := hends fuel hfuel
  refine ⟨(List.range specs.length).map fun r => (s.heap r).outputTokenIds, ?_, by simp,
    fun i n at_ hi => ?_⟩
  · have hnext : (Scheduler.init cfg m w).next = 0 := rfl
    unfold Scheduler.runSchedule
    rw [hnext, hreqs, hlast]
    dsimp only
    rw [hloop]
    exact congrArg (fun outs => Except.ok (some outs)) List.map_map
  · obtain ⟨hlt, he⟩ := List.getElem?_eq_some_iff.mp hi
    obtain ⟨rfl, rfl⟩ := Prod.mk.inj ((hget i hlt).symm.trans he)
    obtain ⟨hserve, -, hc⟩ := hserve _ (hmem i hlt)
    obtain ⟨hnil, hends⟩ := hend.output hm hpool hserving (fun r hr => (hle r hr).trans_lt hit) hdone
      hlt hc
    refine ⟨_, by simp [hlt], hnil, fun hat cache => ?_⟩
    obtain ⟨res, hres, hcached⟩ := M.generateCached_ends cache hserve.valid.prompt_pos
      hserve.valid.prompt_le (src i).maxNewTokens (src i).ignoreEos
    rw [hres, hcached.unique (hends hat)]

/-- Three neighbours in a pool of four blocks, one of whom arrives late and one never. -/
theorem run_schedule_alone_neighbours :
    ∃ rounds, ∀ fuel, rounds ≤ fuel → ∃ outs,
      Scheduler.runSchedule (Env.ofRunner tiny tinyClock) { preemption := true } fuel
        (.init { preemption := true } (.block (.new 4 1 Nat.one_pos false))
          (tinyWorld (.block (.new 4 1 Nat.one_pos false))))
        [({ requestId := "a", promptTokenIds := [1], maxNewTokens := 3 }, 0),
          ({ requestId := "b", promptTokenIds := [2], maxNewTokens := 3 }, 3),
          ({ requestId := "c", promptTokenIds := [3], maxNewTokens := 1 }, -1)]
        = .ok (some outs) ∧ outs.length = 3 := by
  have hm : (Manager.block (.new 4 1 Nat.one_pos false)).Serves { preemption := true } :=
    ⟨Manager.fresh_block_new .., nofun, fun _ => rfl⟩
  have hpool : (tinyWorld (.block (.new 4 1 Nat.one_pos false))).pool.layout =
      (Manager.block (.new 4 1 Nat.one_pos false)).layout := rfl
  have hserve : ∀ spec ∈ ([({ requestId := "a", promptTokenIds := [1], maxNewTokens := 3 }, 0),
      ({ requestId := "b", promptTokenIds := [2], maxNewTokens := 3 }, 3),
      ({ requestId := "c", promptTokenIds := [3], maxNewTokens := 1 }, -1)] :
        List (NewRequest × Int)), spec.1.Servable (.block (.new 4 1 Nat.one_pos false)) ∧
      spec.1.InVocab ∧ spec.1.cancelled = false := by
    intro spec hspec
    simp only [List.mem_cons, List.not_mem_nil, or_false] at hspec
    rcases hspec with rfl | rfl | rfl <;>
      exact ⟨⟨⟨by decide, by decide, by decide⟩, by decide⟩,
        fun tok htok => List.mem_singleton.mp htok ▸ by decide, rfl⟩
  have hids : (([({ requestId := "a", promptTokenIds := [1], maxNewTokens := 3 }, 0),
      ({ requestId := "b", promptTokenIds := [2], maxNewTokens := 3 }, 3),
      ({ requestId := "c", promptTokenIds := [3], maxNewTokens := 1 }, -1)] :
        List (NewRequest × Int)).map fun spec => spec.1.requestId).Nodup := by decide
  exact (run_schedule_alone hm (by decide) tiny_inVocab hpool (List.cons_ne_nil _ _) hserve
    hids).imp fun rounds hends fuel hfuel =>
      (hends fuel hfuel).imp fun outs h => ⟨h.1, h.2.1⟩

end LlmServe
