import LlmServe.Engine.NextToken
import LlmServe.Properties.Progress
import LlmServe.Properties.Queue

/-!
# No starvation under endless arrivals

The ranking of a waiting request `r` is the number of tokens that those running or ahead of it may
still get. Newcomers and evictions do not raise it: the set it sums over is fixed when `r` begins to
wait (`Queued`), and an evicted request keeps its tokens. Each step lowers it or admits `r`.
-/

namespace LlmServe

open Infra Point

variable {σ : Type} {env : Env σ} {cfg : EngineConfig} {m : Manager} {w : σ}

/-- The running requests, and those that sort before `r` in the queue. -/
def Scheduler.ahead (s : Scheduler σ) (r : Ref) : List Ref :=
  s.running ++ (Scheduler.sortWaiting s.heap s.waiting).takeWhile (· ≠ r)

/-- `q` has been admitted between `s` and `s'`. -/
def AdmittedSince (s s' : Scheduler σ) (q : Ref) : Prop :=
  (s.admitCounter : Int) ≤ (s'.heap q).admitSeq

instance (s s' : Scheduler σ) (q : Ref) : Decidable (AdmittedSince s s' q) :=
  inferInstanceAs (Decidable (_ ≤ _))

/-- The tokens that the open members of `S` may still get. -/
def potential (S : List Ref) (s : Scheduler σ) : Nat :=
  (S.map fun q => if (s.heap q).Open then (s.heap q).remaining else 0).sum

variable {s s' : Scheduler σ} {r : Ref} {S : List Ref} {c : Nat}

/-! ## The ranking -/

theorem Request.Evolves.open {q q' : Request} (h : q.Evolves q') (ho : q'.Open) : q.Open := by
  constructor
  · by_contra hne
    exact hne ((h.finishReason hne).symm.trans ho.1)
  · cases hc : q.cancelled with
    | false => rfl
    | true => exact absurd (ho.2.symm.trans (h.cancelled hc)) nofun

theorem term_le {q q' : Request} (h : q.Evolves q') :
    (if q'.Open then q'.remaining else 0) ≤ if q.Open then q.remaining else 0 := by
  by_cases ho : q'.Open
  · rw [if_pos ho, if_pos (h.open ho)]
    exact h.remaining_le
  · rw [if_neg ho]
    exact Nat.zero_le _

theorem potential_le (h : ∀ q ∈ S, (s.heap q).Evolves (s'.heap q)) :
    potential S s' ≤ potential S s := List.sum_le_sum fun q hq => term_le (h q hq)

theorem potential_lt (h : ∀ q ∈ S, (s.heap q).Evolves (s'.heap q)) {q : Ref} (hq : q ∈ S)
    (ho : (s.heap q).Open) (hgrows : Grows s s' q)
    (hroom : ((s.heap q).outputTokenIds.length : Int) < (s.heap q).maxNewTokens) :
    potential S s' < potential S s := by
  have hlt := (h q hq).remaining_lt hgrows hroom
  refine List.sum_lt_sum _ _ (fun x hx => term_le (h x hx)) ⟨q, hq, ?_⟩
  rw [if_pos ho]
  split <;> omega

/-! ## Where `r` stands -/

theorem queued_start (hgood : Good cfg m (rest s [])) (hst : Stamped (rest s []))
    (hr : r ∈ s.waiting) : Queued (s.ahead r) s.admitCounter r (rest s []) where
  waits := hr
  held := fun _ hq => List.mem_append_left _ hq
  admitted := fun q hq => absurd (hst q) (by simpa [rest] using hq)
  behind := fun q hq hS hne =>
    after_of_notMem_takeWhile _ hgood.placed.waiting_nodup hr hq hne fun hmem =>
      hS (List.mem_append_right _ hmem)

theorem ahead_lt (hgood : Good cfg m (rest s [])) : ∀ q ∈ s.ahead r, q < s.next := by
  intro q hq
  rcases List.mem_append.mp hq with hq | hq
  · exact hgood.placed.lt_next q (mem_placed_of_held (mem_held_of_running hq))
  · exact hgood.placed.lt_next q
      (mem_placed_of_waiting ((mem_sortKey _).mp (List.takeWhile_subset _ hq)))

theorem queued_accept (h : Queued S c r (rest s [])) (hp : Placed cfg (rest s [])) {n : NewRequest}
    (harr : (s.heap r).arrivalTime ≤ n.arrivalTime) : Queued S c r (rest (s.accept n) []) := by
  have hlt : ∀ q ∈ s.waiting, q ≠ s.next := fun q hq =>
    (hp.lt_next q (mem_placed_of_waiting hq)).ne
  have hother : ∀ q, q ≠ s.next → (s.accept n).heap q = s.heap q := fun q hq => by
    rw [accept_heap, Function.update_of_ne hq]
  have hwaiting : (s.accept n).waiting = s.waiting ++ [s.next] := rfl
  have hr := hlt r h.waits
  refine ⟨?_, h.held, fun q hq => ?_, fun q hq hS hne => ?_⟩
  · exact List.mem_append_left _ h.waits
  · change (c : Int) ≤ ((s.accept n).heap q).admitSeq at hq
    by_cases hn : q = s.next
    · rw [accept_heap, hn, Function.update_self] at hq
      change (c : Int) ≤ -1 at hq
      omega
    · exact h.admitted q (hother q hn ▸ hq)
  · by_cases hn : q = s.next
    · -- the newcomer: never evicted, and no earlier than `r`
      have hkey : Scheduler.waitingKey ((s.accept n).heap q) = toLex (0, n.arrivalTime) := by
        rw [accept_heap, hn, Function.update_self]
        rfl
      have hle : Scheduler.waitingKey ((s.accept n).heap r)
          ≤ Scheduler.waitingKey ((s.accept n).heap q) := by
        rw [hkey, hother r hr, Scheduler.waitingKey, Prod.Lex.toLex_le_toLex]
        rcases Nat.eq_zero_or_pos (s.heap r).preemptCount with hz | hpos
        · exact Or.inr ⟨by simp [hz], harr⟩
        · exact Or.inl (by simpa using hpos)
      rcases hle.lt_or_eq with hlt' | heq
      · exact Or.inl hlt'
      · refine Or.inr ⟨heq, ?_⟩
        show [r, q].Sublist (s.accept n).waiting
        rw [hwaiting, hn]
        exact (List.singleton_sublist.mpr h.waits).append (List.Sublist.refl [s.next])
    · have hq' : q ∈ s.waiting := by
        change q ∈ (s.accept n).waiting at hq
        simpa [hwaiting, hn] using hq
      refine (h.behind q hq' hS hne).of_eq (congrArg _ (hother r hr)) (congrArg _ (hother q hn))
        fun hs => ?_
      show [r, q].Sublist (s.accept n).waiting
      rw [hwaiting]
      exact hs.trans (List.sublist_append_left ..)

/-- A request that has been admitted stays so. -/
theorem act_admitSeq {a : Action} (hp : Placed cfg (rest s [])) (hr : r < s.next)
    (h : s.act env cfg a = .ok s') : s.admitCounter ≤ s'.admitCounter ∧
      (c ≤ s.admitCounter → (c : Int) ≤ (s.heap r).admitSeq → (c : Int) ≤ (s'.heap r).admitSeq) := by
  cases a with
  | submit n =>
    cases h
    refine ⟨le_rfl, fun _ hc => ?_⟩
    rwa [accept_heap, Function.update_of_ne hr.ne]
  | cancel x =>
    cases h
    split
    · have hseq : ((s.cancel x).heap r).admitSeq = (s.heap r).admitSeq :=
        apply_update Request.admitSeq (by rfl) r
      exact ⟨le_rfl, fun _ hc => hseq ▸ hc⟩
    · exact ⟨le_rfl, fun _ hc => hc⟩
  | step =>
    obtain ⟨hle, hseq⟩ := stepOps_admitSeq (step_ops hp h)
    exact ⟨hle, hseq r c⟩

/--
**One action.** While `r` is neither cancelled nor admitted, those ahead of it stay ahead, and a
step lowers the ranking.
-/
theorem queued_act (hm : m.Serves cfg) (hbatch : 1 ≤ cfg.maxBatch) {a : Action}
    (hgood : Good cfg m (rest s []))
    (hl : ∀ p, StepOps env cfg (fun _ _ => True) (rest s []) p → Loaded m p)
    (hc : c ≤ s.admitCounter) (hS : ∀ q ∈ S, q < s.next) (h : Queued S c r (rest s []))
    (harr : ∀ n, a = .submit n → (s.heap r).arrivalTime ≤ n.arrivalTime)
    (hopen : (s.heap r).cancelled = false) (hact : s.act env cfg a = .ok s') :
    (c : Int) ≤ (s'.heap r).admitSeq ∨
      Queued S c r (rest s' []) ∧ potential S s' + [a].count .step ≤ potential S s := by
  have hops := act_reach hgood.placed hact
  have hev : ∀ q ∈ S, (s.heap q).Evolves (s'.heap q) := fun q hq =>
    hgood.evolves hops (submitted_rest (hS q hq))
  cases a with
  | submit n =>
    cases hact
    exact Or.inr ⟨queued_accept h hgood.placed (harr n rfl), potential_le hev⟩
  | cancel x =>
    refine Or.inr ⟨?_, potential_le hev⟩
    cases hact
    split
    · exact h.touches (Scheduler.touches_modify ..) rfl rfl rfl
    · exact h
  | step =>
    obtain ⟨-, hadm | ⟨hq, hout⟩⟩ := queued_stepOps hgood h hopen hc (step_ops hgood.placed hact)
    · exact Or.inl hadm
    · have hwork : ∃ q, (q ∈ s.waiting ∨ q ∈ s.running) ∧ (s.heap q).Open :=
        ⟨r, Or.inl h.waits, hgood.open_of_waiting h.waits hopen⟩
      obtain ⟨q, hmem, ho, hgrows⟩ := step_grows hm hbatch hgood hl hwork hact
      have hsub : (rest s []).Submitted q :=
        hgood.submitted_of_mem (hmem.imp_right mem_held_of_running)
      have hqS : q ∈ S := by
        by_contra hno
        exact hgrows.ne (congrArg List.length (hout q hsub hno)).symm
      exact Or.inr ⟨hq, potential_lt hev hqS ho hgrows ((hl _ .refl).output_lt hgood hsub ho)⟩

/-- What is known at every boundary of a run that goes on from `s`. -/
theorem queued_run (hm : m.Serves cfg) (hbatch : 1 ≤ cfg.maxBatch) {acts₀ acts : List Action}
    (hserve : ∀ n ∈ submitted (acts₀ ++ acts), n.Servable m)
    (hids : ((submitted (acts₀ ++ acts)).map NewRequest.requestId).Nodup)
    (hrun₀ : run (Scheduler.act env cfg) (.init cfg m w) acts₀ = .ok s) (hr : r ∈ s.waiting)
    (harr : ∀ n ∈ submitted acts, (s.heap r).arrivalTime ≤ n.arrivalTime)
    (hrun : run (Scheduler.act env cfg) s acts = .ok s') (hopen : (s'.heap r).cancelled = false) :
    s.admitCounter ≤ s'.admitCounter ∧ (AdmittedSince s s' r ∨
      Queued (s.ahead r) s.admitCounter r (rest s' []) ∧
        potential (s.ahead r) s' + acts.count .step ≤ potential (s.ahead r) s) := by
  have hgood₀ := run_good hm.fresh hrun₀
  have hstart : Queued (s.ahead r) s.admitCounter r (rest s []) :=
    queued_start hgood₀ (stamped_ops (stamped_init cfg m w) (run_reach hm.fresh hrun₀)) hr
  have hr₀ : r < s.next := hgood₀.placed.lt_next r (mem_placed_of_waiting hr)
  have hS₀ := ahead_lt hgood₀ (r := r)
  induction acts using List.reverseRecOn generalizing s' with
  | nil =>
    cases hrun
    exact ⟨le_rfl, Or.inr ⟨hstart, le_rfl⟩⟩
  | append_singleton acts a ih =>
    rw [run_snoc] at hrun
    obtain ⟨s₁, hs₁, hact⟩ := exists_of_bind_ok hrun
    have hall : run (Scheduler.act env cfg) (.init cfg m w) (acts₀ ++ acts) = .ok s₁ := by
      rw [run_append, hrun₀]
      exact hs₁
    rw [← List.append_assoc, submitted_append] at hserve hids
    have hserve₁ : ∀ n ∈ submitted (acts₀ ++ acts), n.Servable m := fun n hn =>
      hserve n (List.mem_append_left _ hn)
    have hids₁ : ((submitted (acts₀ ++ acts)).map NewRequest.requestId).Nodup := by
      rw [List.map_append] at hids
      exact hids.of_append_left
    rw [submitted_append] at harr
    have hgood₁ := run_good hm.fresh hall
    have hreach := run_reach_from hgood₀ hs₁
    have hsub : ∀ q < s.next, q < s₁.next := fun q hq =>
      (hgood₀.submitted hreach (submitted_rest hq)).2.1
    have hev : (s.heap r).Evolves (s₁.heap r) := hgood₀.evolves hreach (submitted_rest hr₀)
    have hev' : (s₁.heap r).Evolves (s'.heap r) :=
      hgood₁.evolves (act_reach hgood₁.placed hact) (submitted_rest (hsub r hr₀))
    -- nobody takes the flag back
    have hopen₁ : (s₁.heap r).cancelled = false := by
      cases hcan : (s₁.heap r).cancelled with
      | false => rfl
      | true => exact absurd (hopen.symm.trans (hev'.cancelled hcan)) nofun
    obtain ⟨hc, ih⟩ := ih hserve₁ hids₁ (fun n hn => harr n (List.mem_append_left _ hn)) hs₁ hopen₁
    obtain ⟨hle, hkeep⟩ := act_admitSeq (c := s.admitCounter) hgood₁.placed (hsub r hr₀) hact
    refine ⟨hc.trans hle, ?_⟩
    rcases ih with hadm | ⟨hq, hpot⟩
    · exact Or.inl (hkeep hc hadm)
    · have hl : ∀ p, StepOps env cfg (fun _ _ => True) (rest s₁ []) p → Loaded m p := fun p hp =>
        (Inside.of_stepOps hp).loaded hm.fresh hall hserve₁ hids₁
      have harr₁ : ∀ n, a = .submit n → (s₁.heap r).arrivalTime ≤ n.arrivalTime := by
        rintro n rfl
        rw [hev.arrivalTime]
        exact harr n (List.mem_append_right _ (by simp [submitted]))
      refine (queued_act hm hbatch hgood₁ hl hc (fun q hq => hsub q (hS₀ q hq)) hq harr₁ hopen₁
        hact).imp_right fun ⟨hq', hpot'⟩ => ⟨hq', ?_⟩
      rw [List.count_append]
      omega

/--
**No starvation.** Let `r` wait uncancelled at the end of a run, and let the run go on, with
requests arriving in order. At any boundary `s'` where `r` has been neither admitted nor cancelled:
up to the next time `r` is admitted only requests ahead of `r` have been; the next step returns, and
admits `r` or lowers the ranking; and the ranking has paid for every step taken so far, so there
can be no more of them than it counted at the start.
-/
theorem no_starvation (hm : m.Serves cfg) (hbatch : 1 ≤ cfg.maxBatch) {acts₀ acts : List Action}
    (hserve : ∀ n ∈ submitted (acts₀ ++ acts), n.Servable m)
    (hids : ((submitted (acts₀ ++ acts)).map NewRequest.requestId).Nodup)
    (harrival : (submitted (acts₀ ++ acts)).Pairwise fun a b => a.arrivalTime ≤ b.arrivalTime)
    (hrun₀ : run (Scheduler.act env cfg) (.init cfg m w) acts₀ = .ok s) (hr : r ∈ s.waiting)
    (hrun : run (Scheduler.act env cfg) s acts = .ok s') (hopen : (s'.heap r).cancelled = false)
    (hwait : ¬AdmittedSince s s' r) :
    (∀ p, StepOps env cfg (fun _ _ => True) (rest s' []) p → ¬AdmittedSince s p.sched r →
      ∀ q, AdmittedSince s p.sched q → q ∈ s.ahead r) ∧
    (env.Answers → ∃ s'', s'.step env cfg = .ok s'') ∧
    (∀ s'', s'.step env cfg = .ok s'' →
      AdmittedSince s s'' r ∨ potential (s.ahead r) s'' < potential (s.ahead r) s') ∧
    potential (s.ahead r) s' + acts.count .step ≤ potential (s.ahead r) s := by
  have hgood₀ := run_good hm.fresh hrun₀
  have hr₀ : r < s.next := hgood₀.placed.lt_next r (mem_placed_of_waiting hr)
  have harr : ∀ n ∈ submitted acts, (s.heap r).arrivalTime ≤ n.arrivalTime := by
    intro n hn
    obtain ⟨n₀, hn₀, hev⟩ := (run_provenance hm.fresh hrun₀).request hr₀
    rw [hev.arrivalTime]
    rw [submitted_append] at harrival
    exact (List.pairwise_append.mp harrival).2.2 n₀ (List.mem_of_getElem? hn₀) n hn
  obtain ⟨hc, hor⟩ := queued_run hm hbatch hserve hids hrun₀ hr harr hrun hopen
  obtain ⟨hq, hpot⟩ := hor.resolve_left hwait
  have hall : run (Scheduler.act env cfg) (.init cfg m w) (acts₀ ++ acts) = .ok s' := by
    rw [run_append, hrun₀]
    exact hrun
  have hgood := run_good hm.fresh hall
  have hl : ∀ p, StepOps env cfg (fun _ _ => True) (rest s' []) p → Loaded m p := fun p hp =>
    (Inside.of_stepOps hp).loaded hm.fresh hall hserve hids
  have hS : ∀ q ∈ s.ahead r, q < s'.next := by
    intro q hq
    have hlt := ahead_lt hgood₀ q hq
    exact (hgood₀.submitted (run_reach_from hgood₀ hrun) (submitted_rest hlt)).2.1
  refine ⟨fun p hp hno q hadm => ?_, fun henv => step_isOk hm henv hgood hl, fun s'' hs'' => ?_, hpot⟩
  · obtain ⟨-, hor⟩ := queued_stepOps hgood hq hopen hc hp
    exact (hor.resolve_left hno).1.admitted q hadm
  · have hone := queued_act hm hbatch hgood hl hc hS hq nofun hopen (a := .step) hs''
    refine hone.imp_right fun ⟨_, hlt⟩ => ?_
    rw [List.count_singleton_self] at hlt
    omega

/-- Request 1 has been evicted and waits; a younger request arrives and a step passes. -/
theorem no_starvation_evicted :
    ∃ s, run (Scheduler.act (Env.ofNext fun toks => toks.length) { preemption := true })
        (.init { preemption := true } (.block (.new 5 1 Nat.one_pos false)) .start)
        [.submit { requestId := "a", promptTokenIds := [1], maxNewTokens := 4 },
          .submit { requestId := "b", promptTokenIds := [2], maxNewTokens := 4 }, .step, .step]
        = .ok s ∧ ∃ s', run (Scheduler.act (Env.ofNext fun toks => toks.length) { preemption := true })
        s [.submit { requestId := "c", promptTokenIds := [3], maxNewTokens := 4 }, .step] = .ok s' ∧
      potential (s.ahead 1) s' + 1 ≤ potential (s.ahead 1) s := by
  have hrun : ∃ s, run (Scheduler.act (Env.ofNext fun toks => toks.length) { preemption := true })
      (.init { preemption := true } (.block (.new 5 1 Nat.one_pos false)) .start)
      [.submit { requestId := "a", promptTokenIds := [1], maxNewTokens := 4 },
        .submit { requestId := "b", promptTokenIds := [2], maxNewTokens := 4 }, .step, .step]
      = .ok s ∧ 1 ∈ s.waiting ∧
      ∃ s', run (Scheduler.act (Env.ofNext fun toks => toks.length) { preemption := true }) s
        [.submit { requestId := "c", promptTokenIds := [3], maxNewTokens := 4 }, .step] = .ok s' ∧
        (s'.heap 1).cancelled = false ∧ ¬AdmittedSince s s' 1 := by
    decide +kernel
  have hm : (Manager.block (.new 5 1 Nat.one_pos false)).Serves { preemption := true } :=
    ⟨Manager.fresh_block_new .., nofun, fun _ => rfl⟩
  obtain ⟨s, hs, hr, s', hs', hopen, hwait⟩ := hrun
  refine ⟨s, hs, s', hs', (no_starvation hm (by decide) ?_ (by decide) (by decide) hs hr hs' hopen
    hwait).2.2.2⟩
  intro n hn
  simp only [submitted, List.cons_append, List.nil_append, List.filterMap_cons,
    List.filterMap_nil, List.mem_cons, List.not_mem_nil, or_false] at hn
  rcases hn with rfl | rfl | rfl <;> exact ⟨⟨by decide, by decide, by decide⟩, by decide⟩

end LlmServe
