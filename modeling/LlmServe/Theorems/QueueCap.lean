import LlmServe.Theorems.NoLostRequest
import LlmServe.Properties.Queue

/-!
# The queue cap

`submit` compares the cap with the sizes of two containers. A request that the engine thread has
taken out of the inbox and not yet appended to `waiting` is in neither, so one more can get in.
No other step of a thread raises the number of accepted requests that were never admitted: an
evicted request has been.
-/

namespace LlmServe

open Infra Point

variable {σ : Type} {env : Env σ} {cfg : EngineConfig} {m : Manager} {w : σ}

/-! ## Inside a step -/

/-- Only an admission numbers a request. -/
def Request.Unadmitted (q : Request) : Prop := q.admitSeq < 0

instance instDecidableUnadmitted (q : Request) : Decidable q.Unadmitted :=
  inferInstanceAs (Decidable (_ < _))

theorem move_to_waiting {r : Ref} {v v' : View} (hmv : Move cfg m r v v')
    (hw : v'.phase = .waiting) :
    v.phase = .waiting ∨ v.phase = .inbox ∨
      v.phase = .running ∧ v'.req.admitSeq = v.req.admitSeq := by
  cases hmv with
  | submit hphase => exact .inr (.inl hphase)
  | preempt hphase => exact .inr (.inr ⟨hphase, rfl⟩)
  | admitHead | prefill | join | leave | drop | create => cases hw
  | _ => exact .inl hw

/-- A small step brings no unadmitted request to `waiting`. -/
theorem unadmitted_stepOp {p p' : Point σ} (hgood : Good cfg m p)
    (hop : StepOp env cfg (fun _ _ => True) p p') {r : Ref} (hr : r ∈ p'.sched.waiting)
    (hnew : (p'.sched.heap r).Unadmitted) :
    r ∈ p.sched.waiting ∧ (p.sched.heap r).Unadmitted := by
  have hold : (p'.sched.heap r).admitSeq = (p.sched.heap r).admitSeq := by
    rcases (stepOp_admitSeq hop).2 r with he | ⟨he, -⟩
    · exact he
    · unfold Request.Unadmitted at hnew
      omega
  have hwas : (p.sched.heap r).Unadmitted := by
    unfold Request.Unadmitted at hnew ⊢
    omega
  have hphase : p'.phase r = .waiting := phase_waiting (placed_op (.step hop) hgood.placed) hr
  have hmem := mem_of_phase p r
  rcases move_to_waiting (op_move (.step hop) hgood.placed hgood.shape r) hphase with
    hv | hv | ⟨hv, -⟩ <;> rw [show p.phase r = _ from hv] at hmem
  · exact ⟨hmem, hwas⟩
  · -- the engine takes nothing out of the inbox inside a step
    have hin : r ∈ p'.inbox := by
      rw [(stepOp_frame hop).inbox]
      exact hmem
    cases (phase_inbox hin).symm.trans hphase
  · have h0 := hgood.placed.seq_nonneg r (mem_held_of_running hmem)
    unfold Request.Unadmitted at hwas
    omega

theorem unadmitted_stepOps {p p' : Point σ} (hgood : Good cfg m p)
    (hops : StepOps env cfg (fun _ _ => True) p p') {r : Ref} (hr : r ∈ p'.sched.waiting)
    (hnew : (p'.sched.heap r).Unadmitted) :
    r ∈ p.sched.waiting ∧ (p.sched.heap r).Unadmitted := by
  induction hops with
  | refl => exact ⟨hr, hnew⟩
  | tail hfirst hop ih =>
    obtain ⟨hr', hnew'⟩ := unadmitted_stepOp (hgood.ops (ops_of_stepOps hfirst)) hop hr hnew
    exact ih hr' hnew'

/-! ## Between the threads -/

namespace EngineLoop

/-- The accepted requests that have never been admitted. -/
def unadmitted (l : EngineLoop σ) : List Ref :=
  l.inbox ++ l.hand ++ l.sched.waiting.filter fun r => (l.sched.heap r).Unadmitted

/-- The depth is one below the cap `c` and leaves out a request that counts. -/
def Squeezed (c : Nat) (l : EngineLoop σ) : Prop :=
  l.hand ≠ [] ∧ l.queueDepth + 1 = c ∧ ∀ r ∈ l.sched.waiting, (l.sched.heap r).Unadmitted

instance instDecidableSqueezed (c : Nat) (l : EngineLoop σ) : Decidable (l.Squeezed c) :=
  inferInstanceAs (Decidable (_ ∧ _))

theorem length_hand (l : EngineLoop σ) : l.hand.length ≤ 1 := by
  unfold hand
  cases l.pc <;> simp

theorem length_unadmitted (l : EngineLoop σ) : l.unadmitted.length = l.inbox.length + l.hand.length
    + (l.sched.waiting.filter fun r => (l.sched.heap r).Unadmitted).length := by
  unfold unadmitted
  rw [List.length_append, List.length_append]

/-- Whatever is not an accepted submission keeps the number or lowers it. -/
theorem unadmitted_advance {l l' : EngineLoop σ} (hgood : Good cfg m l.point)
    (h : l.advance env cfg = .ok l') : l'.unadmitted.length ≤ l.unadmitted.length := by
  have hsame : l'.sched = l.sched → l'.hand ++ l'.inbox = l.hand ++ l.inbox →
      l'.unadmitted.length ≤ l.unadmitted.length := by
    intro hs hi
    have hlen := congrArg List.length hi
    rw [List.length_append, List.length_append] at hlen
    rw [length_unadmitted, length_unadmitted, hs]
    omega
  unfold advance at h
  cases hpc : l.pc with
  | top =>
    simp only [hpc] at h
    cases h
    apply hsame
    · rfl
    · cases hstop : l.stop <;> simp [hand, hpc]
  | drain =>
    simp only [hpc] at h
    cases hin : l.inbox with
    | nil =>
      simp only [hin] at h
      cases h
      exact hsame rfl (by simp [hand, hpc, hin])
    | cons r rest =>
      simp only [hin] at h
      cases h
      exact hsame rfl (by simp [hand, hpc, hin])
  | hand r =>
    simp only [hpc] at h
    cases h
    -- `r` goes from the hand to the queue and is counted in either
    have hseq : ∀ x, ((l.sched.submit r).heap x).admitSeq = (l.sched.heap x).admitSeq :=
      apply_update Request.admitSeq (by rfl)
    have hfilter : ((l.sched.submit r).waiting.filter
          fun x => ((l.sched.submit r).heap x).Unadmitted).length
        ≤ (l.sched.waiting.filter fun x => (l.sched.heap x).Unadmitted).length + 1 := by
      have hw : (l.sched.submit r).waiting = l.sched.waiting ++ [r] := rfl
      simp only [Request.Unadmitted, hseq, hw, List.filter_append, List.length_append]
      exact Nat.add_le_add_left (List.length_filter_le _ _) _
    have hhand : l.hand = [r] := by simp [hand, hpc]
    rw [length_unadmitted, length_unadmitted, hhand]
    simp only [hand, List.length_nil, List.length_singleton]
    omega
  | work =>
    simp only [hpc] at h
    split at h
    · obtain ⟨s', hs', he⟩ := exists_of_bind_ok h
      cases he
      have hpoint : l.point = rest l.sched l.inbox := by simp [point, hand, hpc]
      rw [hpoint] at hgood
      have hout := step_outcome env l.sched l.inbox hgood.placed (stepKeeps_true env cfg _ l.sched)
      rw [hs'] at hout
      obtain ⟨p, hops, rfl⟩ := hout
      have hgood' := hgood.ops (ops_of_stepOps hops)
      -- an evicted request has been admitted before, so a step adds nobody to the count
      have hsub : (s'.waiting.filter fun r => (s'.heap r).Unadmitted).length
          ≤ (l.sched.waiting.filter fun r => (l.sched.heap r).Unadmitted).length := by
        apply List.Subperm.length_le
        refine (hgood'.placed.waiting_nodup.filter _).subperm ?_
        intro r hr
        obtain ⟨hr, hnew⟩ := List.mem_filter.mp hr
        obtain ⟨hr', hnew'⟩ := unadmitted_stepOps hgood hops hr (of_decide_eq_true hnew)
        exact List.mem_filter.mpr ⟨hr', decide_eq_true hnew'⟩
      have hhand : l.hand = [] := by simp [hand, hpc]
      rw [length_unadmitted, length_unadmitted, hhand]
      simp only [hand, List.length_nil]
      omega
    · cases h
      exact hsame rfl (by simp [hand, hpc])
  | wait =>
    simp only [hpc] at h
    cases h
    exact hsame rfl (by simp [hand, hpc])
  | done =>
    simp only [hpc] at h
    cases h
    exact le_rfl

theorem filter_unadmitted {heap heap' : Ref → Request} {l : List Ref}
    (h : ∀ x ∈ l, (heap' x).admitSeq = (heap x).admitSeq) :
    (l.filter fun x => (heap' x).Unadmitted) = l.filter fun x => (heap x).Unadmitted := by
  apply List.filter_congr
  intro x hx
  rw [decide_eq_decide]
  unfold Request.Unadmitted
  rw [h x hx]

theorem unadmitted_accepted {l : EngineLoop σ} (hgood : Good cfg m l.point) (n : NewRequest)
    (h : (l.submit cfg n).1 = true) :
    (l.submit cfg n).2.unadmitted.length = l.unadmitted.length + 1 := by
  have hseq : ∀ x ∈ l.sched.waiting,
      ((l.sched.create n.toRequest).heap x).admitSeq = (l.sched.heap x).admitSeq := by
    intro x hx
    have hlt : x < l.sched.next := hgood.placed.lt_next x (mem_placed_of_waiting hx)
    exact congrArg Request.admitSeq (Function.update_of_ne (Nat.ne_of_lt hlt) _ _)
  unfold submit at h ⊢
  split at h
  · cases h
  · rename_i hcap
    have hw : (l.sched.create n.toRequest).waiting = l.sched.waiting := rfl
    rw [if_neg hcap, length_unadmitted, length_unadmitted]
    simp only [hw, filter_unadmitted hseq, hand, List.length_append, List.length_singleton]
    omega

theorem unadmitted_rejected {l : EngineLoop σ} (n : NewRequest)
    (h : (l.submit cfg n).1 = false) :
    (l.submit cfg n).2.unadmitted.length = l.unadmitted.length := by
  unfold submit at h ⊢
  split at h
  · rename_i hcap
    rw [if_pos hcap]
    rfl
  · cases h

/-- Only a submission is accepted or rejected. -/
theorem unadmitted_other {l l' : EngineLoop σ} {a : LoopAction} (hgood : Good cfg m l.point)
    (ha : ∀ n, a ≠ .submit n) (h : l.act env cfg a = .ok l') :
    l'.unadmitted.length ≤ l.unadmitted.length := by
  cases a with
  | submit n => exact absurd rfl (ha n)
  | cancel r =>
    cases h
    split
    · have hseq : ∀ x ∈ l.sched.waiting,
          ((l.sched.cancel r).heap x).admitSeq = (l.sched.heap x).admitSeq :=
        fun x _ => apply_update Request.admitSeq (by rfl) x
      have hw : (l.sched.cancel r).waiting = l.sched.waiting := rfl
      apply le_of_eq
      rw [length_unadmitted, length_unadmitted]
      simp only [hw, filter_unadmitted hseq, hand]
    · exact le_rfl
  | stop =>
    cases h
    exact le_rfl
  | advance => exact unadmitted_advance hgood h

theorem submit_fst {c : Nat} (hcap : cfg.maxQueue = some c) (l : EngineLoop σ) (n : NewRequest) :
    (l.submit cfg n).1 = true ↔ l.queueDepth < c := by
  unfold submit
  rw [hcap, Option.any_some]
  by_cases h : c ≤ l.queueDepth
  · simp [h]
  · simp [h, Nat.lt_of_not_le h]

/-- An accepted submission stays under the cap if the depth left nothing out that counts. -/
theorem unadmitted_lt {c : Nat} {l : EngineLoop σ} (hdepth : l.queueDepth < c)
    (hsq : ¬l.Squeezed c) : l.unadmitted.length < c := by
  have hhand := l.length_hand
  have hfw := List.length_filter_le (fun r => decide (l.sched.heap r).Unadmitted) l.sched.waiting
  have hd : l.queueDepth = l.inbox.length + l.sched.waiting.length := rfl
  rw [length_unadmitted]
  by_cases h1 : l.hand = []
  · rw [h1, List.length_nil]
    omega
  by_cases h2 : l.queueDepth + 1 = c
  · -- then a request in `waiting` has been admitted before
    have h3 : ∃ r ∈ l.sched.waiting, ¬(l.sched.heap r).Unadmitted := by
      by_contra hno
      exact hsq ⟨h1, h2, fun r hr => by_contra fun hr' => hno ⟨r, hr, hr'⟩⟩
    obtain ⟨r, hr, hadm⟩ := h3
    have hlt : (l.sched.waiting.filter fun r => (l.sched.heap r).Unadmitted).length
        < l.sched.waiting.length := List.length_filter_lt_length_iff_exists.mpr
      ⟨r, hr, by simpa using hadm⟩
    omega
  · omega

theorem unadmitted_squeezed {c : Nat} {l : EngineLoop σ} (h : l.Squeezed c) :
    l.unadmitted.length = c := by
  obtain ⟨hne, hdepth, hall⟩ := h
  have hhand := l.length_hand
  have hpos := List.length_pos_iff.mpr hne
  have hd : l.queueDepth = l.inbox.length + l.sched.waiting.length := rfl
  rw [length_unadmitted, List.filter_eq_self.mpr fun r hr => decide_eq_true (hall r hr)]
  omega

end EngineLoop

/-! ## The cap over a run -/

/--
**When the cap is one.** In a run of the threads the accepted requests that were never admitted
stay within the cap in every state, if and only if no request is submitted while the engine thread
holds another in its hand, the two containers are one short of the cap, and none of the waiting
requests has been admitted before.
-/
theorem queue_cap_iff (hm : m.Fresh) {c : Nat} (hcap : cfg.maxQueue = some c)
    (acts : List LoopAction) :
    (∀ acts' l, acts' <+: acts → run (EngineLoop.act env cfg) (.init cfg m w) acts' = .ok l →
      l.unadmitted.length ≤ c) ↔
    ∀ acts' n l, acts' ++ [.submit n] <+: acts →
      run (EngineLoop.act env cfg) (.init cfg m w) acts' = .ok l → ¬l.Squeezed c := by
  have hstart : Good cfg m (EngineLoop.point (.init cfg m w)) := .init hm w
  constructor
  · intro hcapped acts' n l hpre hrun hsq
    have hgood := hstart.ops (loop_reach hstart hrun)
    have hfst : (l.submit cfg n).1 = true := by
      have := hsq.2.1
      rw [EngineLoop.submit_fst hcap]
      omega
    have hlen := EngineLoop.unadmitted_accepted hgood n hfst
    have hle := hcapped _ (l.submit cfg n).2 hpre (by rw [run_snoc, hrun]; rfl)
    rw [hlen, EngineLoop.unadmitted_squeezed hsq] at hle
    omega
  · intro hfree acts'
    induction acts' using List.reverseRecOn with
    | nil =>
      intro l _ hrun
      cases hrun
      exact Nat.zero_le c
    | append_singleton acts' a ih =>
      intro l' hpre hrun
      rw [run_snoc] at hrun
      obtain ⟨l, hl, hact⟩ := exists_of_bind_ok hrun
      have hgood := hstart.ops (loop_reach hstart hl)
      have hle := ih l ((List.prefix_append _ _).trans hpre) hl
      by_cases ha : ∃ n, a = .submit n
      · obtain ⟨n, rfl⟩ := ha
        cases hact
        cases hfst : (l.submit cfg n).1 with
        | true =>
          have hdepth := (EngineLoop.submit_fst hcap l n).mp hfst
          rw [EngineLoop.unadmitted_accepted hgood n hfst]
          exact EngineLoop.unadmitted_lt hdepth (hfree acts' n l hpre hl)
        | false =>
          rw [EngineLoop.unadmitted_rejected n hfst]
          exact hle
      · exact (EngineLoop.unadmitted_other hgood (fun n he => ha ⟨n, he⟩) hact).trans hle

/-- A cap of one: the second request is refused once the first waits. -/
def cappedActs : List LoopAction :=
  [.submit { requestId := "a", promptTokenIds := [1], maxNewTokens := 3 },
    .advance, .advance, .advance,
    .submit { requestId := "b", promptTokenIds := [1], maxNewTokens := 3 }]

theorem queue_cap_iff_refused :
    ∃ l, run (EngineLoop.act (Env.ofNext fun toks => toks.length) { maxQueue := some 1 })
        (.init { maxQueue := some 1 } (.slot (.new 2)) .start) cappedActs = .ok l ∧
      l.sched.metrics.rejected = 1 ∧ l.unadmitted.length ≤ 1 := by
  have hrun : ∃ l, run (EngineLoop.act (Env.ofNext fun toks => toks.length) { maxQueue := some 1 })
      (.init { maxQueue := some 1 } (.slot (.new 2)) .start) cappedActs = .ok l ∧
      l.sched.metrics.rejected = 1 := by
    decide +kernel
  have hfour : ∃ l, run (EngineLoop.act (Env.ofNext fun toks => toks.length) { maxQueue := some 1 })
      (.init { maxQueue := some 1 } (.slot (.new 2)) .start) (cappedActs.take 4) = .ok l ∧
      l.hand = [] := by
    decide +kernel
  obtain ⟨l, hl, hrej⟩ := hrun
  refine ⟨l, hl, hrej, (queue_cap_iff (Manager.fresh_slot_new 2) rfl cappedActs).mpr ?_ _ l
    List.prefix_rfl hl⟩
  rintro acts' n l' ⟨rest, hrest⟩ hl' ⟨hhand, -⟩
  -- a submission is the first action of the run or the fifth
  match acts', hrest, hl' with
  | [], _, hl' =>
    cases hl'
    exact hhand rfl
  | [_, _, _, _], hrest, hl' =>
    obtain ⟨l₄, hl₄, hempty⟩ := hfour
    cases hrest
    cases hl₄.symm.trans hl'
    exact hhand hempty
  | _ :: _ :: _ :: _ :: _ :: more, hrest, _ =>
    have hlen := congrArg List.length hrest
    simp only [cappedActs, List.length_append, List.length_cons, List.length_nil] at hlen
    omega

/-- **One more than the cap**: the second request is submitted while the first is in the engine
thread's hand. -/
theorem queue_cap_exceeded :
    ∃ l, run (EngineLoop.act (Env.ofNext fun toks => toks.length) { maxQueue := some 1 })
        (.init { maxQueue := some 1 } (.slot (.new 2)) .start)
        [.submit { requestId := "a", promptTokenIds := [1], maxNewTokens := 3 },
          .advance, .advance,
          .submit { requestId := "b", promptTokenIds := [1], maxNewTokens := 3 }] = .ok l ∧
      l.unadmitted.length = 2 := by
  decide +kernel

end LlmServe
