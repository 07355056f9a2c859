import LlmServe.Engine.EngineLoop
import LlmServe.Engine.NextToken
import LlmServe.Spec.Runs

/-!
# No lost or duplicated request

The engine loop takes the scheduler's small steps (`loop_reach`): its inbox and the request in its
hand are the inbox of a `Point`. So what holds of every point holds whatever the threads do. The
scheduler's lists compare requests field by field; `Placed.eq_of_heap_eq` is why that finds the right
object: two requests that hold memory have different admission numbers.
-/

namespace LlmServe

open Infra Point

variable {σ : Type} {env : Env σ} {cfg : EngineConfig} {m : Manager} {w : σ}

namespace EngineLoop

/-- The loop between two actions. -/
def point (l : EngineLoop σ) : Point σ := rest l.sched (l.hand ++ l.inbox)

/-- The lists a request can be in. -/
def places (l : EngineLoop σ) : List Ref :=
  l.inbox ++ l.hand ++ l.sched.waiting ++ l.sched.running

end EngineLoop

inductive Place where
  | inbox
  | hand
  | waiting
  | running
  | left
  deriving DecidableEq

/-- Request `r` is at this place. -/
def EngineLoop.At (l : EngineLoop σ) (r : Ref) : Place → Prop
  | .inbox => r ∈ l.inbox
  | .hand => r ∈ l.hand
  | .waiting => r ∈ l.sched.waiting
  | .running => r ∈ l.sched.running
  | .left => r ∉ l.places

/-! ## The loop takes small steps -/

theorem advance_reach {l l' : EngineLoop σ} (hp : Placed cfg l.point)
    (h : l.advance env cfg = .ok l') : Reach env cfg l.point l'.point := by
  have hsame : l'.point = l.point → Reach env cfg l.point l'.point := fun he => he ▸ .refl
  unfold EngineLoop.advance at h
  cases hpc : l.pc with
  | top =>
    simp only [hpc] at h
    cases h
    refine hsame ?_
    cases hstop : l.stop <;> simp [EngineLoop.point, EngineLoop.hand, hpc]
  | drain =>
    simp only [hpc] at h
    cases hin : l.inbox with
    | nil =>
      simp only [hin] at h
      cases h
      exact hsame (by simp [EngineLoop.point, EngineLoop.hand, hpc, hin])
    | cons r rest =>
      simp only [hin] at h
      cases h
      exact hsame (by simp [EngineLoop.point, EngineLoop.hand, hpc, hin])
  | hand r =>
    simp only [hpc] at h
    cases h
    have hop : Op env cfg (fun _ _ => True) l.point
        { l.point with sched := l.sched.submit r, inbox := [] ++ l.inbox } :=
      .submit _ [] l.inbox r (idle_rest ..) (by simp [EngineLoop.point, EngineLoop.hand, hpc, rest])
    exact .single hop
  | work =>
    simp only [hpc] at h
    split at h
    · obtain ⟨s', hs', he⟩ := exists_of_bind_ok h
      cases he
      have hout := step_outcome env l.sched _ hp (stepKeeps_true env cfg _ l.sched)
      rw [hs'] at hout
      obtain ⟨p, hops, rfl⟩ := hout
      have hreach := ops_of_stepOps hops
      simpa only [EngineLoop.point, EngineLoop.hand, hpc] using hreach
    · cases h
      exact hsame (by simp [EngineLoop.point, EngineLoop.hand, hpc])
  | wait =>
    simp only [hpc] at h
    cases h
    exact hsame (by simp [EngineLoop.point, EngineLoop.hand, hpc])
  | done =>
    simp only [hpc] at h
    cases h
    exact .refl

theorem loopAct_reach {l l' : EngineLoop σ} {a : LoopAction} (hp : Placed cfg l.point)
    (h : l.act env cfg a = .ok l') : Reach env cfg l.point l'.point := by
  cases a with
  | submit n =>
    cases h
    unfold EngineLoop.submit
    split
    · exact .single (.step (.count _ _ _ (.line .rejected trivial)))
    · have hop : Op env cfg (fun _ _ => True) l.point
          { l.point with sched := l.sched.create n.toRequest,
                         inbox := (l.hand ++ l.inbox) ++ [l.sched.next] } := .create _ n
      rw [List.append_assoc] at hop
      exact .single hop
  | cancel r =>
    cases h
    split
    · next hr => exact .single (.cancel _ r hr)
    · exact .refl
  | stop =>
    cases h
    exact .refl
  | advance => exact advance_reach hp h

/-- **A run of the loop takes small steps**, from any state whose invariants hold. -/
theorem loop_reach {acts : List LoopAction} : ∀ {l l' : EngineLoop σ}, Good cfg m l.point →
    run (EngineLoop.act env cfg) l acts = .ok l' → Reach env cfg l.point l'.point := by
  induction acts with
  | nil =>
    intro l l' _ h
    cases h
    exact .refl
  | cons a acts ih =>
    intro l l' hgood h
    obtain ⟨l₁, ha, h⟩ := exists_of_bind_ok h
    have hops := loopAct_reach hgood.placed ha
    exact hops.trans (ih (hgood.ops hops) h)

/-! ## Where a request is -/

theorem places_perm (l : EngineLoop σ) : l.places.Perm l.point.placed := by
  simp only [EngineLoop.places, EngineLoop.point, placed, held, rest, List.nil_append]
  exact (List.perm_append_comm.append_right _).append_right _

/-- A request is at one place only. -/
theorem At.unique {l : EngineLoop σ} (hnd : l.places.Nodup) {r : Ref} {pl pl' : Place}
    (h : l.At r pl) (h' : l.At r pl') : pl = pl' := by
  unfold EngineLoop.places at hnd
  simp only [List.nodup_append, List.mem_append] at hnd
  cases pl <;> cases pl' <;>
    simp only [EngineLoop.At, EngineLoop.places, List.mem_append] at h h' <;> grind

theorem At.exists (l : EngineLoop σ) (r : Ref) : ∃ pl, l.At r pl := by
  by_cases hleft : r ∈ l.places
  · simp only [EngineLoop.places, List.mem_append] at hleft
    rcases hleft with ((hin | hhand) | hwait) | hrun
    · exact ⟨.inbox, hin⟩
    · exact ⟨.hand, hhand⟩
    · exact ⟨.waiting, hwait⟩
    · exact ⟨.running, hrun⟩
  · exact ⟨.left, hleft⟩

/--
**No lost or duplicated request.** After any run of the threads each accepted request is at exactly
one place and occurs there once; `running` has room and distinct admission numbers; a request that
left had been finished or cancelled, and stays away whatever the threads do next. Inside a step,
whatever other threads do, the same is true with the requests `_admit` has popped and not yet
added to `running` as one more place.
-/
theorem no_lost_or_duplicated_request (hm : m.Fresh) {acts : List LoopAction} {l : EngineLoop σ}
    (hrun : run (EngineLoop.act env cfg) (.init cfg m w) acts = .ok l) :
    (∀ r < l.sched.next, (∃! pl, l.At r pl) ∧ l.places.count r ≤ 1) ∧
    l.sched.running.length ≤ cfg.maxBatch ∧
    (l.sched.running.map fun r => (l.sched.heap r).admitSeq).Nodup ∧
    (∀ r < l.sched.next, l.At r .left →
      ((l.sched.heap r).finishReason ≠ none ∨ (l.sched.heap r).cancelled = true) ∧
      ∀ acts' l', run (EngineLoop.act env cfg) l acts' = .ok l' → l'.At r .left) ∧
    (∀ p, Reach env cfg l.point p → p.placed.Nodup ∧ p.held.length ≤ cfg.maxBatch ∧
      ∀ r < p.sched.next, r ∉ p.placed →
        (p.sched.heap r).finishReason ≠ none ∨ (p.sched.heap r).cancelled = true) := by
  have hstart : Good cfg m (EngineLoop.point (.init cfg m w)) := .init hm w
  have hgood := hstart.ops (loop_reach hstart hrun)
  have hnd : l.places.Nodup := (places_perm l).nodup_iff.mpr hgood.placed.nodup
  have hleft : ∀ {p : Point σ}, Good cfg m p → ∀ r < p.sched.next, r ∉ p.placed →
      (p.sched.heap r).finishReason ≠ none ∨ (p.sched.heap r).cancelled = true :=
    fun hp r hr hno => (hp.facts r).ending.gone (phase_gone hno hr)
  have hout : ∀ r, l.At r .left ↔ r ∉ l.point.placed := fun r =>
    not_congr (places_perm l).mem_iff
  refine ⟨fun r hr => ⟨?_, ?_⟩, ?_, ?_, fun r hr hat => ⟨?_, fun acts' l' hrun' => ?_⟩, fun p hp => ?_⟩
  · obtain ⟨pl, hpl⟩ := At.exists l r
    exact ⟨pl, hpl, fun pl' h => At.unique hnd h hpl⟩
  · exact List.nodup_iff_count_le_one.mp hnd r
  · exact hgood.placed.room
  · refine hgood.placed.running_nodup.map_on fun r hr r' hr' he => ?_
    exact hgood.placed.seq_inj r (mem_held_of_running hr) r' (mem_held_of_running hr') he
  · exact hleft hgood r hr ((hout r).mp hat)
  · have hreach := loop_reach hgood hrun'
    have hgone := (gone_moves (hgood.moves hreach r) (hgood.facts r) (phase_gone ((hout r).mp hat) hr)).1
    have hno := notMem_placed_of_gone (hgood.ops hreach).placed hgone
    exact fun hmem => hno ((places_perm l').mem_iff.mp hmem)
  · have hp' := hgood.ops hp
    exact ⟨hp'.placed.nodup, hp'.placed.room, hleft hp'⟩

/-- Two equal requests overcommit three blocks; one is evicted, and both are where they should be. -/
theorem no_lost_or_duplicated_request_twins :
    ∃ l, run (EngineLoop.act (Env.ofNext fun toks => toks.length) { preemption := true })
        (.init { preemption := true } (.block (.new 3 1 Nat.one_pos false)) .start)
        [.submit { requestId := "a", promptTokenIds := [1], maxNewTokens := 3 },
          .submit { requestId := "a", promptTokenIds := [1], maxNewTokens := 3 },
          .advance, .advance, .advance, .advance, .advance, .advance, .advance]
        = .ok l ∧ ∃! pl, l.At 1 pl := by
  have hrun : ∃ l, run (EngineLoop.act (Env.ofNext fun toks => toks.length) { preemption := true })
      (.init { preemption := true } (.block (.new 3 1 Nat.one_pos false)) .start)
      [.submit { requestId := "a", promptTokenIds := [1], maxNewTokens := 3 },
        .submit { requestId := "a", promptTokenIds := [1], maxNewTokens := 3 },
        .advance, .advance, .advance, .advance, .advance, .advance, .advance]
      = .ok l ∧ 1 < l.sched.next := by
    decide +kernel
  obtain ⟨l, hl, hnext⟩ := hrun
  exact ⟨l, hl, ((no_lost_or_duplicated_request (Manager.fresh_block_new ..) hl).1 1 hnext).1⟩

end LlmServe
