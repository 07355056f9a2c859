import LlmServe.Properties.Origin
import LlmServe.Theorems.NoLostRequest

/-!
# What the clients of an engine loop asked for

After any run of the threads the objects the loop knows are some of the requests that were handed
to `EngineLoop.submit`, in that order: all but those it refused (`loop_sourced`).
-/

namespace LlmServe

open Infra Point

variable {σ : Type} {env : Env σ} {cfg : EngineConfig} {m : Manager} {w : σ}

/-- The requests handed to `EngineLoop.submit`, accepted or not. -/
def submits (acts : List LoopAction) : List NewRequest :=
  acts.filterMap fun
    | .submit n => some n
    | _ => none

theorem submits_append (as bs : List LoopAction) :
    submits (as ++ bs) = submits as ++ submits bs := List.filterMap_append

namespace EngineLoop

/-- Only an accepted `submit` builds a request. -/
theorem act_next {l l' : EngineLoop σ} {a : LoopAction} (hp : Placed cfg l.point)
    (h : l.act env cfg a = .ok l') (ha : ∀ n, a ≠ .submit n) :
    l'.sched.next = l.sched.next := by
  cases a with
  | submit n => exact absurd rfl (ha n)
  | cancel r =>
    cases h
    split <;> rfl
  | stop =>
    cases h
    rfl
  | advance =>
    change l.advance env cfg = .ok l' at h
    unfold advance at h
    cases hpc : l.pc with
    | drain =>
      simp only [hpc] at h
      cases hin : l.inbox <;> simp only [hin] at h <;> cases h <;> rfl
    | work =>
      simp only [hpc] at h
      split at h
      · obtain ⟨s', hs', he⟩ := exists_of_bind_ok h
        cases he
        have hout := step_outcome env l.sched _ hp (stepKeeps_true env cfg _ l.sched)
        rw [hs'] at hout
        obtain ⟨p, hops, rfl⟩ := hout
        exact (stepOps_frame hops).next
      · cases h
        rfl
    | _ =>
      simp only [hpc] at h
      cases h
      rfl

end EngineLoop

/-- The thread ends only when it is told to. -/
theorem stop_of_done {acts : List LoopAction} {l : EngineLoop σ}
    (hrun : run (EngineLoop.act env cfg) (.init cfg m w) acts = .ok l) (hpc : l.pc = .done) :
    l.stop = true := by
  have hinit : (EngineLoop.init cfg m w).pc = .done → (EngineLoop.init cfg m w).stop = true := nofun
  refine run_invariant (P := fun _ (l : EngineLoop σ) => l.pc = .done → l.stop = true)
    (Q := fun _ => True) (fun _ _ _ => trivial) hinit ?_ trivial hrun hpc
  intro _ a l l' _ _ ih hact
  cases a with
  | submit n =>
    cases hact
    unfold EngineLoop.submit
    split <;> exact ih
  | cancel r =>
    cases hact
    split <;> exact ih
  | stop =>
    cases hact
    exact fun _ => rfl
  | advance =>
    change l.advance env cfg = .ok l' at hact
    unfold EngineLoop.advance at hact
    cases hpc : l.pc with
    | top =>
      simp only [hpc] at hact
      cases hact
      intro hdone
      by_contra hno
      simp [hno] at hdone
    | drain =>
      simp only [hpc] at hact
      cases hin : l.inbox <;> simp only [hin] at hact <;> cases hact <;> nofun
    | work =>
      simp only [hpc] at hact
      split at hact
      · obtain ⟨s', -, he⟩ := exists_of_bind_ok hact
        cases he
        nofun
      · cases hact
        nofun
    | done =>
      simp only [hpc] at hact
      cases hact
      exact ih
    | _ =>
      simp only [hpc] at hact
      cases hact
      nofun

/-- The objects of a loop, by the requests they are. -/
structure LoopOrigin (src : Ref → NewRequest) (acts : List LoopAction) (l : EngineLoop σ) : Prop where
  sourced : Sourced src l.point
  asked : ((List.range l.sched.next).map src).Sublist (submits acts)

theorem LoopOrigin.mem {src : Ref → NewRequest} {acts : List LoopAction} {l : EngineLoop σ}
    (h : LoopOrigin src acts l) {r : Ref} (hr : r < l.sched.next) : src r ∈ submits acts :=
  h.asked.subset (List.mem_map_of_mem (List.mem_range.mpr hr))

/-- Distinct ids among what the clients asked for are distinct ids among the objects. -/
theorem LoopOrigin.ids {src : Ref → NewRequest} {acts : List LoopAction} {l : EngineLoop σ}
    (h : LoopOrigin src acts l) (hids : ((submits acts).map NewRequest.requestId).Nodup) :
    ∀ r < l.sched.next, ∀ r' < l.sched.next, (src r).requestId = (src r').requestId → r = r' := by
  have hnd := hids.sublist (h.asked.map NewRequest.requestId)
  rw [List.map_map] at hnd
  intro r hr r' hr' he
  exact List.inj_on_of_nodup_map hnd (List.mem_range.mpr hr) (List.mem_range.mpr hr') he

theorem loop_sourced (hm : m.Fresh) {acts : List LoopAction} {l : EngineLoop σ}
    (hrun : run (EngineLoop.act env cfg) (.init cfg m w) acts = .ok l) :
    ∃ src, LoopOrigin src acts l := by
  have hstart : Good cfg m (EngineLoop.point (.init cfg m w)) := .init hm w
  induction acts using List.reverseRecOn generalizing l with
  | nil =>
    cases hrun
    exact ⟨fun _ => { requestId := "", promptTokenIds := [], maxNewTokens := 0 },
      .init _ m w _, List.Sublist.refl _⟩
  | append_singleton acts a ih =>
    rw [run_snoc] at hrun
    obtain ⟨l₀, hl₀, ha⟩ := exists_of_bind_ok hrun
    obtain ⟨src, horigin⟩ := ih hl₀
    have hgood := hstart.ops (loop_reach hstart hl₀)
    have hreach := loopAct_reach hgood.placed ha
    have hstay : l.sched.next = l₀.sched.next →
        ∃ src, LoopOrigin src (acts ++ [a]) l := fun hnext => by
      refine ⟨src, horigin.sourced.ops hgood hreach hnext, ?_⟩
      rw [hnext, submits_append]
      exact horigin.asked.trans (List.sublist_append_left ..)
    by_cases hsub : ∃ n, a = .submit n
    · obtain ⟨n, rfl⟩ := hsub
      cases ha
      unfold EngineLoop.submit at hstay hreach ⊢
      split
      · next hfull =>
        rw [if_pos hfull] at hstay
        exact hstay rfl
      · -- the new object is the last one, in the inbox
        refine ⟨Function.update src l₀.sched.next n, ?_, ?_⟩
        · have hnew := horigin.sourced.create hgood n
          simp only [EngineLoop.point, rest, List.append_assoc] at hnew
          exact hnew
        · show ((List.range (l₀.sched.next + 1)).map _).Sublist _
          have hold : (List.range l₀.sched.next).map (Function.update src l₀.sched.next n) =
              (List.range l₀.sched.next).map src :=
            List.map_congr_left fun r hr => Function.update_of_ne (List.mem_range.mp hr).ne ..
          rw [List.range_succ, List.map_append, hold, List.map_singleton, Function.update_self,
            submits_append]
          exact horigin.asked.append (List.Sublist.refl [n])
    · exact hstay (EngineLoop.act_next hgood.placed ha fun n hn => hsub ⟨n, hn⟩)

end LlmServe
