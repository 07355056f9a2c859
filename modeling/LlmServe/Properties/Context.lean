import LlmServe.Engine.NaiveThread
import LlmServe.Properties.Invariant

/-!
# Requests stay within the context

`Scheduler.submit` cuts the limit once, from the length of the prompt; a prefill emits a token even
where the limit allows none. So a request ends with its limit of tokens or with one, whichever is
more, and an eviction changes neither (`seqLen_le_maxContext`). The naive backend has no such cut:
its loop stops at the context (`NaiveThread.run_fits`).
-/

namespace LlmServe

open Infra Point

variable {σ : Type} {env : Env σ} {cfg : EngineConfig} {adm : Point σ → Ref → Prop} {m : Manager}
  {r : Ref} {v v' : View} {p : Point σ} {w : σ}

/-- A request never produces more than its limit, or one token. -/
theorem Ending.output_le_max (h : Ending v) :
    (v.req.outputTokenIds.length : Int) ≤ max 1 v.req.maxNewTokens := by
  rcases List.eq_nil_or_concat v.req.outputTokenIds with hnil | ⟨init, tok, hout⟩
  · rw [hnil]
    exact Int.le_trans (by decide) (le_max_left 1 _)
  · rw [List.concat_eq_append] at hout
    -- the output without its last token did not end the request
    have hinit := h.earlier init (hout ▸ List.prefix_append _ _) (by rw [hout]; simp)
    rw [hout, List.length_append, List.length_singleton]
    rcases Request.lt_of_endReason_none hinit with rfl | hlt
    · exact le_max_left 1 _
    · exact le_trans (by omega) (le_max_right 1 _)

/-- A submitted request whose limit has been cut to the context. -/
def Capped (v : View) : Prop :=
  v.phase ≠ .absent → v.phase ≠ .inbox →
    (v.req.promptTokenIds.length : Int) + v.req.maxNewTokens ≤ maxContext

theorem capped_move (hmv : Move cfg m r v v') (h : Capped v) : Capped v' := by
  intro ha hi
  cases hmv with
  | create n hphase => exact absurd rfl hi
  | submit hphase =>
    show (v.req.promptTokenIds.length : Int) +
      min v.req.maxNewTokens (maxContext - v.req.promptTokenIds.length) ≤ maxContext
    omega
  | emit now tok hdue =>
    rw [Request.emit_promptTokenIds, Request.emit_maxNewTokens]
    exact h ha hi
  | drop hphase hc => exact h (by simp [hphase]) (by simp [hphase])
  | leave hphase hdue hfin => exact h (by simp [hphase]) (by simp [hphase])
  | admitHead blocks seq hphase hlen => exact h (by simp [hphase]) (by simp [hphase])
  | prefill hphase hdue => exact h (by simp [hphase]) (by simp [hphase])
  | join hphase hdue => exact h (by simp [hphase]) (by simp [hphase])
  | preempt hphase hdue hopen hpre => exact h (by simp [hphase]) (by simp [hphase])
  | _ => exact h ha hi

/-- Prompt and limit of a submitted request fit the context. -/
theorem capped_of_reach (hm : m.Fresh) (hreach : Ops env cfg adm (rest (.init cfg m w) []) p)
    (hr : p.Submitted r) :
    ((p.sched.heap r).promptTokenIds.length : Int) + (p.sched.heap r).maxNewTokens ≤ maxContext := by
  have hcapped : Capped (p.view r) :=
    view_of_reach hm hreach r (fun _ _ hmv _ => capped_move hmv) fun ha => absurd rfl ha
  exact hcapped hr.phase.1 hr.phase.2

/-- **No request outgrows the context**, whatever its limit, across evictions. -/
theorem seqLen_le_maxContext (hm : m.Fresh)
    (hreach : Ops env cfg adm (rest (.init cfg m w) []) p) (hr : r < p.sched.next)
    (hprompt : (p.sched.heap r).promptTokenIds.length ≤ 1023) :
    (p.sched.heap r).seqLen ≤ maxContext := by
  have hgood : Good cfg m p := Good.ops (.init hm w) hreach
  have hend := (hgood.facts r).ending
  by_cases hin : r ∈ p.inbox
  · have hout : (p.sched.heap r).outputTokenIds = [] := hend.unsubmitted (Or.inr (phase_inbox hin))
    simp only [Request.seqLen, hout, List.length_nil, maxContext]
    omega
  · have hcap := capped_of_reach hm hreach ⟨hr, hin⟩
    have hout : ((p.sched.heap r).outputTokenIds.length : Int) ≤ max 1 (p.sched.heap r).maxNewTokens :=
      hend.output_le_max
    simp only [Request.seqLen, maxContext] at hcap ⊢
    omega

/-! ## The naive backend -/

namespace NaiveThread

variable {runner : Runner σ} {t t' : NaiveThread σ}

/-- Every object fits the context. -/
def Fits (s : NaiveScheduler σ) : Prop := ∀ x, (s.heap x).seqLen ≤ maxContext

theorem Fits.update {s s' : NaiveScheduler σ} (h : Fits s) {q : Request}
    (hheap : s'.heap = Function.update s.heap r q) (hq : q.seqLen = (s.heap r).seqLen) :
    Fits s' := fun x => (hheap ▸ apply_update Request.seqLen hq x).trans_le (h x)

/-- The loop appends to a request that has room left. -/
theorem fits_loop (h : Fits t.sched) : Fits (t.loop runner r).sched := by
  unfold loop
  dsimp only
  split
  · split
    · exact h
    · next hgo =>
      intro x
      by_cases hx : x = r
      · subst hx
        simp only [NaiveScheduler.modify, Function.update_self, Request.seqLen, not_or] at hgo ⊢
        simp only [List.length_append, List.length_singleton]
        omega
      · simp only [NaiveScheduler.modify, Function.update_of_ne hx]
        exact h x
  · exact h

/-- A line other than the append leaves the length of every request alone. -/
theorem fits_advance (h : Fits t.sched) (ha : t.advance runner = .ok t') : Fits t'.sched := by
  unfold advance at ha
  split at ha
  · cases ha
    unfold enter
    dsimp only
    split
    · exact h
    · exact h.update rfl rfl
  · cases ha
    exact fits_loop h
  · cases ha
    unfold stamp
    split
    · exact h.update rfl rfl
    · exact h
  · cases ha
    exact h
  · cases ha
    exact h.update rfl rfl
  · next r hpc =>
    have hclosed : Fits (t.sched.modify r fun q => { q with state := .finished }) :=
      h.update rfl rfl
    unfold close at ha
    dsimp only at ha
    split at ha
    · cases ha
      exact hclosed.update rfl rfl
    · obtain ⟨met, -, he⟩ := exists_of_bind_ok ha
      cases he
      exact hclosed
  · cases ha
    exact h.update rfl rfl

theorem fits_act {a : NaiveAction} (h : Fits t.sched)
    (hnew : ∀ n, a = .create n → n.promptTokenIds.length ≤ 1023)
    (ha : t.act runner a = .ok t') : Fits t'.sched := by
  cases a with
  | create n =>
    cases ha
    have hlen : n.promptTokenIds.length ≤ 1023 := hnew n rfl
    intro x
    by_cases hx : x = t.sched.next
    · subst hx
      simp only [NaiveScheduler.create, Function.update_self]
      exact hlen.trans (by decide)
    · simp only [NaiveScheduler.create, Function.update_of_ne hx]
      exact h x
  | cancel r =>
    cases ha
    split
    · exact h.update rfl rfl
    · exact h
  | submit =>
    cases ha
    unfold submit
    split
    · exact h.update rfl rfl
    · exact h
  | advance => exact fits_advance h ha

/-- **The naive backend keeps every request within the context.** -/
theorem run_fits {acts : List NaiveAction}
    (hnew : ∀ n, .create n ∈ acts → n.promptTokenIds.length ≤ 1023)
    (hrun : run (act runner) (.init w) acts = .ok t) : Fits t.sched := by
  induction acts using List.reverseRecOn generalizing t with
  | nil =>
    cases hrun
    exact fun _ => Nat.zero_le _
  | append_singleton acts a ih =>
    rw [run_snoc] at hrun
    obtain ⟨t₁, hrun, ha⟩ := exists_of_bind_ok hrun
    refine fits_act (ih (fun n hn => hnew n ?_) hrun) (fun n he => hnew n ?_) ha
    · exact List.mem_append_left _ hn
    · exact he ▸ List.mem_append_right _ (List.mem_singleton.mpr rfl)

end NaiveThread

end LlmServe
