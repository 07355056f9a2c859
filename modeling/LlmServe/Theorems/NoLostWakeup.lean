import LlmServe.Engine.NextToken
import LlmServe.Engine.WakeLoop

/-!
# No lost wakeup

From the moment the engine thread has seen the inbox empty until it leaves `wait`, either the flag
is set or each request in the inbox belongs to a submitter that has yet to set it. So a blocked
engine thread is always about to be woken, and one that is not blocked takes the inbox empty.
-/

namespace LlmServe

open Infra

variable {σ : Type} {env : Env σ} {cfg : EngineConfig} {m : Manager} {w : σ}

namespace WakeLoop

/-- What the flag promises once the engine thread has seen the inbox empty. -/
structure Signalled (l : WakeLoop σ) : Prop where
  owed : l.pc = .work ∨ l.pc = .wait → l.wake = true ∨ ∀ r ∈ l.inbox, r ∈ l.unset
  idle : l.pc = .wait ∨ l.pc = .clear → l.sched.hasWork = false
  running : l.stop = false → l.pc ≠ .done

/-- Elsewhere the flag promises nothing. -/
theorem signalled_elsewhere {l : WakeLoop σ} (hwork : l.pc ≠ .work) (hwait : l.pc ≠ .wait)
    (hclear : l.pc ≠ .clear) (hrun : l.stop = false → l.pc ≠ .done) : l.Signalled where
  owed h := (h.elim hwork hwait).elim
  idle h := (h.elim hwait hclear).elim
  running := hrun

theorem signalled_init : Signalled (.init cfg m w) :=
  signalled_elsewhere (by simp [init]) (by simp [init]) (by simp [init]) (by simp [init])

/-- A step of the engine thread. -/
theorem signalled_loop {l l' : WakeLoop σ} (h : l.Signalled) (hact : l.loop env cfg = .ok l') :
    l'.Signalled := by
  unfold loop at hact
  cases hpc : l.pc with
  | top =>
    simp only [hpc] at hact
    cases hact
    cases hstop : l.stop
    · exact signalled_elsewhere (by simp) (by simp) (by simp) (by simp)
    · exact signalled_elsewhere (by simp) (by simp) (by simp) (by simp)
  | drain =>
    simp only [hpc] at hact
    cases hin : l.inbox with
    | nil =>
      -- the inbox has just been seen empty
      simp only [hin] at hact
      cases hact
      constructor
      · intro _
        right
        intro r hr
        cases hr
      · intro hpc'
        simp at hpc'
      · simp
    | cons r rest =>
      simp only [hin] at hact
      cases hact
      exact signalled_elsewhere (by simp) (by simp) (by simp) (by simp)
  | hand r =>
    simp only [hpc] at hact
    cases hact
    exact signalled_elsewhere (by simp) (by simp) (by simp) (by simp)
  | work =>
    simp only [hpc] at hact
    cases hact
    constructor
    · intro _
      exact h.owed (.inl hpc)
    · intro hidle
      show l.sched.hasWork = false
      cases hwork : l.sched.hasWork with
      | false => rfl
      | true => simp [hwork] at hidle
    · intro _
      show (if l.sched.hasWork then WakePc.step else .wait) ≠ .done
      split <;> simp
  | step =>
    simp only [hpc] at hact
    obtain ⟨s', -, he⟩ := exists_of_bind_ok hact
    cases he
    exact signalled_elsewhere (by simp) (by simp) (by simp) (by simp)
  | wait =>
    simp only [hpc] at hact
    cases hact
    cases hwake : l.wake with
    | false => exact h
    | true =>
      constructor
      · intro hpc'
        simp at hpc'
      · intro _
        exact h.idle (.inl hpc)
      · intro _
        simp
  | clear =>
    simp only [hpc] at hact
    cases hact
    exact signalled_elsewhere (by simp) (by simp) (by simp) (by simp)
  | done =>
    simp only [hpc] at hact
    cases hact
    exact h

/-- A step of any thread. -/
theorem signalled_act {l l' : WakeLoop σ} {a : WakeAction} (h : l.Signalled)
    (hact : l.act env cfg a = .ok l') : l'.Signalled := by
  cases a with
  | put n =>
    cases hact
    constructor
    · intro hpc
      refine (h.owed hpc).imp id ?_
      intro hall r hr
      rcases List.mem_append.mp hr with hr | hr
      · exact List.mem_cons_of_mem _ (hall r hr)
      · exact List.mem_singleton.mp hr ▸ List.mem_cons_self
    · exact h.idle
    · exact h.running
  | set r =>
    cases hact
    split
    · exact ⟨fun _ => .inl rfl, h.idle, h.running⟩
    · exact h
  | reject =>
    cases hact
    exact ⟨h.owed, h.idle, h.running⟩
  | cancel r =>
    cases hact
    split
    · exact ⟨h.owed, h.idle, h.running⟩
    · exact h
  | stop =>
    cases hact
    exact ⟨h.owed, h.idle, Bool.noConfusion⟩
  | stopWake =>
    cases hact
    exact ⟨fun _ => .inl rfl, h.idle, h.running⟩
  | loop => exact signalled_loop h hact
  | timeout =>
    cases hact
    split
    · rename_i hpc
      constructor
      · intro hpc'
        simp at hpc'
      · intro _
        exact h.idle (.inl hpc)
      · intro _
        simp
    · exact h

theorem signalled_run {acts : List WakeAction} {l : WakeLoop σ}
    (hrun : run (WakeLoop.act env cfg) (.init cfg m w) acts = .ok l) : l.Signalled := by
  have hstep : ∀ (as : List WakeAction) a (s s' : WakeLoop σ), True →
      run (WakeLoop.act env cfg) (.init cfg m w) as = .ok s → s.Signalled →
      WakeLoop.act env cfg s a = .ok s' → s'.Signalled :=
    fun _ _ _ _ _ _ hs hact => signalled_act hs hact
  exact run_invariant (P := fun _ s => Signalled s) (Q := fun _ => True) (fun _ _ _ => trivial)
    signalled_init hstep trivial hrun

/-! ## Picked up -/

/-- Steps of the engine thread alone, with no signal and no timeout. -/
abbrev Solo (env : Env σ) (cfg : EngineConfig) : WakeLoop σ → WakeLoop σ → Prop :=
  Relation.ReflTransGen fun l l' => l.loop env cfg = .ok l'

/-- The engine thread alone ends in an exception, or takes the requests of the inbox over. -/
def TakesOver (env : Env σ) (cfg : EngineConfig) (l : WakeLoop σ) (rs : List Ref) : Prop :=
  ∃ l', Solo env cfg l l' ∧
    ((∃ e, l'.loop env cfg = .error e) ∨ l'.inbox = [] ∧ ∀ r ∈ rs, r ∈ l'.sched.waiting)

theorem TakesOver.step {l l' : WakeLoop σ} {rs : List Ref} (h : l.loop env cfg = .ok l')
    (h' : TakesOver env cfg l' rs) : TakesOver env cfg l rs := by
  obtain ⟨l₂, hsolo, hend⟩ := h'
  exact ⟨l₂, .head h hsolo, hend⟩

theorem takesOver_drain : ∀ (rest taken : List Ref) {l : WakeLoop σ}, l.pc = .drain →
    l.inbox = rest → (∀ r ∈ taken, r ∈ l.sched.waiting) → TakesOver env cfg l (taken ++ rest)
  | [], taken, l, _, hin, htaken => by
    rw [List.append_nil]
    exact ⟨l, .refl, .inr ⟨hin, htaken⟩⟩
  | r :: rest, taken, l, hpc, hin, htaken => by
    have hget : l.loop env cfg = .ok { l with inbox := rest, pc := .hand r } := by
      simp only [loop, hpc, hin]
    refine TakesOver.step hget (TakesOver.step rfl ?_)
    rw [List.append_cons]
    apply takesOver_drain rest
    · rfl
    · rfl
    · intro x hx
      show x ∈ l.sched.waiting ++ [r]
      rcases List.mem_append.mp hx with hx | hx
      · exact List.mem_append_left _ (htaken x hx)
      · exact List.mem_append_right _ hx

theorem takesOver_top {l : WakeLoop σ} (hpc : l.pc = .top) (hstop : l.stop = false) :
    TakesOver env cfg l l.inbox := by
  have htop : l.loop env cfg = .ok { l with pc := .drain } := by
    simp [loop, hpc, hstop]
  have hnone : ∀ r ∈ ([] : List Ref), r ∈ l.sched.waiting := fun _ hr => absurd hr List.not_mem_nil
  exact TakesOver.step htop (takesOver_drain l.inbox [] rfl rfl hnone)

theorem takesOver_step {l : WakeLoop σ} (hpc : l.pc = .step) (hstop : l.stop = false) :
    TakesOver env cfg l l.inbox := by
  cases hs : l.sched.step env cfg with
  | error e =>
    refine ⟨l, .refl, .inl ⟨e, ?_⟩⟩
    simp only [loop, hpc, hs]
    rfl
  | ok s' =>
    have hloop : l.loop env cfg = .ok { l with sched := s', pc := .top } := by
      simp only [loop, hpc, hs]
      rfl
    have htop : TakesOver env cfg { l with sched := s', pc := .top } l.inbox :=
      takesOver_top rfl hstop
    exact TakesOver.step hloop htop

/-- An engine thread in `wait` that has been signalled, or has nothing to take over. -/
theorem takesOver_wait {l : WakeLoop σ} (hpc : l.pc = .wait) (hstop : l.stop = false)
    (howed : l.wake = true ∨ l.inbox = []) : TakesOver env cfg l l.inbox := by
  rcases howed with hwake | hin
  · have hwait : l.loop env cfg = .ok { l with pc := .clear } := by
      simp only [loop, hpc, hwake, if_true]
    have htop : TakesOver env cfg { l with wake := false, pc := .top } l.inbox :=
      takesOver_top rfl hstop
    exact TakesOver.step hwait (TakesOver.step rfl htop)
  · refine ⟨l, .refl, .inr ⟨hin, ?_⟩⟩
    intro r hr
    rw [hin] at hr
    cases hr

/-- **Once every submitter has set the flag, no timeout is needed.** -/
theorem Signalled.takesOver {l : WakeLoop σ} (h : l.Signalled) (hstop : l.stop = false)
    (hset : l.unset = []) : TakesOver env cfg l l.inbox := by
  have howed : l.pc = .work ∨ l.pc = .wait → l.wake = true ∨ l.inbox = [] := by
    intro hpc
    refine (h.owed hpc).imp id ?_
    intro hall
    rw [hset] at hall
    exact List.eq_nil_iff_forall_not_mem.mpr fun r hr => absurd (hall r hr) List.not_mem_nil
  cases hpc : l.pc with
  | top => exact takesOver_top hpc hstop
  | drain =>
    have hnone : ∀ r ∈ ([] : List Ref), r ∈ l.sched.waiting := fun _ hr => absurd hr List.not_mem_nil
    exact takesOver_drain l.inbox [] hpc rfl hnone
  | hand r =>
    have hhand : l.loop env cfg = .ok { l with sched := l.sched.submit r, pc := .drain } := by
      simp only [loop, hpc]
    have hnone : ∀ x ∈ ([] : List Ref), x ∈ (l.sched.submit r).waiting :=
      fun _ hr => absurd hr List.not_mem_nil
    exact TakesOver.step hhand (takesOver_drain l.inbox [] rfl rfl hnone)
  | work =>
    cases hwork : l.sched.hasWork with
    | true =>
      have hloop : l.loop env cfg = .ok { l with pc := .step } := by
        simp only [loop, hpc, hwork, if_true]
      have hstep : TakesOver env cfg { l with pc := .step } l.inbox := takesOver_step rfl hstop
      exact TakesOver.step hloop hstep
    | false =>
      have hloop : l.loop env cfg = .ok { l with pc := .wait } := by
        simp [loop, hpc, hwork]
      have hwait : TakesOver env cfg { l with pc := .wait } l.inbox :=
        takesOver_wait rfl hstop (howed (.inl hpc))
      exact TakesOver.step hloop hwait
  | step => exact takesOver_step hpc hstop
  | wait => exact takesOver_wait hpc hstop (howed (.inr hpc))
  | clear =>
    have hclear : l.loop env cfg = .ok { l with wake := false, pc := .top } := by
      simp only [loop, hpc]
    have htop : TakesOver env cfg { l with wake := false, pc := .top } l.inbox :=
      takesOver_top rfl hstop
    exact TakesOver.step hclear htop
  | done => exact absurd hpc (h.running hstop)

end WakeLoop

/-! ## The two models of the loop -/

/-- A state of the loop in which no submitter is between its two steps. -/
def EngineLoop.fine (l : EngineLoop σ) : WakeLoop σ where
  sched := l.sched
  inbox := l.inbox
  wake := l.wake
  stop := l.stop
  pc := match l.pc with
    | .top => .top
    | .drain => .drain
    | .hand r => .hand r
    | .work => .work
    | .wait => .wait
    | .done => .done

theorem advance_fine {l l' : EngineLoop σ} (h : l.advance env cfg = .ok l') :
    ∃ acts, run (WakeLoop.act env cfg) l.fine acts = .ok l'.fine := by
  have hone : l.fine.loop env cfg = .ok l'.fine →
      ∃ acts, run (WakeLoop.act env cfg) l.fine acts = .ok l'.fine :=
    fun hloop => ⟨[.loop], run_step _ hloop []⟩
  unfold EngineLoop.advance at h
  cases hpc : l.pc with
  | top =>
    simp only [hpc] at h
    cases h
    apply hone
    cases hstop : l.stop <;> simp [WakeLoop.loop, EngineLoop.fine, hpc, hstop]
  | drain =>
    simp only [hpc] at h
    cases hin : l.inbox with
    | nil =>
      simp only [hin] at h
      cases h
      exact hone (by simp [WakeLoop.loop, EngineLoop.fine, hpc, hin])
    | cons r rest =>
      simp only [hin] at h
      cases h
      exact hone (by simp [WakeLoop.loop, EngineLoop.fine, hpc, hin])
  | hand r =>
    simp only [hpc] at h
    cases h
    exact hone (by simp [WakeLoop.loop, EngineLoop.fine, hpc])
  | work =>
    simp only [hpc] at h
    split at h
    · -- `if self.scheduler.has_work` and the call of `step` are two lines here
      rename_i hwork
      obtain ⟨s', hs', he⟩ := exists_of_bind_ok h
      cases he
      have htest : WakeLoop.act env cfg l.fine .loop = .ok { l.fine with pc := .step } := by
        simp [WakeLoop.act, WakeLoop.loop, EngineLoop.fine, hpc, hwork]
      have hstep : WakeLoop.act env cfg { l.fine with pc := .step } .loop
          = .ok { l.fine with sched := s', pc := .top } := by
        show (l.sched.step env cfg >>= fun s => _) = _
        rw [hs']
        rfl
      exact ⟨[.loop, .loop], (run_step _ htest [.loop]).trans (run_step _ hstep [])⟩
    · rename_i hwork
      cases h
      exact hone (by simp [WakeLoop.loop, EngineLoop.fine, hpc, hwork])
  | wait =>
    simp only [hpc] at h
    cases h
    -- without an event `wait` ends by its timeout
    have htime : WakeLoop.act env cfg l.fine .timeout = .ok { l.fine with pc := .clear } := by
      simp [WakeLoop.act, EngineLoop.fine, hpc]
    have hclear : WakeLoop.act env cfg { l.fine with pc := .clear } .loop
        = .ok { l.fine with wake := false, pc := .top } := rfl
    exact ⟨[.timeout, .loop], (run_step _ htime [.loop]).trans (run_step _ hclear [])⟩
  | done =>
    simp only [hpc] at h
    cases h
    exact ⟨[], rfl⟩

/-- **An action of the coarse loop is a run of the fine one**: a submission puts and sets. -/
theorem act_fine {l l' : EngineLoop σ} {a : LoopAction} (h : l.act env cfg a = .ok l') :
    ∃ acts, run (WakeLoop.act env cfg) l.fine acts = .ok l'.fine := by
  cases a with
  | submit n =>
    cases h
    unfold EngineLoop.submit
    split
    · exact ⟨[.reject], rfl⟩
    · have hput : WakeLoop.act env cfg l.fine (.put n) = .ok { l.fine with
          sched := l.sched.create n.toRequest
          inbox := l.inbox ++ [l.sched.next]
          unset := [l.sched.next] } := rfl
      have hset : WakeLoop.act env cfg { l.fine with
          sched := l.sched.create n.toRequest
          inbox := l.inbox ++ [l.sched.next]
          unset := [l.sched.next] } (.set l.sched.next) = .ok { l.fine with
            sched := l.sched.create n.toRequest
            inbox := l.inbox ++ [l.sched.next]
            wake := true
            unset := [] } := by
        simp [WakeLoop.act]
      exact ⟨[.put n, .set l.sched.next], (run_step _ hput _).trans (run_step _ hset [])⟩
  | cancel r =>
    cases h
    refine ⟨[.cancel r], run_step _ ?_ []⟩
    by_cases hr : r < l.sched.next <;> simp [WakeLoop.act, EngineLoop.fine, hr]
  | stop =>
    cases h
    exact ⟨[.stop, .stopWake], rfl⟩
  | advance => exact advance_fine h

theorem run_fine {acts : List LoopAction} : ∀ {l l' : EngineLoop σ},
    run (EngineLoop.act env cfg) l acts = .ok l' →
    ∃ acts', run (WakeLoop.act env cfg) l.fine acts' = .ok l'.fine := by
  induction acts with
  | nil =>
    intro l l' h
    cases h
    exact ⟨[], rfl⟩
  | cons a acts ih =>
    intro l l' h
    obtain ⟨l₁, ha, h⟩ := exists_of_bind_ok h
    obtain ⟨as, has⟩ := act_fine ha
    obtain ⟨bs, hbs⟩ := ih h
    refine ⟨as ++ bs, ?_⟩
    rw [run_append, has]
    exact hbs

open WakeLoop in
/--
**No lost wakeup.** In every state the threads can reach: if the engine thread is blocked in `wait`
with the flag clear, the scheduler has no work, each request in the inbox belongs to a submitter
that has put it and not yet set the flag, and that submitter's next step sets it; and once no
submitter is between its two steps, the engine thread takes the inbox over by itself, with no
timeout, unless a step of the scheduler raises.
-/
theorem no_lost_wakeup {acts : List WakeAction} {l : WakeLoop σ}
    (hrun : run (WakeLoop.act env cfg) (.init cfg m w) acts = .ok l) :
    (l.Blocked → l.sched.hasWork = false ∧ ∀ r ∈ l.inbox, r ∈ l.unset ∧
      ∃ l', l.act env cfg (.set r) = .ok l' ∧ l'.wake = true) ∧
    (l.stop = false → l.unset = [] → TakesOver env cfg l l.inbox) := by
  have hsig := signalled_run hrun
  refine ⟨?_, hsig.takesOver⟩
  rintro ⟨hpc, hwake⟩
  refine ⟨hsig.idle (.inl hpc), ?_⟩
  intro r hr
  have hall := (hsig.owed (.inr hpc)).resolve_left (by simp [hwake])
  refine ⟨hall r hr, { l with wake := true, unset := l.unset.erase r }, ?_, rfl⟩
  show Except.ok _ = _
  rw [if_pos (hall r hr)]

/-- A submitter gets in after the engine thread has seen the inbox empty: it blocks, and is owed the
signal. -/
theorem no_lost_wakeup_race :
    ∃ l, run (WakeLoop.act (Env.ofNext fun toks => toks.length) {})
        (.init {} (.slot (.new 2)) .start)
        ([.put { requestId := "a", promptTokenIds := [1], maxNewTokens := 1 }, .set 0]
          ++ List.replicate 17 .loop
          ++ [.put { requestId := "b", promptTokenIds := [1], maxNewTokens := 1 }, .loop]) = .ok l ∧
      l.pc = .wait ∧ 1 ∈ l.inbox ∧ 1 ∈ l.unset := by
  have hrun : ∃ l, run (WakeLoop.act (Env.ofNext fun toks => toks.length) {})
        (.init {} (.slot (.new 2)) .start)
        ([.put { requestId := "a", promptTokenIds := [1], maxNewTokens := 1 }, .set 0]
          ++ List.replicate 17 .loop
          ++ [.put { requestId := "b", promptTokenIds := [1], maxNewTokens := 1 }, .loop]) = .ok l ∧
      (l.pc = .wait ∧ l.wake = false) ∧ 1 ∈ l.inbox := by
    decide +kernel
  obtain ⟨l, hl, hblocked, hin⟩ := hrun
  exact ⟨l, hl, hblocked.1, hin, (((no_lost_wakeup hl).1 hblocked).2 1 hin).1⟩

end LlmServe
