import LlmServe.Properties.FrontDoor
import LlmServe.Properties.ServerWorld
import LlmServe.Theorems.Drains

/-!
# The server drains

When no new request comes in, the engine thread empties the engine, whatever clients disconnect
meanwhile and however their actions fall between its own. The measure is `backlog`: the tokens
still to be produced and the hand-overs from the inbox, and for the places of `_run` in between what
is left of the round. Every place the thread goes through lowers it (`served_act`).

What is left is an engine as good as new: its allocator is as `__init__` leaves it, up to the order
of the free list (`Good.fresh_of_idle`).
-/

namespace LlmServe

open Infra Point

variable {σ : Type} {env : Env σ} {cfg : EngineConfig} {m : Manager} {w : σ}

/-! ## An idle engine -/

/-- Nobody holds memory and nobody is on the way. -/
def EngineLoop.Idle (l : EngineLoop σ) : Prop :=
  l.inbox = [] ∧ l.hand = [] ∧ l.sched.hasWork = false

instance (l : EngineLoop σ) : Decidable l.Idle := inferInstanceAs (Decidable (_ ∧ _ ∧ _))

theorem Dict.eq_empty {κ ν : Type} {d : Dict κ ν} (h : d.entries = []) : d = .empty := by
  cases d
  cases h
  rfl

/-- With nobody holding memory the allocator is as good as new. -/
theorem Good.fresh_of_idle {p : Point σ} (h : Good cfg m p) (ha : Accounted m p)
    (hheld : p.held = []) : p.sched.manager.Fresh := by
  have hfree : p.sched.manager.freeUnits.Perm (List.range p.sched.manager.units) := by
    have howned := h.owned
    unfold Owned Point.units Infra.owned at howned
    rwa [hheld, List.flatMap_nil, List.append_nil] at howned
  have hlive : p.sched.manager.live = .empty := by
    have hperm := ha.live
    rw [liveEntries, hheld] at hperm
    exact Dict.eq_empty hperm.eq_nil
  have hcommitted : m.paged = true → p.sched.manager.committed = .empty := fun hp => by
    have hperm := ha.committed hp
    rw [committedEntries, hheld] at hperm
    exact Dict.eq_empty hperm.eq_nil
  have hpaged := h.shape.paged
  generalize p.sched.manager = m' at hfree hlive hcommitted hpaged
  cases m' with
  | slot b => exact ⟨hfree, hlive⟩
  | block b => exact ⟨hfree, hlive, hcommitted hpaged.symm⟩

/-! ## The backlog -/

/-- What is left of the round. -/
def EngineLoop.errands (l : EngineLoop σ) : Nat :=
  match l.pc with
  | .top => 3
  | .drain => 2
  | .hand _ => 3
  | .work => if l.inbox = [] then 1 else 5
  | .wait => 4
  | .done => 0

/-- The places the engine thread still goes through before it is idle, at most. -/
def EngineLoop.backlog (l : EngineLoop σ) : Nat :=
  4 * (l.sched.remaining + l.inbox.length + if l.sched.hasWork = true ∨ l.hand ≠ [] then 1 else 0) +
    2 * l.inbox.length + l.errands

/-! ## One action -/

/-- Between two actions, with nobody stopping the thread. -/
structure Served (env : Env σ) (cfg : EngineConfig) (m : Manager) (w : σ) (src : Ref → NewRequest)
    (k : Nat) (l : EngineLoop σ) : Prop where
  reach : Reach env cfg (rest (.init cfg m w) []) l.point
  sourced : Sourced src l.point
  next : l.sched.next = k
  stop : l.stop = false
  pc : l.pc ≠ .done

/-- Clients post nothing more and nobody stops the thread; they may still disconnect. -/
def ServerAction.NoIntake (a : ServerAction) : Prop := a = .advance ∨ ∃ r, a = .cancel r

section

variable {src : Ref → NewRequest} {k : Nat} {l : EngineLoop σ}

theorem Served.good (h : Served env cfg m w src k l) (hm : m.Fresh) : Good cfg m l.point :=
  Good.ops (.init hm w) h.reach

theorem Served.act {l' : EngineLoop σ} (h : Served env cfg m w src k l) (hm : m.Fresh)
    {a : LoopAction} (hact : l.act env cfg a = .ok l') (ha : ∀ n, a ≠ .submit n)
    (hstop : l'.stop = false) (hpc : l'.pc ≠ .done) : Served env cfg m w src k l' := by
  have hgood := h.good hm
  have hreach := loopAct_reach hgood.placed hact
  have hnext := EngineLoop.act_next hgood.placed hact ha
  exact ⟨h.reach.trans hreach, h.sourced.ops hgood hreach hnext, hnext.trans h.next, hstop, hpc⟩

/-- The engine thread, one place further. -/
theorem served_advance (hm : m.Serves cfg) (hbatch : 1 ≤ cfg.maxBatch)
    (henv : env.NeverRaises cfg m w) (hserve : Serving m src k) (h : Served env cfg m w src k l) :
    ∃ l', l.advance env cfg = .ok l' ∧ l'.stop = false ∧ l'.pc ≠ .done ∧ (l.Idle → l'.Idle) ∧
      (¬l.Idle → l'.backlog < l.backlog) := by
  have hstop := h.stop
  unfold EngineLoop.advance
  cases hpc : l.pc with
  | top =>
    refine ⟨_, rfl, hstop, ?_, fun hi => ?_, fun hi => ?_⟩
    · simp [hstop]
    · simpa [EngineLoop.Idle, EngineLoop.hand, hstop] using ⟨hi.1, hi.2.2⟩
    · simp [EngineLoop.backlog, EngineLoop.errands, EngineLoop.hand, hpc, hstop]
  | drain =>
    cases hin : l.inbox with
    | nil =>
      refine ⟨_, rfl, hstop, by simp, fun hi => ⟨rfl, rfl, hi.2.2⟩, fun hi => ?_⟩
      simp [EngineLoop.backlog, EngineLoop.errands, EngineLoop.hand, hpc, hin]
    | cons r rest =>
      refine ⟨_, rfl, hstop, by simp, fun hi => ?_, fun hi => ?_⟩
      · cases hin.symm.trans hi.1
      · simp [EngineLoop.backlog, EngineLoop.errands, EngineLoop.hand, hpc, hin]
        omega
  | hand r =>
    have hle := remaining_submit_le l.sched r
    refine ⟨_, rfl, hstop, by simp, fun hi => ?_, fun hi => ?_⟩
    · simp [EngineLoop.Idle, EngineLoop.hand, hpc] at hi
    · simp [EngineLoop.backlog, EngineLoop.errands, EngineLoop.hand, hpc]
      split <;> omega
  | work =>
    by_cases hwork : l.sched.hasWork = true
    · have hpoint : l.point = rest l.sched l.inbox := by
        simp [EngineLoop.point, EngineLoop.hand, hpc]
      have hreach := h.reach
      have hsourced := h.sourced
      rw [hpoint] at hreach hsourced
      have hgood : Good cfg m (rest l.sched l.inbox) := hpoint ▸ h.good hm.fresh
      have hk : l.sched.next = k := h.next
      have hserve : Serving m src l.sched.next := hk ▸ hserve
      have hl := hsourced.loaded_reach hm.fresh hreach hserve
      obtain ⟨s', hs'⟩ := henv src l.sched l.inbox hreach hsourced hserve
      have hlt := step_rounds hm hbatch hgood (hsourced.loaded_stepOps hgood hl.booked hserve)
        hwork hs'
      refine ⟨{ l with sched := s', pc := .top }, ?_, hstop, by simp, fun hi => ?_, fun hi => ?_⟩
      · simp only [if_pos hwork, hs']
        rfl
      · exact absurd hi.2.2 (by simp [hwork])
      · simp only [Scheduler.rounds, hwork, if_true] at hlt
        have herrand : (if l.inbox = [] then 1 else 5) ≥ 1 := by split <;> decide
        simp only [EngineLoop.backlog, EngineLoop.errands, EngineLoop.hand, hpc, hwork, ne_eq,
          not_true_eq_false, or_false, if_true]
        omega
    · simp only [if_neg hwork]
      refine ⟨_, rfl, hstop, by simp, fun hi => ⟨hi.1, rfl, hi.2.2⟩, fun hi => ?_⟩
      have hin : l.inbox ≠ [] := fun hin => hi ⟨hin, by simp [EngineLoop.hand, hpc], by simpa using hwork⟩
      simp [EngineLoop.backlog, EngineLoop.errands, EngineLoop.hand, hpc, hin]
  | wait =>
    refine ⟨_, rfl, hstop, by simp, fun hi => ⟨hi.1, rfl, hi.2.2⟩, fun hi => ?_⟩
    simp [EngineLoop.backlog, EngineLoop.errands, EngineLoop.hand, hpc]
  | done => exact absurd hpc h.pc

/-- A disconnect brings no new work. -/
theorem cancel_backlog (env : Env σ) (cfg : EngineConfig) (l : EngineLoop σ) (r : Ref) :
    ∃ l', l.act env cfg (.cancel r) = .ok l' ∧ l'.stop = l.stop ∧ l'.pc = l.pc ∧
      (l'.Idle ↔ l.Idle) ∧ l'.backlog ≤ l.backlog := by
  refine ⟨_, rfl, ?_⟩
  split
  · have hle : (l.sched.cancel r).remaining ≤ l.sched.remaining :=
      remaining_modify_le l.sched r _ le_rfl
    refine ⟨rfl, rfl, Iff.rfl, ?_⟩
    unfold EngineLoop.backlog
    exact Nat.add_le_add_right (Nat.add_le_add_right (Nat.mul_le_mul_left 4
      (Nat.add_le_add_right (Nat.add_le_add_right hle _) _)) _) _
  · exact ⟨rfl, rfl, Iff.rfl, le_rfl⟩

end

/-- The engine empties, in any world in which no step raises. -/
theorem loop_drains (hm : m.Serves cfg) (hbatch : 1 ≤ cfg.maxBatch)
    (henv : env.NeverRaises cfg m w) (encode : Text → List Token) {src : Ref → NewRequest}
    {l : EngineLoop σ} (hserve : Serving m src l.sched.next)
    (h : Served env cfg m w src l.sched.next l) {acts : List ServerAction}
    (hquiet : ∀ a ∈ acts, a.NoIntake) :
    ∃ l', run (EngineLoop.serve encode env cfg) l acts = .ok l' ∧
      Served env cfg m w src l.sched.next l' ∧ (l.backlog < acts.count .advance → l'.Idle) := by
  have hstep : ∀ (l₀ : EngineLoop σ) (a : ServerAction), Served env cfg m w src l.sched.next l₀ →
      a.NoIntake → ∃ l₁, l₀.serve encode env cfg a = .ok l₁ ∧
        Served env cfg m w src l.sched.next l₁ ∧ (l₀.Idle → l₁.Idle) ∧
        (¬l₀.Idle → l₁.backlog ≤ l₀.backlog ∧
          ((a == .advance) = true → l₁.backlog < l₀.backlog)) := by
    rintro l₀ a h₀ (rfl | ⟨r, rfl⟩)
    · obtain ⟨l₁, hl₁, hs₁, hpc₁, hidle, hlt⟩ := served_advance hm hbatch henv hserve h₀
      exact ⟨l₁, hl₁, h₀.act hm.fresh (a := .advance) hl₁ nofun hs₁ hpc₁, hidle,
        fun hno => ⟨(hlt hno).le, fun _ => hlt hno⟩⟩
    · obtain ⟨l₁, hl₁, hs₁, hpc₁, hidle, hle⟩ := cancel_backlog env cfg l₀ r
      exact ⟨l₁, hl₁, h₀.act hm.fresh hl₁ nofun (hs₁.trans h₀.stop) (hpc₁ ▸ h₀.pc), hidle.mpr,
        fun _ => ⟨hle, nofun⟩⟩
  exact run_exhausts hstep acts l hquiet h

/-- In an idle engine nobody is placed anywhere. -/
theorem EngineLoop.Idle.placed_nil {l : EngineLoop σ} (h : l.Idle) :
    l.point.held = [] ∧ l.point.placed = [] := by
  obtain ⟨hin, hhand, hwork⟩ := h
  obtain ⟨hw, hr⟩ := hasWork_false.mp hwork
  have hheld : l.point.held = [] := hr
  refine ⟨hheld, ?_⟩
  rw [placed, hheld, List.append_nil]
  simp [EngineLoop.point, rest, hin, hhand, hw]

variable {Hidden K V κ : Type} {M : Transformer Hidden K V} {clock : κ → Time × κ}
  {w : RunnerState κ K V} {encode : Text → List Token} {acts acts' : List ServerAction}

/--
**The server drains.** Take any state that clients and the engine thread can have brought the
server to, where each body posted so far had a positive limit, ids of the vocabulary and a request
id of its own (`Posted`), `max_batch` is at least one and nobody has called `stop`. If clients post
nothing more, then however they disconnect in between, the engine thread never raises, and once it
has gone through `backlog` places the engine is idle: every request nobody cancelled has the tokens
of greedy decoding alone, and the allocator is as good as new.
-/
theorem server_drains (hm : m.Serves cfg) (hbatch : 1 ≤ cfg.maxBatch) (hM : M.InVocab)
    (hencode : ∀ text, ∀ tok ∈ encode text, InVocab tok) (hpool : w.pool.layout = m.layout)
    (hposted : Posted acts) {l : EngineLoop (RunnerState κ K V)}
    (hrun : run (EngineLoop.serve encode (Env.ofRunner M clock) cfg) (.init cfg m w) acts = .ok l)
    (hstop : l.stop = false) (hquiet : ∀ a ∈ acts', a.NoIntake) :
    ∃ l', run (EngineLoop.serve encode (Env.ofRunner M clock) cfg) l acts' = .ok l' ∧
      (l.backlog < acts'.count .advance → l'.Idle ∧ l'.sched.manager.Fresh ∧
        ∀ r < l.sched.next, (l'.sched.heap r).cancelled = false → ∃ n, Asked encode m acts n ∧
          (l'.sched.heap r).requestId = n.requestId ∧
          Request.Ends M.next n.promptTokenIds n.capped n.ignoreEos
            (l'.sched.heap r).outputTokenIds) := by
  obtain ⟨src, hclients⟩ := serve_clients hm.fresh hencode hposted hrun
  have hpc : l.pc ≠ .done := fun hpc => by
    rw [hclients.done hpc] at hstop
    cases hstop
  have hserved : Served (Env.ofRunner M clock) cfg m w src l.sched.next l :=
    ⟨hclients.reach, hclients.sourced, rfl, hstop, hpc⟩
  obtain ⟨l', hl', hserved', hdone⟩ := loop_drains hm hbatch (ofRunner_neverRaises hm hM hpool)
    encode hclients.serving hserved hquiet
  refine ⟨l', hl', fun hlt => ?_⟩
  have hidle := hdone hlt
  have hgood := hserved'.good hm.fresh
  obtain ⟨hheld, hplaced⟩ := hidle.placed_nil
  have hnext : l'.sched.next = l.sched.next := hserved'.next
  have hserving : Serving m src l'.sched.next := hnext ▸ hclients.serving
  have hloaded := hserved'.sourced.loaded_reach hm.fresh hserved'.reach hserving
  refine ⟨hidle, hgood.fresh_of_idle hloaded.booked.accounted hheld, fun r hr hc => ?_⟩
  refine ⟨src r, hclients.asked r hr, ?_⟩
  have hnot : r ∉ l'.point.placed := by
    rw [hplaced]
    exact List.not_mem_nil
  have hsub : l'.point.Submitted r :=
    ⟨hnext ▸ hr, fun hin => hnot (mem_placed_of_inbox hin)⟩
  have hfin := hgood.finished_of_left hsub.1 hnot hc
  have hctx := hserved'.sourced.inContext fun r hr => (hserving.servable r hr).valid
  have hfol := (computed_ops hm.fresh hpool hctx (reach_of_withLookup hserved'.reach)).2.2
  exact ⟨(hserved'.sourced.evolves hsub).requestId, hserved'.sourced.ends hgood hfol hsub hfin⟩

/-- Two requests that do not fit together, one of which is cancelled on the way. -/
theorem server_drains_overcommit :
    ∃ l l', run (EngineLoop.serve (fun _ => []) (Env.ofRunner tiny tinyClock) { preemption := true })
        (.init { preemption := true } (.block (.new 4 1 Nat.one_pos false))
          (tinyWorld (.block (.new 4 1 Nat.one_pos false))))
        [.generate { promptTokenIds := some [1], maxNewTokens := 3 } "a" 0,
          .generate { promptTokenIds := some [2], maxNewTokens := 3 } "b" 0, .advance,
          .advance, .advance] = .ok l ∧
      run (EngineLoop.serve (fun _ => []) (Env.ofRunner tiny tinyClock) { preemption := true }) l
        (.advance :: .cancel 1 :: List.replicate 43 .advance) = .ok l' ∧ l'.Idle := by
  have hrun : ∃ l,
      run (EngineLoop.serve (fun _ => []) (Env.ofRunner tiny tinyClock) { preemption := true })
        (.init { preemption := true } (.block (.new 4 1 Nat.one_pos false))
          (tinyWorld (.block (.new 4 1 Nat.one_pos false))))
        [.generate { promptTokenIds := some [1], maxNewTokens := 3 } "a" 0,
          .generate { promptTokenIds := some [2], maxNewTokens := 3 } "b" 0, .advance,
          .advance, .advance] = .ok l ∧ l.stop = false ∧ l.backlog < 44 := by
    decide +kernel
  obtain ⟨l, hl, hstop, hbacklog⟩ := hrun
  have hposted : Posted [.generate { promptTokenIds := some [1], maxNewTokens := 3 } "a" 0,
      .generate { promptTokenIds := some [2], maxNewTokens := 3 } "b" 0, .advance, .advance,
      .advance] := ⟨by decide, by decide, by decide⟩
  have hquiet : ∀ a ∈ ServerAction.advance :: .cancel 1 :: List.replicate 43 .advance,
      a.NoIntake := by
    intro a ha
    rcases List.mem_cons.mp ha with rfl | ha
    · exact Or.inl rfl
    · rcases List.mem_cons.mp ha with rfl | ha
      · exact Or.inr ⟨1, rfl⟩
      · exact Or.inl (List.eq_of_mem_replicate ha)
  have hm : (Manager.block (.new 4 1 Nat.one_pos false)).Serves { preemption := true } :=
    ⟨Manager.fresh_block_new .., nofun, fun _ => rfl⟩
  obtain ⟨l', hl', hdone⟩ :=
    server_drains hm (by decide) tiny_inVocab (fun _ _ htok => absurd htok List.not_mem_nil) rfl
      hposted hl hstop hquiet
  refine ⟨l, l', hl, hl', (hdone ?_).1⟩
  have hcount : (ServerAction.advance :: .cancel 1 :: List.replicate 43 .advance).count .advance
      = 44 := by
    decide
  rwa [hcount]

end LlmServe
