import LlmServe.Engine.Engine
import LlmServe.Infra.Machine

/-!
# A step of the scheduler, cut into small steps

`Scheduler.step` is one call, but other threads look at the engine while it runs. `StepOp` cuts the
call at the places where something observable changes: a list, the allocator, a field, a forward
pass, a sink. A `Point` is the state between two of them; it carries, besides the scheduler's own
fields, the local variables of the methods that are running:

* `inbox`  : objects built but not yet given to `Scheduler.submit`;
* `popped` : admitted by `_pop_admissible`, not yet in a prefill;
* `batch`  : in the prefill that is running, not yet in `running`;
* `due`    : rows of the last forward pass, with their tokens, that `_emit` has not seen yet;
* `owed`   : what the engine thread has still to count of its forward passes.

`StepOp` allows more orders than the code takes. It says what each small step can do and under which
guard, which is all an invariant needs. `Op` adds what other threads do, at any point of a call.
`Fault` says where a small step raises. `adm` is what a run promises about each admission: nothing
(`Reach`), unless a result is about runs with such a promise.
`LlmServe/Spec/StepOps.lean` proves that every call of `step` is a sequence of small steps, and
that an exception is raised at a point some sequence leads to.
-/

namespace LlmServe

open Infra

/-- What the rest of a method counts of its forward pass of `n` rows. -/
inductive Owed where
  /-- `self.metrics.prefills += len(batch)`. -/
  | prefills (n : Nat)
  /-- `self.metrics.record_step(...)`. -/
  | recordStep (n : Nat)

structure Point (σ : Type) where
  sched : Scheduler σ
  inbox : List Ref := []
  popped : List Ref := []
  batch : List Ref := []
  due : List (Ref × Token) := []
  owed : List Owed := []

namespace Point

variable {σ : Type}

/-- The point between two calls of `step`. -/
def rest (s : Scheduler σ) (inbox : List Ref) : Point σ := { sched := s, inbox }

/-- The point inside `_admit` with these requests popped. -/
def admitting (s : Scheduler σ) (inbox popped : List Ref) : Point σ := { sched := s, inbox, popped }

/-- Requests that hold memory. -/
def held (p : Point σ) : List Ref := p.popped ++ p.batch ++ p.sched.running

/-- Every place a request can be in. -/
def placed (p : Point σ) : List Ref := p.inbox ++ p.sched.waiting ++ p.held

/-- No method holds a request in a local variable. -/
def Idle (p : Point σ) : Prop := p.popped = [] ∧ p.batch = [] ∧ p.due = []

/-- The tokens of `due` belong to these requests. -/
def dueRefs (p : Point σ) : List Ref := p.due.map Prod.fst

@[simp] theorem idle_rest (s : Scheduler σ) (inbox : List Ref) : (rest s inbox).Idle :=
  ⟨rfl, rfl, rfl⟩

end Point

/-- The blocks of `r` reach its newest token. Slots always do. -/
def Covered {σ : Type} (s : Scheduler σ) (r : Ref) : Prop :=
  s.manager.paged = true →
    s.manager.unitsNeeded (s.heap r).seqLen ≤ (s.heap r).blockTable.length

/-- The lines that count something else than a forward pass, when there are `rows` running. -/
def MetricsLine.Loose (rows : Nat) : MetricsLine → Prop
  | .peakBatch n => n ≤ rows
  | .prefillSeconds _ | .decodeSeconds _ | .rejected => True
  | _ => False

variable {σ : Type}

/-- The engine thread counts something; what it owes then. -/
inductive Counts (env : Env σ) (p : Point σ) : EngineMetrics → List Owed → Prop where
  | line (line : MetricsLine) (hline : line.Loose p.sched.running.length) :
      Counts env p (p.sched.metrics.write line) p.owed
  | prefills (n : Nat) (owed : List Owed) (howed : p.owed = .prefills n :: owed) :
      Counts env p (p.sched.metrics.write (.prefills n)) owed
  | recordStep (n : Nat) (owed : List Owed) (met : EngineMetrics)
      (howed : p.owed = .recordStep n :: owed) (hn : 0 < n)
      (h : p.sched.recordStep env n = .ok { p.sched with metrics := met }) :
      Counts env p met owed

/-- One small step inside a call of `step`. -/
inductive StepOp (env : Env σ) (cfg : EngineConfig) (adm : Point σ → Ref → Prop) :
    Point σ → Point σ → Prop where
  /-- The first line of `_retire`. -/
  | dropCancelled (p : Point σ) (hidle : p.Idle) :
      StepOp env cfg adm p
        { p with sched := { p.sched with
            waiting := p.sched.waiting.filter fun r => !(p.sched.heap r).cancelled } }
  /-- A round of the first loop of `_retire`. -/
  | markCancelled (p : Point σ) (r : Ref) (hidle : p.Idle) (hr : r ∈ p.sched.running) :
      StepOp env cfg adm p { p with sched := p.sched.markCancelled env r }
  /-- A finished request leaves. -/
  | leave (p : Point σ) (s' : Scheduler σ) (pre post : List Ref) (r : Ref) (hidle : p.Idle)
      (hr : p.sched.running = pre ++ r :: post) (hfin : (p.sched.heap r).finished = true)
      (h : p.sched.leave r = .ok s') :
      StepOp env cfg adm p { p with sched := { s' with running := pre ++ post } }
  /-- `self.waiting.sort(...)`. -/
  | sort (p : Point σ) (hidle : p.Idle) :
      StepOp env cfg adm p
        { p with sched := { p.sched with
            waiting := Scheduler.sortWaiting p.sched.heap p.sched.waiting } }
  /-- A round of `_pop_admissible`. -/
  | admitHead (p : Point σ) (s' : Scheduler σ) (r : Ref) (tail : List Ref) (hbatch : p.batch = [])
      (hdue : p.due = []) (hw : p.sched.waiting = r :: tail)
      (hsorted : p.sched.waiting.Pairwise fun a b =>
        Scheduler.waitingKey (p.sched.heap a) ≤ Scheduler.waitingKey (p.sched.heap b))
      (hroom : p.sched.running.length + p.popped.length < cfg.maxBatch)
      (hcan : p.sched.manager.canAllocate (p.sched.heap r)
        (p.sched.running.length + p.popped.length) = true)
      (hadm : adm p r) (h : { p.sched with waiting := tail }.allocate r = .ok s') :
      StepOp env cfg adm p { p with sched := s'.stampAdmit r, popped := p.popped ++ [r] }
  /-- The forward pass of a prefill. -/
  | prefill (p : Point σ) (s' : Scheduler σ) (batch rest : List Ref) (nxt : List Token)
      (hbatch : p.batch = []) (hdue : p.due = []) (hp : p.popped = batch ++ rest)
      (h : p.sched.stepTokens env (batch.map p.sched.prefillRow) = .ok (nxt, s')) :
      StepOp env cfg adm p
        { p with sched := s', popped := rest, batch, due := batch.zip nxt
                 owed := p.owed ++ [.prefills batch.length] }
  /-- `req.state = RequestState.RUNNING`. -/
  | setRunning (p : Point σ) (r : Ref) (hr : r ∈ p.batch) :
      StepOp env cfg adm p { p with sched := p.sched.modify r fun q => { q with state := .running } }
  /-- `_emit`. -/
  | emit (p : Point σ) (r : Ref) (tok : Token) (due : List (Ref × Token))
      (hdue : p.due = (r, tok) :: due) :
      StepOp env cfg adm p { p with sched := p.sched.emit env r tok, due }
  /-- `self.running.extend(batch)`. -/
  | join (p : Point σ) (hdue : p.due = []) :
      StepOp env cfg adm p
        { p with sched := { p.sched with running := p.sched.running ++ p.batch }, batch := [] }
  /-- `append_slot` in `_ensure_capacity`. -/
  | grow (p : Point σ) (r : Ref) (hidle : p.Idle) (hr : r ∈ p.sched.running)
      (hfin : (p.sched.heap r).finished = false) :
      StepOp env cfg adm p { p with sched := (p.sched.appendSlot r).2 }
  /-- `_preempt`. -/
  | preempt (p : Point σ) (s' : Scheduler σ) (r : Ref) (hidle : p.Idle)
      (hr : r ∈ p.sched.running) (hfin : (p.sched.heap r).finished = false)
      (hpre : cfg.preemption = true) (h : p.sched.preempt r = .ok s') :
      StepOp env cfg adm p { p with sched := s' }
  /-- The forward pass of a decode step. -/
  | decode (p : Point σ) (s' : Scheduler σ) (batch : List Ref) (rows : List Row)
      (nxt : List Token) (hidle : p.Idle) (hnd : batch.Nodup)
      (hrun : ∀ r ∈ batch, r ∈ p.sched.running)
      (hfin : ∀ r ∈ batch, (p.sched.heap r).finished = false)
      (hcov : ∀ r ∈ batch, Covered p.sched r)
      (hrows : batch.mapM p.sched.decodeRow = .ok rows)
      (h : p.sched.stepTokens env rows = .ok (nxt, s')) :
      StepOp env cfg adm p
        { p with sched := s', due := batch.zip nxt, owed := p.owed ++ [.recordStep batch.length] }
  /-- A reading of the clock. -/
  | clock (p : Point σ) : StepOp env cfg adm p { p with sched := (p.sched.perfCounter env).2 }
  | count (p : Point σ) (met : EngineMetrics) (owed : List Owed) (hcount : Counts env p met owed) :
      StepOp env cfg adm p { p with sched := { p.sched with metrics := met }, owed }

/-- One small step of the engine or of another thread. -/
inductive Op (env : Env σ) (cfg : EngineConfig) (adm : Point σ → Ref → Prop) :
    Point σ → Point σ → Prop where
  | step {p p' : Point σ} (h : StepOp env cfg adm p p') : Op env cfg adm p p'
  /-- Another thread disconnects. -/
  | cancel (p : Point σ) (r : Ref) (hr : r < p.sched.next) :
      Op env cfg adm p { p with sched := p.sched.cancel r }
  /-- Another thread builds a request. -/
  | create (p : Point σ) (n : NewRequest) :
      Op env cfg adm p
        { p with sched := p.sched.create n.toRequest, inbox := p.inbox ++ [p.sched.next] }
  /-- `Scheduler.submit`. -/
  | submit (p : Point σ) (pre post : List Ref) (r : Ref) (hidle : p.Idle)
      (hin : p.inbox = pre ++ r :: post) :
      Op env cfg adm p { p with sched := p.sched.submit r, inbox := pre ++ post }

/-- Where a small step raises, and what. -/
inductive Fault (env : Env σ) (cfg : EngineConfig) : Point σ → PyError → Prop where
  | leave (p : Point σ) (r : Ref) (e : PyError) (hidle : p.Idle) (hr : r ∈ p.sched.running)
      (hfin : (p.sched.heap r).finished = true) (h : p.sched.leave r = .error e) :
      Fault env cfg p e
  | admitHead (p : Point σ) (r : Ref) (tail : List Ref) (e : PyError) (hbatch : p.batch = [])
      (hw : p.sched.waiting = r :: tail)
      (hcan : p.sched.manager.canAllocate (p.sched.heap r)
        (p.sched.running.length + p.popped.length) = true)
      (h : { p.sched with waiting := tail }.allocate r = .error e) :
      Fault env cfg p e
  | prefill (p : Point σ) (batch rest : List Ref) (e : PyError) (hp : p.popped = batch ++ rest)
      (h : env.stepTokens p.sched.world (batch.map p.sched.prefillRow) = .error e) :
      Fault env cfg p e
  | decode (p : Point σ) (batch : List Ref) (rows : List Row) (e : PyError)
      (hrun : ∀ r ∈ batch, r ∈ p.sched.running) (hrows : batch.mapM p.sched.decodeRow = .ok rows)
      (h : env.stepTokens p.sched.world rows = .error e) : Fault env cfg p e
  | capacity (p : Point σ) (r : Ref) (hidle : p.Idle) (hr : r ∈ p.sched.running)
      (hfin : (p.sched.heap r).finished = false) (hpre : cfg.preemption = false)
      (h : (p.sched.appendSlot r).1 = false) :
      Fault env cfg p (.runtimeError "out of KV blocks and preemption is disabled")
  | preempt (p : Point σ) (r : Ref) (e : PyError) (hidle : p.Idle) (hr : r ∈ p.sched.running)
      (hpre : cfg.preemption = true) (h : p.sched.preempt r = .error e) : Fault env cfg p e
  | decodeRow (p : Point σ) (r : Ref) (e : PyError) (hidle : p.Idle) (hr : r ∈ p.sched.running)
      (h : p.sched.decodeRow r = .error e) : Fault env cfg p e
  | recordStep (p : Point σ) (r : Ref) (hr : r ∈ p.sched.running) (hdue : r ∈ p.dueRefs)
      (h : (p.sched.manager.stats p.sched.heap).total = 0) : Fault env cfg p .zeroDivisionError

abbrev StepOps (env : Env σ) (cfg : EngineConfig) (adm : Point σ → Ref → Prop) :
    Point σ → Point σ → Prop := Relation.ReflTransGen (StepOp env cfg adm)

abbrev Ops (env : Env σ) (cfg : EngineConfig) (adm : Point σ → Ref → Prop) :
    Point σ → Point σ → Prop := Relation.ReflTransGen (Op env cfg adm)

/-- Small steps, with nothing promised about admissions. -/
abbrev Reach (env : Env σ) (cfg : EngineConfig) : Point σ → Point σ → Prop :=
  Ops env cfg fun _ _ => True

theorem ops_of_stepOps {env : Env σ} {cfg : EngineConfig} {adm : Point σ → Ref → Prop}
    {p p' : Point σ} (h : StepOps env cfg adm p p') : Ops env cfg adm p p' := by
  induction h with
  | refl => exact .refl
  | tail _ hop ih => exact ih.tail (.step hop)

/-- The share of the memory that is in use, as a decode step records it. -/
def Stats.utilisation (st : Stats) : Rat := (st.used : Rat) / st.total

/-- The efficiency that a decode step records and a scrape reports. -/
def Stats.efficiency (st : Stats) : Rat :=
  if st.capacityTokens ≠ 0 then (st.liveTokens : Rat) / st.capacityTokens else 0

/-! ## What each method leaves behind

The lemmas of this section are the only ones that unfold the methods; they give the fields of the
state a method leaves.
-/

namespace Scheduler

/-- From `s` to `s'` the object `r` became `q`; of the rest only the allocator, the counters and
the world can have changed. -/
structure Touches (s s' : Scheduler σ) (r : Ref) (q : Request) : Prop where
  heap : s'.heap = Function.update s.heap r q
  next : s'.next = s.next
  waiting : s'.waiting = s.waiting
  running : s'.running = s.running
  admitCounter : s'.admitCounter = s.admitCounter
  trace : s'.trace = s.trace

theorem Touches.self {s s' : Scheduler σ} {r : Ref} {q : Request} (h : s.Touches s' r q) :
    s'.heap r = q := by
  rw [h.heap, Function.update_self]

theorem Touches.other {s s' : Scheduler σ} {r x : Ref} {q : Request} (h : s.Touches s' r q)
    (hx : x ≠ r) : s'.heap x = s.heap x := by
  rw [h.heap, Function.update_of_ne hx]

theorem touches_modify (s : Scheduler σ) (r : Ref) (f : Request → Request) :
    s.Touches (s.modify r f) r (f (s.heap r)) := ⟨rfl, rfl, rfl, rfl, rfl, rfl⟩

theorem Touches.refl (s : Scheduler σ) (r : Ref) : s.Touches s r (s.heap r) :=
  ⟨(Function.update_eq_self r s.heap).symm, rfl, rfl, rfl, rfl, rfl⟩

theorem stepTokens_ok {env : Env σ} {s s' : Scheduler σ} {rows : List Row} {nxt : List Token}
    (h : s.stepTokens env rows = .ok (nxt, s')) :
    ∃ w, env.stepTokens s.world rows = .ok (nxt, w) ∧
      s' = { s with world := w, trace := s.trace ++ rows.map Row.fed } := by
  obtain ⟨⟨out, w⟩, hw, he⟩ := exists_of_bind_ok h
  cases he
  exact ⟨w, hw, rfl⟩

theorem stepTokens_error {env : Env σ} {s : Scheduler σ} {rows : List Row} {e : PyError}
    (h : s.stepTokens env rows = .error e) : env.stepTokens s.world rows = .error e := by
  unfold stepTokens at h
  cases hx : env.stepTokens s.world rows with
  | error e' => rw [hx] at h; cases h; rfl
  | ok a => rw [hx] at h; cases h

theorem allocate_ok {s s' : Scheduler σ} {r : Ref} (h : s.allocate r = .ok s') :
    ∃ q, s.manager.allocate r (s.heap r) = .ok (s'.manager, q) ∧ s.Touches s' r q := by
  obtain ⟨⟨m, q⟩, hm, he⟩ := exists_of_bind_ok h
  cases he
  exact ⟨q, hm, rfl, rfl, rfl, rfl, rfl, rfl⟩

/-- A round of `_pop_admissible`: the head of `waiting` gets its memory and the next number. -/
structure Admitted (s s' : Scheduler σ) (r : Ref) (tail : List Ref) (q : Request) : Prop where
  allocate : s.manager.allocate r (s.heap r) = .ok (s'.manager, q)
  heap : s'.heap = Function.update s.heap r { q with admitSeq := s.admitCounter }
  next : s'.next = s.next
  waiting : s'.waiting = tail
  running : s'.running = s.running
  admitCounter : s'.admitCounter = s.admitCounter + 1
  trace : s'.trace = s.trace

theorem stampAdmit_admitted {s s' : Scheduler σ} {r : Ref} {tail : List Ref}
    (h : { s with waiting := tail }.allocate r = .ok s') :
    ∃ q, s.Admitted (s'.stampAdmit r) r tail q := by
  obtain ⟨q, hm, ht⟩ := allocate_ok h
  refine ⟨q, hm, ?_, ht.next, ht.waiting, ht.running, ?_, ht.trace⟩
  · simp [stampAdmit, modify, ht.heap, ht.admitCounter]
  · simp [stampAdmit, ht.admitCounter]

theorem free_ok {s s' : Scheduler σ} {r : Ref} (h : s.free r = .ok s') :
    ∃ q, s.manager.free (s.heap r) = .ok (s'.manager, q) ∧ s.Touches s' r q := by
  obtain ⟨⟨m, q⟩, hm, he⟩ := exists_of_bind_ok h
  cases he
  exact ⟨q, hm, rfl, rfl, rfl, rfl, rfl, rfl⟩

theorem appendSlot_touches (s : Scheduler σ) (r : Ref) :
    (s.appendSlot r).2.manager = (s.manager.appendSlot (s.heap r)).2.1 ∧
      s.Touches (s.appendSlot r).2 r (s.manager.appendSlot (s.heap r)).2.2 :=
  ⟨rfl, rfl, rfl, rfl, rfl, rfl, rfl⟩

theorem appendSlot_fst (s : Scheduler σ) (r : Ref) :
    (s.appendSlot r).1 = (s.manager.appendSlot (s.heap r)).1 := rfl

/-- A running request is closed only if its client is gone and it had not ended by itself. -/
theorem markCancelled_cases (env : Env σ) (s : Scheduler σ) (r : Ref) :
    s.markCancelled env r = s ∨
      (s.heap r).cancelled = true ∧ (s.heap r).finished = false ∧
        (s.markCancelled env r).manager = s.manager ∧ ∃ now,
          s.Touches (s.markCancelled env r) r
            { s.heap r with finishReason := some .cancelled, finishTime := some now } := by
  unfold markCancelled
  split
  · next h =>
    obtain ⟨hc, hf⟩ := Bool.and_eq_true_iff.mp h
    exact Or.inr ⟨hc, by simpa using hf, rfl, _, rfl, rfl, rfl, rfl, rfl, rfl⟩
  · exact Or.inl rfl

theorem recordRequest_ok {s s' : Scheduler σ} {r : Ref} (h : s.recordRequest r = .ok s') :
    ∃ met, s.metrics.recordRequest (s.heap r) = .ok met ∧ s' = { s with metrics := met } := by
  obtain ⟨met, hm, he⟩ := exists_of_bind_ok h
  cases he
  exact ⟨met, hm, rfl⟩

theorem leave_ok {s s' : Scheduler σ} {r : Ref} (h : s.leave r = .ok s') :
    ∃ q, s.manager.free { s.heap r with state := .finished } = .ok (s'.manager, q) ∧
      s.Touches s' r q := by
  obtain ⟨s₁, hfree, hrest⟩ := exists_of_bind_ok h
  obtain ⟨q, hm, ht⟩ := free_ok hfree
  have hs : s.Touches s₁ r q := by
    refine ⟨?_, ht.next, ht.waiting, ht.running, ht.admitCounter, ht.trace⟩
    rw [ht.heap]
    exact Function.update_idem ..
  rw [(touches_modify ..).self] at hm
  split at hrest
  · obtain ⟨met, -, rfl⟩ := recordRequest_ok hrest
    exact ⟨q, hm, hs.heap, hs.next, hs.waiting, hs.running, hs.admitCounter, hs.trace⟩
  · cases hrest
    exact ⟨q, hm, hs⟩

/-- `_preempt`: the request gives its memory back and goes to the end of `waiting`. -/
structure Preempted (s s' : Scheduler σ) (r : Ref) (q : Request) : Prop where
  free : s.manager.free (s.heap r) = .ok (s'.manager, q)
  heap : s'.heap = Function.update s.heap r
    { q with state := .waiting, preemptCount := q.preemptCount + 1 }
  next : s'.next = s.next
  waiting : s'.waiting = s.waiting ++ [r]
  running : s'.running = remove (Function.update s.heap r q) r s.running
  admitCounter : s'.admitCounter = s.admitCounter
  trace : s'.trace = s.trace

theorem preempt_ok {s s' : Scheduler σ} {r : Ref} (h : s.preempt r = .ok s') :
    ∃ q, s.Preempted s' r q := by
  obtain ⟨s₁, hfree, hrest⟩ := exists_of_bind_ok h
  obtain ⟨⟨m, q⟩, hm, he⟩ := exists_of_bind_ok hfree
  cases he
  split at hrest
  · cases hrest
    exact ⟨q, hm, by simp [modify], rfl, rfl, rfl, rfl, rfl⟩
  · cases hrest

theorem recordStep_ok {env : Env σ} {s s' : Scheduler σ} {n : Nat}
    (h : s.recordStep env n = .ok s') : s'.metrics = s.metrics.recordStep n s.waiting.length
      (s.manager.stats s.heap).utilisation (s.manager.stats s.heap).efficiency
      (env.lastPadFrac s.world) := by
  unfold recordStep at h
  dsimp only at h
  split at h <;> cases h
  rfl

/-- `_emit`: the token goes to the request, then to its sink. -/
structure Emitted (now : Time) (s s' : Scheduler σ) (r : Ref) (tok : Token) : Prop where
  heap : s'.heap = Function.update s.heap r ((s.heap r).emit now tok)
  next : s'.next = s.next
  manager : s'.manager = s.manager
  waiting : s'.waiting = s.waiting
  running : s'.running = s.running
  admitCounter : s'.admitCounter = s.admitCounter
  trace : s'.trace = s.trace ++
    (if ((s.heap r).emit now tok).sink.isSome then
      [.sink r tok ((s.heap r).emit now tok).finished] else []) ++
    [.emitted r ((s.heap r).emit now tok).outputTokenIds]

theorem emit_ok (env : Env σ) (s : Scheduler σ) (r : Ref) (tok : Token) :
    ∃ now, Emitted now s (s.emit env r tok) r tok := by
  refine ⟨(env.perfCounter s.world).1, ?_⟩
  unfold emit perfCounter
  simp only [modify, Function.update_self]
  by_cases h : ((s.heap r).emit (env.perfCounter s.world).1 tok).sink.isSome = true
  · simp only [if_pos h]
    exact ⟨rfl, rfl, rfl, rfl, rfl, rfl, by simp only [if_pos h, Function.update_self]⟩
  · simp only [if_neg h]
    exact ⟨rfl, rfl, rfl, rfl, rfl, rfl, by
      simp only [if_neg h, Function.update_self, List.append_nil]⟩

end Scheduler

theorem Counts.sameBooks {env : Env σ} {p : Point σ} {met : EngineMetrics} {owed : List Owed}
    (h : Counts env p met owed) : p.sched.metrics.SameBooks met := by
  cases h with
  | line line hline => cases line <;> first | exact hline.elim | exact ⟨rfl, rfl⟩
  | prefills n owed howed => exact ⟨rfl, rfl⟩
  | recordStep n owed met howed hn hrec =>
    rw [show met = _ from Scheduler.recordStep_ok hrec]
    exact EngineMetrics.sameBooks_recordStep ..

end LlmServe
