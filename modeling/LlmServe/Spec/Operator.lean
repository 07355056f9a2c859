import LlmServe.Engine.Operations
import LlmServe.Properties.Books
import LlmServe.Theorems.Vocabulary

/-!
# The server under the eyes of its operator

The handlers of `/stats`, `/metrics` and `/stats/reset` run in threads of their own. `Operation` lets
them in at every line that writes to the metrics: it cuts a call of `step` into its small steps, and
what a small step writes to the metrics into lines. `reset` is cut into the fields that it sets.

Other threads of the server are as in `EngineLoop.serve`, and are let in at the same places.
-/

namespace LlmServe

open Infra Point Relation

/-- The lines of one statement of the engine thread about its metrics. -/
inductive Statement where
  | none
  | line (line : MetricsLine)
  | recordRequest (r : RequestMetrics)
  | recordStep (occupied queueDepth : Nat) (kvUsed kvEff padFrac : Rat)

def Statement.lines : Statement → List MetricsLine
  | none => []
  | line l => [l]
  | recordRequest r => recordRequestLines r
  | recordStep occupied queueDepth kvUsed kvEff padFrac =>
    recordStepLines occupied queueDepth kvUsed kvEff padFrac

structure Operated (σ : Type) where
  loop : EngineLoop σ
  /-- The engine thread is in `self.sched.step()`; its local variables are those of `Point`. -/
  stepping : Bool := false
  popped : List Ref := []
  batch : List Ref := []
  due : List (Ref × Token) := []
  owed : List Owed := []
  /-- What the engine thread has still to write to the metrics. -/
  lines : List MetricsLine := []
  /-- In the second loop of `_retire`: what `self.running` still refers to. -/
  retiring : Option (List Ref) := none
  /-- Each running call of `reset`: `keep`, and what it has still to set. -/
  resets : List (Nat × List MetricsField) := []
  tReset : Time

variable {σ : Type}

namespace Operated

def point (v : Operated σ) : Point σ where
  sched := v.loop.sched
  inbox := v.loop.hand ++ v.loop.inbox
  popped := v.popped
  batch := v.batch
  due := v.due
  owed := v.owed

/-- The engine, once what is left to write is written. -/
def settled (v : Operated σ) : Point σ :=
  { v.point with sched := { v.loop.sched with
      metrics := v.lines.foldl EngineMetrics.write v.loop.sched.metrics } }

/-- What a line of an endpoint finds. -/
def api (v : Operated σ) : ApiState σ where
  loop := { v.loop with sched := { v.loop.sched with
    running := v.retiring.getD v.loop.sched.running } }
  tReset := v.tReset

/-- The server, ready: `state["t_reset"]` is `now`. -/
def init (cfg : EngineConfig) (m : Manager) (w : σ) (now : Time) : Operated σ where
  loop := .init cfg m w
  tReset := now

/-- Nothing is half done. -/
def AtRest (v : Operated σ) : Prop :=
  v.popped = [] ∧ v.batch = [] ∧ v.due = [] ∧ v.owed = [] ∧ v.lines = []

def metrics (v : Operated σ) : EngineMetrics := v.loop.sched.metrics

def withMetrics (v : Operated σ) (met : EngineMetrics) : Operated σ :=
  { v with loop := { v.loop with sched := { v.loop.sched with metrics := met } } }

/-- The engine thread at `p`. -/
def moved (v : Operated σ) (p : Point σ) : Operated σ :=
  { v with
    loop := { v.loop with sched := p.sched }
    popped := p.popped, batch := p.batch, due := p.due, owed := p.owed }

end Operated

/-- The calls of `reset` in a stretch of time. -/
inductive ResetCalls where
  | none
  /-- Each falls between two statements of the engine thread, and nobody writes while it runs. -/
  | whole
  /-- At any line, and any line of another thread falls into them. -/
  | torn
  deriving DecidableEq

/-- One line of some thread. -/
inductive Operation (encode : Text → List Token) (env : Env σ) (cfg : EngineConfig)
    (calls : ResetCalls) : Operated σ → Operated σ → Prop where
  /-- A handler of `/generate`; it has read the clock before. -/
  | generate (v : Operated σ) (body : GenerateIn) (rid : String) (now : Time)
      (hnow : now ≤ (env.perfCounter v.loop.sched.world).1) :
      Operation encode env cfg calls v
        { v with loop := (v.loop.generate encode cfg body rid now).2 }
  | cancel (v : Operated σ) (r : Ref) (hr : r < v.loop.sched.next) :
      Operation encode env cfg calls v
        { v with loop := { v.loop with sched := v.loop.sched.cancel r } }
  | stop (v : Operated σ) :
      Operation encode env cfg calls v { v with loop := { v.loop with stop := true, wake := true } }
  /-- The engine thread, outside `step`. -/
  | advance (v : Operated σ) (l : EngineLoop σ) (hout : v.stepping = false)
      (hpc : v.loop.pc = .work → v.loop.sched.hasWork = false)
      (h : v.loop.advance env cfg = .ok l) :
      Operation encode env cfg calls v { v with loop := l }
  | enter (v : Operated σ) (hout : v.stepping = false) (hpc : v.loop.pc = .work)
      (hwork : v.loop.sched.hasWork = true) :
      Operation encode env cfg calls v { v with stepping := true }
  | small (v : Operated σ) (p : Point σ) (st : Statement) (hin : v.stepping = true)
      (hlines : v.lines = []) (h : StepOp env cfg (fun _ _ => True) v.point p)
      (hmet : p.sched.metrics = st.lines.foldl EngineMetrics.write v.metrics) :
      Operation encode env cfg calls v { (v.moved p).withMetrics v.metrics with lines := st.lines }
  | line (v : Operated σ) (line : MetricsLine) (lines : List MetricsLine)
      (hlines : v.lines = line :: lines) :
      Operation encode env cfg calls v { v.withMetrics (v.metrics.write line) with lines }
  /-- `for req in self.running` in `_retire`. -/
  | retire (v : Operated σ) (hin : v.stepping = true) :
      Operation encode env cfg calls v { v with retiring := some v.loop.sched.running }
  /-- `self.running = keep`. -/
  | retired (v : Operated σ) (hin : v.stepping = true) :
      Operation encode env cfg calls v { v with retiring := none }
  | leave (v : Operated σ) (hin : v.stepping = true) (hrest : v.AtRest)
      (hretiring : v.retiring = none) :
      Operation encode env cfg calls v
        { v with stepping := false, loop := { v.loop with pc := .top } }
  /-- A method raises, and the thread ends. -/
  | die (v : Operated σ) (hin : v.stepping = true) (hlines : v.lines = []) :
      Operation encode env cfg calls v
        { v with stepping := false, loop := { v.loop with pc := .done } }
  /-- `metrics.reset()`, with no line of another thread in between. -/
  | reset (v : Operated σ) (hcalls : calls = .whole) (hlines : v.lines = []) :
      Operation encode env cfg calls v
        { v.withMetrics v.metrics.reset with resets := v.resets ++ [(v.metrics.maxSlots, [])] }
  /-- `keep = self.max_slots`. -/
  | resetCalled (v : Operated σ) (hcalls : calls = .torn) :
      Operation encode env cfg calls v
        { v with resets := v.resets ++ [(v.metrics.maxSlots, MetricsField.all)] }
  | resetLine (v : Operated σ) (pre post : List (Nat × List MetricsField)) (keep : Nat)
      (field : MetricsField) (fields : List MetricsField) (hcalls : calls = .torn)
      (hresets : v.resets = pre ++ (keep, field :: fields) :: post) :
      Operation encode env cfg calls v
        { v.withMetrics (v.metrics.clear keep field) with resets := pre ++ (keep, fields) :: post }
  /-- `state["t_reset"] = time.perf_counter()`. -/
  | resetReturns (v : Operated σ) (pre post : List (Nat × List MetricsField)) (keep : Nat)
      (now : Time) (hresets : v.resets = pre ++ (keep, []) :: post) :
      Operation encode env cfg calls v { v with resets := pre ++ post, tReset := now }

/-- A body comes with the time that its handler read; the engine thread reads the clock next. -/
def Punctual (env : Env σ) (s : Scheduler σ) : ServerAction → Prop
  | .generate _ _ now => now ≤ (env.perfCounter s.world).1
  | _ => True

instance decidablePunctual (env : Env σ) (s : Scheduler σ) : ∀ a, Decidable (Punctual env s a)
  | .generate _ _ now => inferInstanceAs (Decidable (now ≤ (env.perfCounter s.world).1))
  | .cancel _ | .stop | .advance => isTrue trivial

abbrev Operations (encode : Text → List Token) (env : Env σ) (cfg : EngineConfig)
    (calls : ResetCalls) : Operated σ → Operated σ → Prop := ReflTransGen (Operation encode env cfg calls)

variable {encode : Text → List Token} {env : Env σ} {cfg : EngineConfig} {calls : ResetCalls}
  {m : Manager} {v v' : Operated σ} {p p' : Point σ}

/-! ## What the engine thread writes -/

/-- Every small step writes to the metrics as some statement does. -/
theorem stepOp_statement {adm : Point σ → Ref → Prop} (h : StepOp env cfg adm p p') :
    ∃ st : Statement, p'.sched.metrics = st.lines.foldl EngineMetrics.write p.sched.metrics := by
  cases stepOp_writes h with
  | same hmet => exact ⟨.none, hmet⟩
  | request r hmet => exact ⟨.recordRequest r, hmet⟩
  | preempt hmet => exact ⟨.line .preemptions, hmet⟩
  | count owed hcount =>
    generalize p'.sched.metrics = met at hcount
    cases hcount with
    | line line hline => exact ⟨.line line, rfl⟩
    | prefills n owed howed => exact ⟨.line (.prefills n), rfl⟩
    | recordStep n owed met howed hn hrec =>
      obtain rfl : met = _ := Scheduler.recordStep_ok hrec
      exact ⟨.recordStep n _ _ _ _, (EngineMetrics.recordStep_lines ..).symm⟩

/-- Another thread rejects a request between the lines. -/
theorem foldl_write_rejected (lines : List MetricsLine) (met : EngineMetrics) :
    lines.foldl EngineMetrics.write (met.write .rejected) =
      (lines.foldl EngineMetrics.write met).write .rejected := by
  induction lines generalizing met with
  | nil => rfl
  | cons line lines ih =>
    have hswap : (met.write .rejected).write line = (met.write line).write .rejected := by
      cases line <;> rfl
    rw [List.foldl_cons, hswap, ih, List.foldl_cons]

/-! ## What `reset` writes -/

theorem operations_clear (hcalls : calls = .torn) (keep : Nat)
    (pre : List (Nat × List MetricsField)) : ∀ (fields : List MetricsField) (v : Operated σ),
    v.resets = pre ++ [(keep, fields)] → Operations encode env cfg calls v
      { v.withMetrics (fields.foldl (EngineMetrics.clear keep) v.metrics) with
        resets := pre ++ [(keep, [])] }
  | [], v, h => by
    have hv : { v.withMetrics v.metrics with resets := pre ++ [(keep, [])] } = v := by
      rw [← h]
      rfl
    rw [List.foldl_nil, hv]
  | field :: fields, v, h =>
    .head (.resetLine v pre [] keep field fields hcalls h) (operations_clear hcalls keep pre fields
      { v.withMetrics (v.metrics.clear keep field) with resets := pre ++ [(keep, fields)] } rfl)

/-- Field by field, `reset` does what it does at once. -/
theorem operations_reset (v : Operated σ) : Operations encode env cfg .torn v
    { v.withMetrics v.metrics.reset with resets := v.resets ++ [(v.metrics.maxSlots, [])] } := by
  rw [← EngineMetrics.reset_lines]
  exact .head (.resetCalled v rfl) (operations_clear rfl v.metrics.maxSlots v.resets MetricsField.all
    { v with resets := v.resets ++ [(v.metrics.maxSlots, MetricsField.all)] } rfl)

theorem operation_torn (hop : Operation encode env cfg .whole v v') :
    Operations encode env cfg .torn v v' := by
  cases hop with
  | generate body rid now hnow => exact .single (.generate v body rid now hnow)
  | cancel r hr => exact .single (.cancel v r hr)
  | stop => exact .single (.stop v)
  | advance l hout hpc h => exact .single (.advance v l hout hpc h)
  | enter hout hpc hwork => exact .single (.enter v hout hpc hwork)
  | small p st hin hlines h hmet => exact .single (.small v p st hin hlines h hmet)
  | line line lines hlines => exact .single (.line v line lines hlines)
  | retire hin => exact .single (.retire v hin)
  | retired hin => exact .single (.retired v hin)
  | leave hin hrest hretiring => exact .single (.leave v hin hrest hretiring)
  | die hin hlines => exact .single (.die v hin hlines)
  | reset hcalls hlines => exact operations_reset v
  | resetCalled hcalls => cases hcalls
  | resetLine pre post keep field fields hcalls hresets => cases hcalls
  | resetReturns pre post keep now hresets => exact .single (.resetReturns v pre post keep now hresets)

theorem operations_torn (hops : Operations encode env cfg .whole v v') :
    Operations encode env cfg .torn v v' := by
  induction hops with
  | refl => exact .refl
  | tail _ hop ih => exact ih.trans (operation_torn hop)

/-! ## The actions of the server -/

/-- What a handler of `/generate` does to the loop: nothing, or it is turned away at the queue, or
its request is put into the inbox. -/
theorem generate_posts (encode : Text → List Token) (cfg : EngineConfig) (l : EngineLoop σ)
    (body : GenerateIn) (rid : String) (now : Time) :
    (l.generate encode cfg body rid now).2 = l ∨
      (l.generate encode cfg body rid now).2 =
        { l with sched := { l.sched with metrics := l.sched.metrics.write .rejected } } ∨
      ∃ n : NewRequest, n.arrivalTime = now ∧ (l.generate encode cfg body rid now).2 =
        { l with sched := l.sched.create n.toRequest, inbox := l.inbox ++ [l.sched.next]
                 wake := true } := by
  unfold EngineLoop.generate
  cases hreq : body.toRequest encode l.sched.manager rid now l.sched.next with
  | error e => exact Or.inl rfl
  | ok n =>
    have hn : n.arrivalTime = now := by
      obtain ⟨ids, -, hreq⟩ := exists_of_bind_ok hreq
      split at hreq
      · cases hreq
      · split at hreq <;> cases hreq
        rfl
    unfold EngineLoop.submit
    dsimp only
    split
    · exact Or.inr (Or.inl rfl)
    · exact Or.inr (Or.inr ⟨n, hn, rfl⟩)

/-- Outside `step` the engine thread hands over a request, or only moves on. -/
theorem advance_outside {l l' : EngineLoop σ} (h : l.advance env cfg = .ok l')
    (hpc : l.pc = .work → l.sched.hasWork = false) :
    l'.sched = l.sched ∧ l'.hand ++ l'.inbox = l.hand ++ l.inbox ∨
      ∃ r, l'.sched = l.sched.submit r ∧ l.hand = [r] ∧ l'.hand = [] ∧ l'.inbox = l.inbox := by
  unfold EngineLoop.advance at h
  split at h
  · next htop =>
    cases h
    refine Or.inl ⟨rfl, ?_⟩
    cases hs : l.stop <;> simp [EngineLoop.hand, htop]
  · next hdrain =>
    split at h <;> cases h
    · exact Or.inl ⟨rfl, by simp [EngineLoop.hand, hdrain]⟩
    · next r rest hin => exact Or.inl ⟨rfl, by simp [EngineLoop.hand, hdrain, hin]⟩
  · next r hhand =>
    cases h
    exact Or.inr ⟨r, rfl, by simp [EngineLoop.hand, hhand], rfl, rfl⟩
  · next hwork =>
    rw [hpc hwork] at h
    cases h
    exact Or.inl ⟨rfl, by simp [EngineLoop.hand, hwork]⟩
  · next hwait =>
    cases h
    exact Or.inl ⟨rfl, by simp [EngineLoop.hand, hwait]⟩
  · cases h
    exact Or.inl ⟨rfl, rfl⟩

/-! ## A step is lines of the engine thread -/

/-- The engine thread writes what is left. -/
theorem operations_lines : ∀ (lines : List MetricsLine) (v : Operated σ), v.lines = lines →
    Operations encode env cfg calls v
      { v.withMetrics (lines.foldl EngineMetrics.write v.metrics) with lines := [] }
  | [], v, h => by
    have hv : { v.withMetrics v.metrics with lines := [] } = v := by
      rw [← h]
      rfl
    rw [List.foldl_nil, hv]
  | line :: lines, v, h =>
    .head (.line v line lines h) (operations_lines lines
      { v.withMetrics (v.metrics.write line) with lines } rfl)

theorem operations_stepOp (hin : v.stepping = true) (hlines : v.lines = [])
    (h : StepOp env cfg (fun _ _ => True) v.point p) :
    Operations encode env cfg calls v (v.moved p) := by
  obtain ⟨st, hmet⟩ := stepOp_statement h
  let u : Operated σ := { (v.moved p).withMetrics v.metrics with lines := st.lines }
  have hend : { u.withMetrics (st.lines.foldl EngineMetrics.write u.metrics) with lines := [] } =
      v.moved p := by
    rw [show st.lines.foldl EngineMetrics.write u.metrics = p.sched.metrics from hmet.symm, ← hlines]
    rfl
  exact .head (.small v p st hin hlines h hmet) (hend ▸ operations_lines st.lines u rfl)

/-- The points inside a call of `step` have the inbox of its beginning. -/
theorem moved_point (h : p.inbox = v.point.inbox) : (v.moved p).point = p := by
  obtain ⟨s, inbox, popped, batch, due, owed⟩ := p
  obtain rfl : inbox = _ := h
  rfl

theorem operations_stepOps (hin : v.stepping = true) (hlines : v.lines = [])
    (h : StepOps env cfg (fun _ _ => True) v.point p) :
    Operations encode env cfg calls v (v.moved p) := by
  induction h with
  | refl => exact .refl
  | @tail p p' hops hop ih =>
    have hinbox : p.inbox = v.point.inbox := (stepOps_frame hops).inbox
    have hpoint : (v.moved p).point = p := moved_point hinbox
    exact ih.trans (operations_stepOp (v := v.moved p) hin hlines (hpoint.symm ▸ hop))

theorem Operated.AtRest.point (h : v.AtRest) : v.point = v.loop.point := by
  obtain ⟨hpopped, hbatch, hdue, howed, -⟩ := h
  unfold Operated.point
  rw [hpopped, hbatch, hdue, howed]
  rfl

/-- With nothing left to write, the engine is where it is. -/
theorem settled_eq (h : v.lines = []) : v.settled = v.point := by
  unfold Operated.settled
  rw [h]
  rfl

theorem Operated.AtRest.settled (h : v.AtRest) : v.settled = v.loop.point := by
  rw [settled_eq h.2.2.2.2, h.point]

/-- What a small step leaves to write is what it writes. -/
theorem settled_small {st : Statement} (h : p.inbox = v.point.inbox)
    (hmet : p.sched.metrics = st.lines.foldl EngineMetrics.write v.metrics) :
    ({ (v.moved p).withMetrics v.metrics with lines := st.lines } : Operated σ).settled = p := by
  obtain ⟨s, inbox, popped, batch, due, owed⟩ := p
  obtain rfl : inbox = _ := h
  have hs : { s with metrics := st.lines.foldl EngineMetrics.write v.metrics } = s := by
    rw [← hmet]
  unfold Operated.settled
  exact congrArg (Point.mk · v.point.inbox popped batch due owed) hs

theorem moved_rest {s : Scheduler σ} {inbox : List Ref} (h : v.AtRest) :
    v.moved (rest s inbox) = { v with loop := { v.loop with sched := s } } := by
  obtain ⟨hpopped, hbatch, hdue, howed, -⟩ := h
  unfold Operated.moved rest
  rw [hpopped, hbatch, hdue, howed]

/-- **What `EngineLoop.serve` does, the threads do line by line.** -/
theorem serve_operations {l : EngineLoop σ} {a : ServerAction} (hout : v.stepping = false)
    (hretiring : v.retiring = none) (hrest : v.AtRest) (hp : Placed cfg v.loop.point)
    (hnow : Punctual env v.loop.sched a) (h : v.loop.serve encode env cfg a = .ok l) :
    Operations encode env cfg calls v { v with loop := l } := by
  cases a with
  | generate body rid now =>
    cases h
    exact .single (.generate v body rid now hnow)
  | cancel r =>
    cases h
    split
    · next hr => exact .single (.cancel v r hr)
    · exact .refl
  | stop =>
    cases h
    exact .single (.stop v)
  | advance =>
    by_cases hwork : v.loop.pc = .work ∧ v.loop.sched.hasWork = true
    · obtain ⟨hpc, hwork⟩ := hwork
      obtain ⟨s, hs, rfl⟩ : ∃ s, v.loop.sched.step env cfg = .ok s ∧
          l = { v.loop with sched := s, pc := .top } := by
        change v.loop.advance env cfg = .ok l at h
        unfold EngineLoop.advance at h
        rw [hpc] at h
        dsimp only at h
        rw [if_pos hwork] at h
        obtain ⟨s, hs, he⟩ := exists_of_bind_ok h
        cases he
        exact ⟨s, hs, rfl⟩
      let u : Operated σ := { v with stepping := true }
      have hops : StepOps env cfg (fun _ _ => True) u.point
          (rest s (v.loop.hand ++ v.loop.inbox)) := by
        have hpoint : u.point = v.loop.point := hrest.point
        rw [hpoint]
        exact step_ops hp hs
      have hmoved : Operations encode env cfg calls u _ := operations_stepOps rfl hrest.2.2.2.2 hops
      rw [moved_rest (show u.AtRest from hrest)] at hmoved
      refine .head (.enter v hout hpc hwork) (hmoved.tail ?_)
      have hleave : Operation encode env cfg calls { u with loop := { u.loop with sched := s } }
          { v with stepping := false, loop := { v.loop with sched := s, pc := .top } } :=
        .leave _ rfl hrest hretiring
      rwa [← hout] at hleave
    · exact .single (.advance v l hout (fun hpc => by simpa [hpc] using hwork) h)

/-- Every body of the run is punctual. -/
def PunctualRun (encode : Text → List Token) (env : Env σ) (cfg : EngineConfig) :
    EngineLoop σ → List ServerAction → Prop
  | _, [] => True
  | l, a :: as => Punctual env l.sched a ∧
      ∀ l', l.serve encode env cfg a = .ok l' → PunctualRun encode env cfg l' as

instance decidablePunctualRun :
    ∀ (l : EngineLoop σ) (acts : List ServerAction), Decidable (PunctualRun encode env cfg l acts)
  | _, [] => isTrue trivial
  | l, a :: as =>
    have := fun l' => decidablePunctualRun l' as
    inferInstanceAs (Decidable (Punctual env l.sched a ∧
      ∀ l', l.serve encode env cfg a = .ok l' → PunctualRun encode env cfg l' as))

theorem serveRun_operations {acts : List ServerAction} : ∀ {v : Operated σ} {l : EngineLoop σ},
    v.stepping = false → v.retiring = none → v.AtRest → Good cfg m v.loop.point →
    PunctualRun encode env cfg v.loop acts →
    run (EngineLoop.serve encode env cfg) v.loop acts = .ok l →
    Operations encode env cfg calls v { v with loop := l } := by
  induction acts with
  | nil =>
    intro v l _ _ _ _ _ hrun
    cases hrun
    exact .refl
  | cons a acts ih =>
    rintro v l hout hretiring hrest hgood ⟨hnow, hpunctual⟩ hrun
    obtain ⟨l₁, ha, hrun⟩ := exists_of_bind_ok hrun
    have hfirst : Operations encode env cfg calls v { v with loop := l₁ } :=
      serve_operations hout hretiring hrest hgood.placed hnow ha
    have hgood₁ : Good cfg m l₁.point := hgood.ops (serve_reach hgood.placed ha)
    exact hfirst.trans (ih (v := { v with loop := l₁ }) hout hretiring hrest hgood₁
      (hpunctual l₁ ha) hrun)

/-- Such a run, and a reset after it. -/
theorem serveRun_reset {w : σ} {t₀ now : Time} {acts : List ServerAction} {l : EngineLoop σ}
    (hm : m.Fresh) (hpunctual : PunctualRun encode env cfg (.init cfg m w) acts)
    (hrun : run (EngineLoop.serve encode env cfg) (.init cfg m w) acts = .ok l) :
    Operations encode env cfg .whole (.init cfg m w t₀)
      { loop := { l with sched := { l.sched with metrics := l.sched.metrics.reset } }
        tReset := now } := by
  have hserve : Operations encode env cfg .whole (.init cfg m w t₀)
      { Operated.init cfg m w t₀ with loop := l } :=
    serveRun_operations rfl rfl ⟨rfl, rfl, rfl, rfl, rfl⟩ (.init hm w) hpunctual hrun
  exact (hserve.tail (.reset _ rfl rfl)).tail (.resetReturns _ [] [] _ now rfl)

end LlmServe
