import LlmServe.Properties.Books
import Mathlib.Algebra.Order.BigOperators.Group.List

/-!
# The counters and the requests

The metrics count admissions, rows, decode steps and evictions; the requests show them as tokens and
`preempt_count`s. Inside a call of `step` the two sides differ by what is under way: requests in a
local variable, tokens that `_emit` has not seen, calls that are still to count. `Tally` has all of
these, and every small step keeps the two sides even (`balance_op`). Between two calls nothing is
under way (`Did`).
-/

namespace LlmServe

open Infra Point

variable {σ : Type} {env : Env σ} {cfg : EngineConfig} {adm : Point σ → Ref → Prop} {m : Manager}
  {p p' : Point σ} {s s' : Scheduler σ}

/-! ## Sums over the requests -/

/-- What the counters know of a request. -/
def Request.work (q : Request) : List Token × Nat := (q.outputTokenIds, q.preemptCount)

/-- `1` for a request that has a token. -/
def Request.started (q : Request) : Nat := if q.outputTokenIds = [] then 0 else 1

def Request.tokensOut (q : Request) : Nat := q.outputTokenIds.length

theorem started_le (q : Request) : q.started ≤ 1 := by
  unfold Request.started
  split <;> omega

theorem started_emit (q : Request) (now : Time) (tok : Token) : (q.emit now tok).started = 1 := by
  simp [Request.started]

theorem tokensOut_emit (q : Request) (now : Time) (tok : Token) :
    (q.emit now tok).tokensOut = q.tokensOut + 1 := by
  simp [Request.tokensOut]

theorem started_of_work {q q' : Request} (h : q'.work = q.work) : q'.started = q.started :=
  congrArg (fun x : List Token × Nat => if x.1 = [] then 0 else 1) h

theorem work_update {heap heap' : Ref → Request} {x : Ref} {q : Request}
    (h : heap' = Function.update heap x q) (hq : q.work = (heap x).work) (r : Ref) :
    (heap' r).work = (heap r).work := h ▸ apply_update Request.work hq r

/-- The sum of a field over all requests there are. -/
def Scheduler.total (s : Scheduler σ) (f : Request → Nat) : Nat :=
  ((List.range s.next).map fun r => f (s.heap r)).sum

theorem total_congr {f : Request → Nat} (hnext : s'.next = s.next)
    (h : ∀ r < s.next, f (s'.heap r) = f (s.heap r)) : s'.total f = s.total f := by
  unfold Scheduler.total
  rw [hnext]
  exact congrArg List.sum (List.map_congr_left fun r hr => h r (List.mem_range.mp hr))

/-- One request grows. -/
theorem total_update {f : Request → Nat} {x : Ref} {q : Request} {d : Nat}
    (hnext : s'.next = s.next) (hx : x < s.next) (hheap : s'.heap = Function.update s.heap x q)
    (hq : f q = f (s.heap x) + d) : s'.total f = s.total f + d := by
  have hin : ∀ r ∈ [x], f (s'.heap r) = f (s.heap r) + d := by
    intro r hr
    obtain rfl := List.mem_singleton.mp hr
    rw [hheap, Function.update_self, hq]
  have hout : ∀ r, r ∉ [x] → f (s'.heap r) = f (s.heap r) := by
    intro r hr
    rw [hheap, Function.update_of_ne fun he => hr (List.mem_singleton.mpr he)]
  unfold Scheduler.total
  rw [hnext, sum_map_add_of_mem (d := fun _ => d) List.nodup_range (List.nodup_singleton x)
    (fun r hr => List.mem_singleton.mp hr ▸ List.mem_range.mpr hx) hin hout]
  simp

theorem create_old {q : Request} {r : Ref} (hr : r < s.next) :
    (s.create q).heap r = s.heap r := Function.update_of_ne hr.ne ..

theorem total_create (s : Scheduler σ) (q : Request) (f : Request → Nat) :
    (s.create q).total f = s.total f + f q := by
  unfold Scheduler.total
  rw [show (s.create q).next = s.next + 1 from rfl, List.range_succ, List.map_append, List.sum_append]
  have hold : (List.range s.next).map (fun r => f ((s.create q).heap r)) =
      (List.range s.next).map fun r => f (s.heap r) :=
    List.map_congr_left fun r hr => by rw [create_old (List.mem_range.mp hr)]
  have hnew : (s.create q).heap s.next = q := Function.update_self ..
  simp [hold, hnew]

/-- The requests of a list that have a token, or have none yet. -/
def Scheduler.startedIn (s : Scheduler σ) (l : List Ref) : Nat :=
  (l.map fun r => (s.heap r).started).sum

def Scheduler.unstartedIn (s : Scheduler σ) (l : List Ref) : Nat :=
  (l.map fun r => 1 - (s.heap r).started).sum

theorem startedIn_congr {l : List Ref}
    (h : ∀ r ∈ l, (s'.heap r).started = (s.heap r).started) : s'.startedIn l = s.startedIn l :=
  congrArg List.sum (List.map_congr_left h)

theorem unstartedIn_congr {l : List Ref}
    (h : ∀ r ∈ l, (s'.heap r).started = (s.heap r).started) : s'.unstartedIn l = s.unstartedIn l :=
  congrArg List.sum (List.map_congr_left fun r hr => by rw [h r hr])

theorem startedIn_append (s : Scheduler σ) (l l' : List Ref) :
    s.startedIn (l ++ l') = s.startedIn l + s.startedIn l' := by
  simp [Scheduler.startedIn]

theorem unstartedIn_append (s : Scheduler σ) (l l' : List Ref) :
    s.unstartedIn (l ++ l') = s.unstartedIn l + s.unstartedIn l' := by
  simp [Scheduler.unstartedIn]

/-! ## Both sides of the books -/

namespace Owed

def prefilled : Owed → Nat
  | prefills n => n
  | recordStep _ => 0

def rows : Owed → Nat
  | prefills n | recordStep n => n

end Owed

structure Tally where
  admitCounter : Nat
  /-- Admitted and not counted as prefilled yet. -/
  prefilling : Nat
  prefills : Nat
  decodeSteps : Nat
  occupied : Nat
  preemptions : Nat
  /-- Rows of a forward pass that are not counted yet. -/
  uncounted : Nat
  /-- Tokens that `_emit` has not seen yet. -/
  due : Nat
  tokens : Nat
  preempted : Nat
  started : Nat
  /-- The requests of `waiting` that an eviction sent back there. -/
  requeued : Nat
  /-- Admitted for the first time, without a token yet. -/
  unstarted : Nat

def Point.tally (p : Point σ) : Tally where
  admitCounter := p.sched.admitCounter
  prefilling := p.popped.length + (p.owed.map Owed.prefilled).sum
  prefills := p.sched.metrics.prefills
  decodeSteps := p.sched.metrics.steps
  occupied := p.sched.metrics.occupiedSlotSteps
  preemptions := p.sched.metrics.preemptions
  uncounted := (p.owed.map Owed.rows).sum
  due := p.due.length
  tokens := p.sched.total Request.tokensOut
  preempted := p.sched.total Request.preemptCount
  started := p.sched.total Request.started
  requeued := p.sched.startedIn p.sched.waiting
  unstarted := p.sched.unstartedIn (p.popped ++ p.dueRefs)

/-- What was counted is what the requests got, up to what is under way. -/
structure Balance (cfg : EngineConfig) (t t' : Tally) : Prop where
  admitCounter : t.admitCounter ≤ t'.admitCounter
  decodeSteps : t.decodeSteps ≤ t'.decodeSteps
  occupied : t.occupied ≤ t'.occupied
  preemptions : t.preemptions ≤ t'.preemptions
  prefills : t'.prefills + t'.prefilling + t.admitCounter =
    t.prefills + t.prefilling + t'.admitCounter
  tokens : t'.tokens + t'.due + (t.prefills + t.occupied + t.uncounted) =
    t.tokens + t.due + (t'.prefills + t'.occupied + t'.uncounted)
  preempted : t'.preempted + t.preemptions = t.preempted + t'.preemptions
  recomputed : t'.admitCounter + t'.requeued + (t.preempted + t.started + t.unstarted) ≤
    t.admitCounter + t.requeued + (t'.preempted + t'.started + t'.unstarted)
  busy : t'.decodeSteps + t.occupied ≤ t.decodeSteps + t'.occupied
  room : t'.occupied + t.decodeSteps * cfg.maxBatch ≤ t.occupied + t'.decodeSteps * cfg.maxBatch

namespace Balance

variable {t t₁ t' : Tally}

theorem refl (cfg : EngineConfig) (t : Tally) : Balance cfg t t := by
  constructor <;> omega

theorem trans (h : Balance cfg t t₁) (h' : Balance cfg t₁ t') : Balance cfg t t' where
  admitCounter := h.admitCounter.trans h'.admitCounter
  decodeSteps := h.decodeSteps.trans h'.decodeSteps
  occupied := h.occupied.trans h'.occupied
  preemptions := h.preemptions.trans h'.preemptions
  prefills := by
    have h1 := h.prefills
    have h2 := h'.prefills
    omega
  tokens := by
    have h1 := h.tokens
    have h2 := h'.tokens
    omega
  preempted := by
    have h1 := h.preempted
    have h2 := h'.preempted
    omega
  recomputed := by
    have h1 := h.recomputed
    have h2 := h'.recomputed
    omega
  busy := by
    have h1 := h.busy
    have h2 := h'.busy
    omega
  room := by
    have h1 := h.room
    have h2 := h'.room
    omega

theorem of_eq (h : t' = t) : Balance cfg t t' := h ▸ refl cfg t

theorem of_tally (h : t₁ = t') (hb : Balance cfg t t') : Balance cfg t t₁ := h ▸ hb

/-- Only the queue changes, and no evicted request joins it. -/
theorem of_queue {k : Nat} (h : t' = { t with requeued := k }) (hk : k ≤ t.requeued) :
    Balance cfg t t' := by
  subst h
  constructor <;> dsimp only <;> omega

end Balance

/-! ## What the small steps add -/

/-- The counters that are compared with the requests. -/
def EngineMetrics.counted (met : EngineMetrics) : Nat × Nat × Nat × Nat :=
  (met.prefills, met.steps, met.occupiedSlotSteps, met.preemptions)

/-- A small step that counts nothing and gives no token. -/
theorem tally_queue (hnext : p'.sched.next = p.sched.next)
    (hcounter : p'.sched.admitCounter = p.sched.admitCounter) (hpopped : p'.popped = p.popped)
    (hdue : p'.due = p.due) (howed : p'.owed = p.owed)
    (hmet : p'.sched.metrics.counted = p.sched.metrics.counted)
    (hwork : ∀ r, (p'.sched.heap r).work = (p.sched.heap r).work) :
    p'.tally = { p.tally with requeued := p.sched.startedIn p'.sched.waiting } := by
  obtain ⟨hprefills, hsteps, hoccupied, hpreemptions⟩ :
      p'.sched.metrics.prefills = p.sched.metrics.prefills ∧
        p'.sched.metrics.steps = p.sched.metrics.steps ∧
        p'.sched.metrics.occupiedSlotSteps = p.sched.metrics.occupiedSlotSteps ∧
        p'.sched.metrics.preemptions = p.sched.metrics.preemptions := by
    simpa [EngineMetrics.counted] using hmet
  have hstarted : ∀ r, (p'.sched.heap r).started = (p.sched.heap r).started := fun r =>
    started_of_work (hwork r)
  have htokens : p'.sched.total Request.tokensOut = p.sched.total Request.tokensOut :=
    total_congr hnext fun r _ => congrArg (fun x : List Token × Nat => x.1.length) (hwork r)
  have hpreempted : p'.sched.total Request.preemptCount = p.sched.total Request.preemptCount :=
    total_congr hnext fun r _ => congrArg Prod.snd (hwork r)
  unfold tally dueRefs
  rw [hcounter, hpopped, howed, hprefills, hsteps, hoccupied, hpreemptions, hdue, htokens, hpreempted,
    total_congr hnext fun r _ => hstarted r, startedIn_congr fun r _ => hstarted r,
    unstartedIn_congr fun r _ => hstarted r]

theorem tally_eq (hnext : p'.sched.next = p.sched.next)
    (hcounter : p'.sched.admitCounter = p.sched.admitCounter) (hpopped : p'.popped = p.popped)
    (hdue : p'.due = p.due) (howed : p'.owed = p.owed)
    (hmet : p'.sched.metrics.counted = p.sched.metrics.counted)
    (hwork : ∀ r, (p'.sched.heap r).work = (p.sched.heap r).work)
    (hwaiting : p'.sched.waiting = p.sched.waiting) : p'.tally = p.tally := by
  rw [tally_queue hnext hcounter hpopped hdue howed hmet hwork, hwaiting]
  rfl

/-- The same for a step that writes to one request. -/
theorem Scheduler.Touches.tally {x : Ref} {q : Request} (h : p.sched.Touches s' x q)
    (hmet : s'.metrics.counted = p.sched.metrics.counted) (hq : q.work = (p.sched.heap x).work) :
    ({ p with sched := s' } : Point σ).tally = p.tally :=
  tally_eq h.next h.admitCounter rfl rfl rfl hmet (work_update h.heap hq) h.waiting

/-- The forward passes that are still to count have at most `max_batch` rows. -/
def Point.RowsFit (cfg : EngineConfig) (p : Point σ) : Prop :=
  ∀ n, Owed.recordStep n ∈ p.owed → n ≤ cfg.maxBatch

theorem rowsFit_op (hgood : Good cfg m p) (hop : Op env cfg adm p p') (h : p.RowsFit cfg) :
    p'.RowsFit cfg := by
  cases hop with
  | step hop =>
    cases hop with
    | prefill s' batch rest nxt hbatch hdue hp hf =>
      intro n hn
      rcases List.mem_append.mp hn with hn | hn
      · exact h n hn
      · cases List.mem_singleton.mp hn
    | decode s' batch rows nxt hidle hnd hrun hfin hcov hrows hf =>
      intro n hn
      rcases List.mem_append.mp hn with hn | hn
      · exact h n hn
      · cases List.mem_singleton.mp hn
        have hroom := hgood.placed.room
        rw [hidle.held] at hroom
        exact (hnd.subperm hrun).length_le.trans hroom
    | count met owed hcount =>
      cases hcount with
      | line line hline => exact h
      | prefills k owed howed => exact fun n hn => h n (howed ▸ List.mem_cons_of_mem _ hn)
      | recordStep k owed met howed hk hrec =>
        exact fun n hn => h n (howed ▸ List.mem_cons_of_mem _ hn)
    | _ => exact h
  | _ => exact h

/-- The engine thread counts a forward pass. -/
theorem count_balance {met : EngineMetrics} {owed : List Owed} (hfit : p.RowsFit cfg)
    (h : Counts env p met owed) : Balance cfg p.tally
      ({ p with sched := { p.sched with metrics := met }, owed } : Point σ).tally := by
  cases h with
  | line line hline =>
    have hcounted : (p.sched.metrics.write line).counted = p.sched.metrics.counted := by
      cases line <;> first | exact hline.elim | rfl
    exact .of_eq (tally_eq rfl rfl rfl rfl rfl hcounted (fun _ => rfl) rfl)
  | prefills n owed howed =>
    have hprefilling : p.tally.prefilling =
        p.popped.length + (owed.map Owed.prefilled).sum + n := by
      simp [tally, howed, Owed.prefilled, Nat.add_comm, Nat.add_left_comm]
    have huncounted : p.tally.uncounted = (owed.map Owed.rows).sum + n := by
      simp [tally, howed, Owed.rows, Nat.add_comm]
    refine .of_tally (show _ = { p.tally with
      prefills := p.tally.prefills + n
      prefilling := p.popped.length + (owed.map Owed.prefilled).sum
      uncounted := (owed.map Owed.rows).sum } from rfl) ?_
    constructor <;> dsimp only <;> omega
  | recordStep n owed met howed hn hrec =>
    obtain rfl : met = _ := Scheduler.recordStep_ok hrec
    have hmax : n ≤ cfg.maxBatch := hfit n (howed ▸ List.mem_cons_self)
    have hprefilling : p.tally.prefilling = p.popped.length + (owed.map Owed.prefilled).sum := by
      simp [tally, howed, Owed.prefilled]
    have huncounted : p.tally.uncounted = (owed.map Owed.rows).sum + n := by
      simp [tally, howed, Owed.rows, Nat.add_comm]
    have hroom := Nat.add_mul p.tally.decodeSteps 1 cfg.maxBatch
    refine .of_tally (show _ = { p.tally with
      decodeSteps := p.tally.decodeSteps + 1
      occupied := p.tally.occupied + n
      prefilling := p.popped.length + (owed.map Owed.prefilled).sum
      uncounted := (owed.map Owed.rows).sum } from rfl) ?_
    constructor <;> dsimp only <;> omega

/-- `_emit` gives a due row its token. -/
theorem emit_balance (hgood : Good cfg m p) {r : Ref} {tok : Token} {due : List (Ref × Token)}
    (hdue : p.due = (r, tok) :: due) : Balance cfg p.tally
      ({ p with sched := p.sched.emit env r tok, due } : Point σ).tally := by
  obtain ⟨now, he⟩ := Scheduler.emit_ok env p.sched r tok
  have hdueRef : r ∈ p.dueRefs := by simp [dueRefs, hdue]
  have hheld := hgood.placed.due_mem_held hdueRef
  have hlt := hgood.placed.lt_next r (mem_placed_of_held hheld)
  have hother : ∀ x, x ≠ r → ((p.sched.emit env r tok).heap x).started = (p.sched.heap x).started :=
    fun x hx => by rw [he.heap, Function.update_of_ne hx]
  have htokens := total_update (f := Request.tokensOut) he.next hlt he.heap (tokensOut_emit ..)
  have hpreempted := total_update (f := Request.preemptCount) (d := 0) he.next hlt he.heap
    (Request.emit_preemptCount ..)
  have hle := started_le (p.sched.heap r)
  have hstarted := total_update (f := Request.started) (d := 1 - (p.sched.heap r).started) he.next
    hlt he.heap (by rw [started_emit]; omega)
  have hqueue : (p.sched.emit env r tok).startedIn p.sched.waiting =
      p.sched.startedIn p.sched.waiting := startedIn_congr fun x hx =>
    hother x fun hxr => hgood.placed.notMem_waiting_of_held hheld (hxr ▸ hx)
  -- `r` is in none of the other lists
  have hnd : r ∉ p.popped ++ due.map Prod.fst := by
    have hrows := hgood.placed.due_mem r hdueRef
    have hheldNodup := hgood.placed.held_nodup
    unfold held at hheldNodup
    rw [List.append_assoc] at hheldNodup
    have hdueNodup := hgood.placed.due_nodup
    rw [dueRefs, hdue] at hdueNodup
    intro hmem
    rcases List.mem_append.mp hmem with hmem | hmem
    · exact (List.nodup_append.mp hheldNodup).2.2 r hmem r hrows rfl
    · exact (List.nodup_cons.mp hdueNodup).1 hmem
  have hrest : (p.sched.emit env r tok).unstartedIn (p.popped ++ due.map Prod.fst) =
      p.sched.unstartedIn (p.popped ++ due.map Prod.fst) := unstartedIn_congr fun x hx =>
    hother x fun hxr => hnd (hxr ▸ hx)
  have hunstarted : p.sched.unstartedIn (p.popped ++ p.dueRefs) =
      p.sched.unstartedIn (p.popped ++ due.map Prod.fst) + (1 - (p.sched.heap r).started) := by
    simp only [dueRefs, hdue, List.map_cons, unstartedIn_append]
    simp only [Scheduler.unstartedIn, List.map_cons, List.sum_cons]
    omega
  refine .of_tally (show _ = { p.tally with
    due := due.length
    tokens := p.tally.tokens + 1
    started := p.tally.started + (1 - (p.sched.heap r).started)
    unstarted := p.sched.unstartedIn (p.popped ++ due.map Prod.fst) } from ?_) ?_
  · simp only [tally, dueRefs, he.admitCounter, he.waiting, Scheduler.emit_metrics, htokens,
      hpreempted, hstarted, hqueue, hrest, Nat.add_zero]
  · have hlen : p.tally.due = due.length + 1 := congrArg List.length hdue
    have hunstarted : p.tally.unstarted = _ := hunstarted
    constructor <;> dsimp only <;> omega

theorem zip_length {batch : List Ref} {nxt : List Token} (h : nxt.length = batch.length) :
    (batch.zip nxt).length = batch.length := by
  rw [List.length_zip, h, Nat.min_self]

/-- A forward pass: its tokens are due, and it is still to count. -/
theorem prefill_balance {batch rest : List Ref} {nxt : List Token} (hdue : p.due = [])
    (hp : p.popped = batch ++ rest)
    (hf : p.sched.stepTokens env (batch.map p.sched.prefillRow) = .ok (nxt, s')) :
    Balance cfg p.tally
      ({ p with sched := s', popped := rest, batch, due := batch.zip nxt
                owed := p.owed ++ [.prefills batch.length] } : Point σ).tally := by
  obtain ⟨w, hw, rfl⟩ := Scheduler.stepTokens_ok hf
  have hlen : nxt.length = batch.length := by simpa using env.stepTokens_length hw
  have hprefilling : p.tally.prefilling =
      batch.length + rest.length + (p.owed.map Owed.prefilled).sum := by
    simp [tally, hp]
  have hdue0 : p.tally.due = 0 := by simp [tally, hdue]
  have hunstarted : p.tally.unstarted = p.sched.unstartedIn rest + p.sched.unstartedIn batch := by
    simp [tally, dueRefs, hdue, hp, unstartedIn_append, Nat.add_comm]
  refine .of_tally (show _ = { p.tally with
    prefilling := rest.length + ((p.owed.map Owed.prefilled).sum + batch.length)
    uncounted := p.tally.uncounted + batch.length
    due := batch.length
    unstarted := p.sched.unstartedIn rest + p.sched.unstartedIn batch } from ?_) ?_
  · rw [← unstartedIn_append]
    simp only [tally, dueRefs, List.map_fst_zip hlen.ge, zip_length hlen, List.map_append,
      List.sum_append, List.map_cons, List.map_nil, List.sum_singleton, Owed.prefilled, Owed.rows]
    rfl
  · constructor <;> dsimp only <;> omega

theorem decode_balance {batch : List Ref} {rows : List Row} {nxt : List Token} (hidle : p.Idle)
    (hrows : batch.mapM p.sched.decodeRow = .ok rows)
    (hf : p.sched.stepTokens env rows = .ok (nxt, s')) :
    Balance cfg p.tally
      ({ p with sched := s', due := batch.zip nxt
                owed := p.owed ++ [.recordStep batch.length] } : Point σ).tally := by
  obtain ⟨w, hw, rfl⟩ := Scheduler.stepTokens_ok hf
  have hlen : nxt.length = batch.length := by
    rw [env.stepTokens_length hw]
    exact (forall₂_of_mapM_ok hrows).length_eq.symm
  have hdue0 : p.tally.due = 0 := by simp [tally, hidle.2.2]
  have hunstarted : p.tally.unstarted = 0 := by
    simp [tally, dueRefs, hidle.1, hidle.2.2, Scheduler.unstartedIn]
  refine .of_tally (show _ = { p.tally with
    uncounted := p.tally.uncounted + batch.length
    due := batch.length
    unstarted := p.sched.unstartedIn batch } from ?_) ?_
  · simp only [tally, dueRefs, hidle.1, List.map_fst_zip hlen.ge, zip_length hlen, List.map_append,
      List.sum_append, List.map_cons, List.map_nil, List.sum_singleton, Owed.prefilled, Owed.rows]
    rfl
  · constructor <;> dsimp only <;> omega

/-- The head of the queue gets a number. -/
theorem admitHead_balance {r : Ref} {tail : List Ref} (hdue : p.due = [])
    (hw : p.sched.waiting = r :: tail) (h : { p.sched with waiting := tail }.allocate r = .ok s') :
    Balance cfg p.tally
      ({ p with sched := s'.stampAdmit r, popped := p.popped ++ [r] } : Point σ).tally := by
  obtain ⟨q, hq⟩ := Scheduler.stampAdmit_admitted h
  obtain ⟨blocks, rfl, -⟩ := Manager.allocate_ok hq.allocate
  have hmet : (s'.stampAdmit r).metrics = p.sched.metrics := by
    have hmet := Scheduler.allocate_metrics h
    exact hmet
  have hwork : ∀ x, ((s'.stampAdmit r).heap x).work = (p.sched.heap x).work :=
    work_update hq.heap rfl
  have hstarted : ∀ x, ((s'.stampAdmit r).heap x).started = (p.sched.heap x).started := fun x =>
    started_of_work (hwork x)
  have hrequeued : p.tally.requeued = (p.sched.heap r).started + p.sched.startedIn tail := by
    simp [tally, hw, Scheduler.startedIn]
  have hprefilling : p.tally.prefilling = p.popped.length + (p.owed.map Owed.prefilled).sum := rfl
  have hle := started_le (p.sched.heap r)
  refine .of_tally (show _ = { p.tally with
    admitCounter := p.tally.admitCounter + 1
    prefilling := p.popped.length + 1 + (p.owed.map Owed.prefilled).sum
    requeued := p.sched.startedIn tail
    unstarted := p.tally.unstarted + (1 - (p.sched.heap r).started) } from ?_) ?_
  · have hunstarted : (s'.stampAdmit r).unstartedIn (p.popped ++ [r] ++ p.dueRefs) =
        p.sched.unstartedIn (p.popped ++ p.dueRefs) + (1 - (p.sched.heap r).started) := by
      rw [unstartedIn_congr fun x _ => hstarted x]
      simp [dueRefs, hdue, Scheduler.unstartedIn]
    have htokens := total_congr (f := Request.tokensOut) hq.next fun x _ =>
      congrArg (fun y : List Token × Nat => y.1.length) (hwork x)
    have hpreempted := total_congr (f := Request.preemptCount) hq.next fun x _ =>
      congrArg Prod.snd (hwork x)
    have htotal := total_congr (f := Request.started) hq.next fun x _ => hstarted x
    have htail : (s'.stampAdmit r).startedIn tail = p.sched.startedIn tail :=
      startedIn_congr fun x _ => hstarted x
    simp only [tally, hmet, hq.admitCounter, hq.waiting, htokens, hpreempted, htotal, htail,
      List.length_append, List.length_singleton]
    exact congrArg _ hunstarted
  · constructor <;> dsimp only <;> omega

theorem recordRequest_counted {met met' : EngineMetrics} {q : Request}
    (h : met.recordRequest q = .ok met') : met'.counted = met.counted := by
  obtain ⟨r, -, he⟩ := exists_of_bind_ok h
  cases he
  rfl

/-- An evicted request waits again, and is counted. -/
theorem preempt_balance (hgood : Good cfg m p) {r : Ref}
    (hr : r ∈ p.sched.running) (h : p.sched.preempt r = .ok s') :
    Balance cfg p.tally ({ p with sched := s' } : Point σ).tally := by
  obtain ⟨q, hq⟩ := Scheduler.preempt_ok h
  obtain ⟨rfl, -⟩ := Manager.free_ok hq.free
  have hlt := hgood.placed.lt_next r (mem_placed_of_held (mem_held_of_running hr))
  have htokens := total_update (f := Request.tokensOut) (d := 0) hq.next hlt hq.heap rfl
  have hpreempted := total_update (f := Request.preemptCount) hq.next hlt hq.heap rfl
  have htotal := total_update (f := Request.started) (d := 0) hq.next hlt hq.heap rfl
  have hstarted : ∀ x, (s'.heap x).started = (p.sched.heap x).started := fun x => by
    rw [hq.heap]
    exact apply_update Request.started (by rfl) x
  have hrequeued : s'.startedIn (p.sched.waiting ++ [r]) =
      p.sched.startedIn p.sched.waiting + (p.sched.heap r).started := by
    rw [startedIn_congr fun x _ => hstarted x, startedIn_append]
    simp [Scheduler.startedIn]
  have hunstarted : s'.unstartedIn (p.popped ++ p.dueRefs) =
      p.sched.unstartedIn (p.popped ++ p.dueRefs) := unstartedIn_congr fun x _ => hstarted x
  have hle := started_le (p.sched.heap r)
  refine .of_tally (show _ = { p.tally with
    preemptions := p.tally.preemptions + 1
    preempted := p.tally.preempted + 1
    requeued := p.tally.requeued + (p.sched.heap r).started } from ?_) ?_
  · simp only [tally, Scheduler.preempt_metrics h, hq.admitCounter, hq.waiting, htokens, hpreempted, htotal,
      hrequeued, Nat.add_zero]
    exact congrArg _ hunstarted
  · constructor <;> dsimp only <;> omega

/-- A request built by a client has no tokens and was never evicted. -/
theorem create_tally (hgood : Good cfg m p) (n : NewRequest) {inbox : List Ref} :
    ({ p with sched := p.sched.create n.toRequest, inbox } : Point σ).tally = p.tally := by
  have hold : ∀ x ∈ p.placed, ((p.sched.create n.toRequest).heap x).started =
      (p.sched.heap x).started := fun x hx => by rw [create_old (hgood.placed.lt_next x hx)]
  have hqueue : (p.sched.create n.toRequest).startedIn p.sched.waiting =
      p.sched.startedIn p.sched.waiting :=
    startedIn_congr fun x hx => hold x (mem_placed_of_waiting hx)
  have hunstarted : (p.sched.create n.toRequest).unstartedIn (p.popped ++ p.dueRefs) =
      p.sched.unstartedIn (p.popped ++ p.dueRefs) := unstartedIn_congr fun x hx =>
    hold x <| mem_placed_of_held <| (List.mem_append.mp hx).elim mem_held_of_popped
      hgood.placed.due_mem_held
  have htokens : (p.sched.create n.toRequest).total Request.tokensOut =
      p.sched.total Request.tokensOut := total_create ..
  have hpreempted : (p.sched.create n.toRequest).total Request.preemptCount =
      p.sched.total Request.preemptCount := total_create ..
  have hstarted : (p.sched.create n.toRequest).total Request.started =
      p.sched.total Request.started := total_create ..
  simp only [tally, htokens, hpreempted, hstarted]
  exact congrArg₂ _ hqueue hunstarted

/-! ## Runs -/

/-- **Every small step keeps the books even.** -/
theorem balance_op (hgood : Good cfg m p) (hfit : p.RowsFit cfg) (hop : Op env cfg adm p p') :
    Balance cfg p.tally p'.tally := by
  cases hop with
  | cancel x hx => exact .of_eq ((Scheduler.touches_modify ..).tally rfl rfl)
  | create n => exact .of_eq (create_tally hgood n)
  | submit pre post x hidle hin =>
    have hx : x ∈ p.inbox := by simp [hin]
    have hnil : (p.sched.heap x).outputTokenIds = [] :=
      (hgood.facts x).ending.unsubmitted (Or.inr (phase_inbox hx))
    have hqueue : p.sched.startedIn (p.sched.waiting ++ [x]) = p.sched.startedIn p.sched.waiting := by
      rw [startedIn_append]
      simp [Scheduler.startedIn, Request.started, hnil]
    exact .of_queue (tally_queue rfl rfl rfl rfl rfl rfl (work_update rfl rfl)) hqueue.le
  | step hop =>
    cases hop with
    | dropCancelled hidle =>
      refine .of_queue (tally_queue rfl rfl rfl rfl rfl rfl fun _ => rfl) ?_
      exact (List.filter_sublist.map _).sum_le_sum fun _ _ => Nat.zero_le _
    | markCancelled x hidle hx =>
      rcases Scheduler.markCancelled_cases env p.sched x with he | ⟨-, -, -, now, ht⟩
      · rw [he]
        exact .refl cfg _
      · exact .of_eq (ht.tally (by rw [Scheduler.markCancelled_metrics]) rfl)
    | leave s' pre post x hidle hx hfin hl =>
      obtain ⟨hheap, hbooks⟩ := Scheduler.leave_books hl hfin
      obtain ⟨q, -, ht⟩ := Scheduler.leave_ok hl
      have hcounted : s'.metrics.counted = p.sched.metrics.counted := by
        rcases hbooks with ⟨-, hmet⟩ | ⟨-, hmet⟩
        · exact recordRequest_counted hmet
        · rw [hmet]
      exact .of_eq (tally_eq ht.next ht.admitCounter rfl rfl rfl hcounted (work_update hheap rfl)
        ht.waiting)
    | sort hidle =>
      refine .of_queue (tally_queue rfl rfl rfl rfl rfl rfl fun _ => rfl) (le_of_eq ?_)
      exact ((sortKey_perm _ _).map _).sum_eq
    | admitHead s' x tail hbatch hdue hw hsorted hroom hcan hadm ha =>
      exact admitHead_balance hdue hw ha
    | prefill s' batch rest nxt hbatch hdue hp hf => exact prefill_balance hdue hp hf
    | setRunning x hx => exact .of_eq ((Scheduler.touches_modify ..).tally rfl rfl)
    | emit x tok due hdue => exact emit_balance hgood hdue
    | join hdue => exact .of_eq (tally_eq rfl rfl rfl rfl rfl rfl (fun _ => rfl) rfl)
    | grow x hidle hx hfin =>
      obtain ⟨blocks, hq, -⟩ := p.sched.manager.appendSlot_spec (p.sched.heap x)
      exact .of_eq ((p.sched.appendSlot_touches x).2.tally rfl (by rw [hq]; rfl))
    | preempt s' x hidle hx hfin hpre hpr => exact preempt_balance hgood hx hpr
    | decode s' batch rows nxt hidle hnd hrun hfin hcov hrows hf =>
      exact decode_balance hidle hrows hf
    | clock => exact .of_eq (tally_eq rfl rfl rfl rfl rfl rfl (fun _ => rfl) rfl)
    | count met owed hcount => exact count_balance hfit hcount

theorem balance_ops (hgood : Good cfg m p) (hfit : p.RowsFit cfg) (hops : Ops env cfg adm p p') :
    Balance cfg p.tally p'.tally := by
  have hstep : ∀ x y, Op env cfg adm x y →
      Good cfg m x ∧ x.RowsFit cfg ∧ Balance cfg p.tally x.tally →
      Good cfg m y ∧ y.RowsFit cfg ∧ Balance cfg p.tally y.tally := by
    rintro x y hop ⟨hx, hxfit, hbal⟩
    exact ⟨hx.op hop, rowsFit_op hx hop hxfit, hbal.trans (balance_op hx hxfit hop)⟩
  exact (reach_invariant hstep hops ⟨hgood, hfit, .refl cfg _⟩).2.2

/-! ## Between two calls of `step` -/

/-- Between `s` and `s'` the scheduler admitted `admitted` requests, decoded `rows` rows in `steps`
steps and evicted `evicted` requests: this is what it counted and what the requests got. -/
structure Did (cfg : EngineConfig) (s s' : Scheduler σ) (admitted steps rows evicted : Nat) :
    Prop where
  admitCounter : s'.admitCounter = s.admitCounter + admitted
  prefills : s'.metrics.prefills = s.metrics.prefills + admitted
  decodeSteps : s'.metrics.steps = s.metrics.steps + steps
  occupied : s'.metrics.occupiedSlotSteps = s.metrics.occupiedSlotSteps + rows
  preemptions : s'.metrics.preemptions = s.metrics.preemptions + evicted
  /-- Every token comes from a prefill or from a row of a decode step, and each gives one. -/
  tokens : s'.total Request.tokensOut = s.total Request.tokensOut + admitted + rows
  preempted : s'.total Request.preemptCount = s.total Request.preemptCount + evicted
  /-- Whoever is admitted again was evicted before. -/
  recomputed : admitted + s.total Request.started + s'.startedIn s'.waiting ≤
    evicted + s'.total Request.started + s.startedIn s.waiting
  busy : steps ≤ rows
  room : rows ≤ steps * cfg.maxBatch

/-- At rest nothing is under way. -/
theorem Balance.did {inbox inbox' : List Ref}
    (h : Balance cfg (rest s inbox).tally (rest s' inbox').tally) :
    ∃ admitted steps rows evicted, Did cfg s s' admitted steps rows evicted := by
  obtain ⟨admitted, hadmitted⟩ := Nat.exists_eq_add_of_le h.admitCounter
  obtain ⟨steps, hsteps⟩ := Nat.exists_eq_add_of_le h.decodeSteps
  obtain ⟨rows, hrows⟩ := Nat.exists_eq_add_of_le h.occupied
  obtain ⟨evicted, hevicted⟩ := Nat.exists_eq_add_of_le h.preemptions
  obtain ⟨-, -, -, -, hprefills, htokens, hpreempted, hrecomputed, hbusy, hroom⟩ := h
  simp only [tally, rest, dueRefs, List.map_nil, List.append_nil, List.length_nil, List.sum_nil,
    Scheduler.unstartedIn, Nat.add_zero] at *
  rw [hsteps, Nat.add_mul] at hroom
  exact ⟨admitted, steps, rows, evicted, hadmitted, by omega, hsteps, hrows, hevicted, by omega,
    by omega, by omega, by omega, by omega⟩

end LlmServe
