import LlmServe.Properties.Placement

/-!
# The life of one request

The abstract model of what the scheduler does for a single request: `Move` is a machine whose
state is the phase the request is in, its fields, and what an observer saw of it.

```
absent → inbox → waiting → popped → batch → running → gone
                    ↑  ↘ gone                  │
                    └──────── evicted ─────────┘
```

`op_move` is the refinement: under `Placed`, every small step of the scheduler is, for every
request, a move of this machine. What is local to one request is proved about `Move`, where no
list and no other request is in sight.
-/

namespace LlmServe

open Infra Point

inductive Phase where
  /-- Not built yet. -/
  | absent
  | inbox
  | waiting
  /-- Admitted, not in a prefill yet. -/
  | popped
  /-- In the prefill that is running. -/
  | batch
  | running
  | gone
  deriving DecidableEq

/-- One request as an observer sees it. -/
structure View where
  phase : Phase
  /-- The last forward pass had a row for it and `_emit` has not seen the token yet. -/
  due : Bool
  req : Request
  log : List Event

/-- The request an event is about. -/
def Event.ref : Event → Ref
  | .fed r _ _ => r
  | .sink r _ _ => r
  | .emitted r _ => r

@[simp] theorem Row.fed_ref (row : Row) : row.fed.ref = row.req := rfl

/-- The events that `_emit` adds, given the request it leaves. -/
def emitEvents (r : Ref) (tok : Token) (q : Request) : List Event :=
  (if q.sink.isSome then [.sink r tok q.finished] else []) ++ [.emitted r q.outputTokenIds]

/-- `Scheduler.submit`. -/
def Request.submitted (q : Request) : Request :=
  { q with
    maxNewTokens := min q.maxNewTokens (maxContext - q.promptTokenIds.length)
    state := .waiting }

/-- One move of request `r`; `m` is an allocator of the shape the engine has. -/
inductive Move (cfg : EngineConfig) (m : Manager) (r : Ref) : View → View → Prop where
  | stay (v : View) : Move cfg m r v v
  | cancel (v : View) : Move cfg m r v { v with req := { v.req with cancelled := true } }
  | create (v : View) (n : NewRequest) (hphase : v.phase = .absent) :
      Move cfg m r v { v with phase := .inbox, req := n.toRequest }
  | submit (v : View) (hphase : v.phase = .inbox) :
      Move cfg m r v { v with phase := .waiting, req := v.req.submitted }
  | drop (v : View) (hphase : v.phase = .waiting) (hc : v.req.cancelled = true) :
      Move cfg m r v { v with phase := .gone }
  | abort (v : View) (now : Time) (hphase : v.phase = .running) (hdue : v.due = false)
      (hc : v.req.cancelled = true) (hopen : v.req.finishReason = none) :
      Move cfg m r v
        { v with req :=
          { v.req with finishReason := some .cancelled, finishTime := some now } }
  | leave (v : View) (hphase : v.phase = .running) (hdue : v.due = false)
      (hfin : v.req.finishReason ≠ none) :
      Move cfg m r v
        { v with phase := .gone, req := { v.req with state := .finished, blockTable := [] } }
  | admitHead (v : View) (blocks : List Nat) (seq : Nat) (hphase : v.phase = .waiting)
      (hlen : (blocks.length : Int) = m.unitsNeeded v.req.seqLen) :
      Move cfg m r v
        { v with phase := .popped, req := { v.req with blockTable := blocks, admitSeq := seq } }
  | prefill (v : View) (hphase : v.phase = .popped) (hdue : v.due = false) :
      Move cfg m r v
        { v with phase := .batch, due := true, log := v.log ++ [.fed r 0 v.req.tokens] }
  | setRunning (v : View) (hphase : v.phase = .batch) :
      Move cfg m r v { v with req := { v.req with state := .running } }
  | emit (v : View) (now : Time) (tok : Token) (hdue : v.due = true) :
      Move cfg m r v
        { v with due := false, req := v.req.emit now tok,
                 log := v.log ++ emitEvents r tok (v.req.emit now tok) }
  | join (v : View) (hphase : v.phase = .batch) (hdue : v.due = false) :
      Move cfg m r v { v with phase := .running }
  | grow (v : View) (blocks : List Nat) (hphase : v.phase = .running) (hdue : v.due = false)
      (hopen : v.req.finishReason = none) (hslot : m.paged = false → blocks = [])
      (hlen : blocks ≠ [] →
        ((v.req.blockTable ++ blocks).length : Int) ≤ m.unitsNeeded v.req.seqLen) :
      Move cfg m r v { v with req := { v.req with blockTable := v.req.blockTable ++ blocks } }
  | preempt (v : View) (hphase : v.phase = .running) (hdue : v.due = false)
      (hopen : v.req.finishReason = none) (hpre : cfg.preemption = true) :
      Move cfg m r v
        { v with phase := .waiting, req := { v.req with
            blockTable := [], state := .waiting, preemptCount := v.req.preemptCount + 1 } }
  | decode (v : View) (tok : Token) (hphase : v.phase = .running) (hdue : v.due = false)
      (hopen : v.req.finishReason = none) (hlast : v.req.outputTokenIds.getLast? = some tok)
      (hcov : m.paged = true → m.unitsNeeded v.req.seqLen ≤ v.req.blockTable.length) :
      Move cfg m r v { v with due := true, log := v.log ++ [.fed r (v.req.seqLen - 1) [tok]] }

abbrev Moves (cfg : EngineConfig) (m : Manager) (r : Ref) : View → View → Prop :=
  Relation.ReflTransGen (Move cfg m r)

/-! ## The view of a request in a point -/

variable {σ : Type} {env : Env σ} {cfg : EngineConfig} {adm : Point σ → Ref → Prop}

namespace Point

def phase (p : Point σ) (r : Ref) : Phase :=
  if r ∈ p.inbox then .inbox
  else if r ∈ p.sched.waiting then .waiting
  else if r ∈ p.popped then .popped
  else if r ∈ p.batch then .batch
  else if r ∈ p.sched.running then .running
  else if r < p.sched.next then .gone
  else .absent

/-- The events about `r`. -/
def log (s : Scheduler σ) (r : Ref) : List Event := s.trace.filter fun e => e.ref = r

def view (p : Point σ) (r : Ref) : View where
  phase := p.phase r
  due := decide (r ∈ p.dueRefs)
  req := p.sched.heap r
  log := log p.sched r

variable {p p' : Point σ} {r : Ref}

theorem phase_inbox (hr : r ∈ p.inbox) : p.phase r = .inbox := if_pos hr

theorem phase_waiting (h : Placed cfg p) (hr : r ∈ p.sched.waiting) : p.phase r = .waiting := by
  rw [phase, if_neg (h.notMem_inbox_of_waiting hr), if_pos hr]

theorem phase_popped (h : Placed cfg p) (hr : r ∈ p.popped) : p.phase r = .popped := by
  have hh := mem_held_of_popped hr
  rw [phase, if_neg (h.notMem_inbox_of_held hh), if_neg (h.notMem_waiting_of_held hh), if_pos hr]

theorem phase_batch (h : Placed cfg p) (hr : r ∈ p.batch) : p.phase r = .batch := by
  have hh := mem_held_of_batch hr
  have hpop : r ∉ p.popped := fun hm =>
    (List.nodup_append.mp h.held_nodup.of_append_left).2.2 r hm r hr rfl
  rw [phase, if_neg (h.notMem_inbox_of_held hh), if_neg (h.notMem_waiting_of_held hh),
    if_neg hpop, if_pos hr]

theorem phase_running (h : Placed cfg p) (hr : r ∈ p.sched.running) : p.phase r = .running := by
  have hh := mem_held_of_running hr
  have hloc : r ∉ p.popped ++ p.batch := fun hm =>
    (List.nodup_append.mp h.held_nodup).2.2 r hm r hr rfl
  rw [List.mem_append, not_or] at hloc
  rw [phase, if_neg (h.notMem_inbox_of_held hh), if_neg (h.notMem_waiting_of_held hh),
    if_neg hloc.1, if_neg hloc.2, if_pos hr]

theorem phase_gone (hr : r ∉ p.placed) (hlt : r < p.sched.next) : p.phase r = .gone := by
  simp only [placed, held, List.mem_append, not_or] at hr
  obtain ⟨⟨hin, hw⟩, ⟨hpop, hbat⟩, hrun⟩ := hr
  rw [phase, if_neg hin, if_neg hw, if_neg hpop, if_neg hbat, if_neg hrun, if_pos hlt]

theorem phase_absent (h : Placed cfg p) (hr : ¬r < p.sched.next) : p.phase r = .absent := by
  have hno : r ∉ p.placed := fun hm => hr (h.lt_next r hm)
  simp only [placed, held, List.mem_append, not_or] at hno
  obtain ⟨⟨hin, hw⟩, ⟨hpop, hbat⟩, hrun⟩ := hno
  rw [phase, if_neg hin, if_neg hw, if_neg hpop, if_neg hbat, if_neg hrun, if_neg hr]

/-- Where a request in each phase is found. -/
theorem mem_of_phase (p : Point σ) (r : Ref) : match p.phase r with
    | .inbox => r ∈ p.inbox
    | .waiting => r ∈ p.sched.waiting
    | .popped => r ∈ p.popped
    | .batch => r ∈ p.batch
    | .running => r ∈ p.sched.running
    | .gone => r < p.sched.next
    | .absent => ¬r < p.sched.next := by
  unfold phase
  split_ifs <;> assumption

theorem notMem_placed_of_gone (h : Placed cfg p) (hg : p.phase r = .gone) :
    r ∉ p.placed := by
  intro hmem
  simp only [placed, held, List.mem_append] at hmem
  rcases hmem with (hin | hw) | (hpop | hbat) | hrun
  · cases hg.symm.trans (phase_inbox hin)
  · cases hg.symm.trans (phase_waiting h hw)
  · cases hg.symm.trans (phase_popped h hpop)
  · cases hg.symm.trans (phase_batch h hbat)
  · cases hg.symm.trans (phase_running h hrun)

/-- A request that stays where it is. -/
theorem phase_congr (hin : r ∈ p'.inbox ↔ r ∈ p.inbox)
    (hw : r ∈ p'.sched.waiting ↔ r ∈ p.sched.waiting) (hpop : r ∈ p'.popped ↔ r ∈ p.popped)
    (hbat : r ∈ p'.batch ↔ r ∈ p.batch) (hrun : r ∈ p'.sched.running ↔ r ∈ p.sched.running)
    (hnext : r < p'.sched.next ↔ r < p.sched.next) : p'.phase r = p.phase r := by
  simp only [phase, hin, hw, hpop, hbat, hrun, hnext]

end Point

/-! ## Forward passes in the log -/

theorem filter_fed_notMem {rows : List Row} {r : Ref} (h : r ∉ rows.map Row.req) :
    ((rows.map Row.fed).filter fun e => e.ref = r) = [] := by
  rw [List.filter_eq_nil_iff]
  rintro e he
  obtain ⟨row, hrow, rfl⟩ := List.mem_map.mp he
  exact fun heq => h (of_decide_eq_true heq ▸ List.mem_map_of_mem hrow)

theorem filter_fed_mem : ∀ {rows : List Row} {row : Row}, (rows.map Row.req).Nodup → row ∈ rows →
    ((rows.map Row.fed).filter fun e => e.ref = row.req) = [row.fed]
  | [], _, _, hrow => by cases hrow
  | x :: rows, row, hnd, hrow => by
    obtain ⟨hx, hnd⟩ := List.nodup_cons.mp hnd
    rw [List.map_cons]
    rcases List.mem_cons.mp hrow with rfl | hrow
    · rw [List.filter_cons_of_pos (by simp), filter_fed_notMem hx]
    · have hne : x.req ≠ row.req := fun he => hx (he ▸ List.mem_map_of_mem hrow)
      rw [List.filter_cons, Row.fed_ref, if_neg fun he => hne (of_decide_eq_true he),
        filter_fed_mem hnd hrow]

/-! ## The refinement -/

section

variable {p p' : Point σ} {m : Manager} {r : Ref}

theorem move_to {v : View} (hm : Move cfg m r (p.view r) v) (hphase : p'.phase r = v.phase)
    (hdue : decide (r ∈ p'.dueRefs) = v.due) (hreq : p'.sched.heap r = v.req)
    (hlog : log p'.sched r = v.log) : Move cfg m r (p.view r) (p'.view r) := by
  have hv : p'.view r = v := by
    unfold view
    rw [hphase, hdue, hreq, hlog]
  exact hv ▸ hm

theorem move_stay (hphase : p'.phase r = p.phase r) (hdue : r ∈ p'.dueRefs ↔ r ∈ p.dueRefs)
    (hreq : p'.sched.heap r = p.sched.heap r) (hlog : log p'.sched r = log p.sched r) :
    Move cfg m r (p.view r) (p'.view r) :=
  move_to (.stay _) hphase (decide_eq_decide.mpr hdue) hreq hlog

/-- An assignment to one object. -/
theorem move_touches {s' : Scheduler σ} {x : Ref} {q : Request} (ht : p.sched.Touches s' x q)
    (hm : r = x → Move cfg m r (p.view r) { p.view r with req := q }) :
    Move cfg m r (p.view r) (({ p with sched := s' } : Point σ).view r) := by
  have hphase : ({ p with sched := s' } : Point σ).phase r = p.phase r := by
    unfold phase
    simp only [ht.waiting, ht.running, ht.next]
  have hlog : log s' r = log p.sched r := by
    unfold log
    rw [ht.trace]
  by_cases hx : r = x
  · exact move_to (hm hx) hphase rfl (by rw [hx]; exact ht.self) hlog
  · exact move_stay hphase Iff.rfl (ht.other hx) hlog

end

theorem move_create {p : Point σ} {m : Manager} (h : Placed cfg p) (n : NewRequest) (r : Ref) :
    Move cfg m r (p.view r)
      (({ p with sched := p.sched.create n.toRequest,
                 inbox := p.inbox ++ [p.sched.next] } : Point σ).view r) := by
  by_cases hr : r = p.sched.next
  · subst hr
    have hphase : (p.view p.sched.next).phase = .absent := phase_absent h (Nat.lt_irrefl _)
    exact move_to (.create _ n hphase) (phase_inbox (by simp)) rfl (Function.update_self ..) rfl
  · refine move_stay (phase_congr (by simp [hr]) Iff.rfl Iff.rfl Iff.rfl Iff.rfl ?_) Iff.rfl
      (Function.update_of_ne hr ..) rfl
    show r < p.sched.next + 1 ↔ r < p.sched.next
    constructor
    · exact fun hlt => Nat.lt_of_le_of_ne (Nat.le_of_lt_succ hlt) hr
    · exact Nat.lt_succ_of_lt

theorem move_submit {p : Point σ} {m : Manager} (h : Placed cfg p) {pre post : List Ref} {x : Ref}
    (hin : p.inbox = pre ++ x :: post) (r : Ref) :
    Move cfg m r (p.view r)
      (({ p with sched := p.sched.submit x, inbox := pre ++ post } : Point σ).view r) := by
  have h' := h.submit hin
  by_cases hr : r = x
  · subst hr
    have hphase : (p.view r).phase = .inbox := phase_inbox (by simp [hin])
    exact move_to (.submit _ hphase) (phase_waiting h' (by simp [Scheduler.submit])) rfl
      (Function.update_self ..) rfl
  · refine move_stay (phase_congr ?_ ?_ Iff.rfl Iff.rfl Iff.rfl Iff.rfl) Iff.rfl
      (Function.update_of_ne hr ..) rfl
    · simp [hin, hr]
    · simp [Scheduler.submit, Scheduler.modify, hr]

theorem move_dropCancelled {p : Point σ} {m : Manager} (h : Placed cfg p) (r : Ref) :
    Move cfg m r (p.view r)
      (({ p with sched := { p.sched with
          waiting := p.sched.waiting.filter fun r => !(p.sched.heap r).cancelled } } :
        Point σ).view r) := by
  by_cases hr : r ∈ p.sched.waiting ∧ (p.sched.heap r).cancelled = true
  · have hphase : (p.view r).phase = .waiting := phase_waiting h hr.1
    refine move_to (.drop _ hphase hr.2) (phase_gone ?_ (h.lt_next r (mem_placed_of_waiting hr.1)))
      rfl rfl rfl
    have hin := h.notMem_inbox_of_waiting hr.1
    have hheld := h.notMem_held_of_waiting hr.1
    simp only [placed, held, List.mem_append, not_or] at hheld ⊢
    exact ⟨⟨hin, by simp [hr.2]⟩, hheld⟩
  · refine move_stay (phase_congr Iff.rfl ?_ Iff.rfl Iff.rfl Iff.rfl Iff.rfl) Iff.rfl rfl rfl
    simp only [List.mem_filter, Bool.not_eq_true', and_iff_left_iff_imp]
    exact fun hw => by simpa [hw] using hr

theorem move_leave {p : Point σ} {m : Manager} (h : Placed cfg p) (hidle : p.Idle)
    {s' : Scheduler σ} {pre post : List Ref} {x : Ref} (hx : p.sched.running = pre ++ x :: post)
    (hfin : (p.sched.heap x).finished = true) (hl : p.sched.leave x = .ok s') (r : Ref) :
    Move cfg m r (p.view r)
      (({ p with sched := { s' with running := pre ++ post } } : Point σ).view r) := by
  have h' := h.leave hidle hx hl
  obtain ⟨q, hm, ht⟩ := Scheduler.leave_ok hl
  obtain ⟨rfl, -⟩ := Manager.free_ok hm
  have hlog : log { s' with running := pre ++ post } r = log p.sched r := by
    unfold log
    rw [ht.trace]
  by_cases hr : r = x
  · subst hr
    have hrun : r ∈ p.sched.running := by simp [hx]
    have hdue : (p.view r).due = false := by simp [view, Point.dueRefs, hidle.2.2]
    have hout : r ∉ pre ++ post := (List.nodup_middle.mp (hx ▸ h.running_nodup)).notMem
    refine move_to (.leave _ (phase_running h hrun) hdue (Request.finished_iff.mp hfin))
      (phase_gone ?_ ?_) rfl ht.self hlog
    · have hheld := mem_held_of_running hrun
      simp only [placed, held, hidle.1, hidle.2.1, ht.waiting, List.append_nil, List.nil_append,
        List.mem_append, not_or] at hout ⊢
      exact ⟨⟨h.notMem_inbox_of_held hheld, h.notMem_waiting_of_held hheld⟩, hout⟩
    · show r < s'.next
      rw [ht.next]
      exact h.lt_next r (mem_placed_of_held (mem_held_of_running hrun))
  · refine move_stay (phase_congr Iff.rfl ?_ Iff.rfl Iff.rfl ?_ ?_) Iff.rfl (ht.other hr) hlog
    · show r ∈ s'.waiting ↔ _
      rw [ht.waiting]
    · simp [hx, hr]
    · show r < s'.next ↔ _
      rw [ht.next]

theorem move_admit {p : Point σ} {m : Manager} (h : Placed cfg p)
    (hm : m.SameShape p.sched.manager) {s' : Scheduler σ} {x : Ref} {tail : List Ref}
    {q : Request} (hbatch : p.batch = []) (hw : p.sched.waiting = x :: tail)
    (hroom : p.sched.running.length + p.popped.length < cfg.maxBatch)
    (ha : p.sched.Admitted s' x tail q) (r : Ref) :
    Move cfg m r (p.view r)
      (({ p with sched := s', popped := p.popped ++ [x] } : Point σ).view r) := by
  have h' := h.admitHead hbatch hw hroom ha
  obtain ⟨blocks, rfl, -, hlen, -⟩ := Manager.allocate_ok ha.allocate
  have hlog : log s' r = log p.sched r := by
    unfold log
    rw [ha.trace]
  by_cases hr : r = x
  · subst hr
    refine move_to (.admitHead _ blocks p.sched.admitCounter (phase_waiting h (by simp [hw])) ?_)
      (phase_popped h' (by simp)) rfl ?_ hlog
    · rw [hlen, hm.unitsNeeded]
      rfl
    · show s'.heap r = _
      rw [ha.heap, Function.update_self]
      rfl
  · refine move_stay (phase_congr Iff.rfl ?_ ?_ Iff.rfl ?_ ?_) Iff.rfl ?_ hlog
    · show r ∈ s'.waiting ↔ _
      simp [ha.waiting, hw, hr]
    · simp [hr]
    · show r ∈ s'.running ↔ _
      rw [ha.running]
    · show r < s'.next ↔ _
      rw [ha.next]
    · show s'.heap r = _
      rw [ha.heap, Function.update_of_ne hr]

/-- The log of a forward pass: one event for each row's request. -/
theorem log_stepTokens {s s' : Scheduler σ} {rows : List Row} {nxt : List Token}
    (hf : s.stepTokens env rows = .ok (nxt, s')) (r : Ref) :
    log s' r = log s r ++ (rows.map Row.fed).filter fun e => e.ref = r := by
  obtain ⟨w, -, rfl⟩ := Scheduler.stepTokens_ok hf
  exact List.filter_append ..

theorem move_prefill {p : Point σ} {m : Manager} (h : Placed cfg p) {s' : Scheduler σ}
    {batch rest : List Ref} {nxt : List Token} (owed : List Owed) (hbatch : p.batch = [])
    (hdue : p.due = []) (hp : p.popped = batch ++ rest)
    (hf : p.sched.stepTokens env (batch.map p.sched.prefillRow) = .ok (nxt, s')) (r : Ref) :
    Move cfg m r (p.view r)
      (({ p with sched := s', popped := rest, batch, due := batch.zip nxt, owed } : Point σ).view
        r) := by
  have h' := h.prefill owed hbatch hp hf
  have hlog := log_stepTokens hf r
  obtain ⟨w, hw, rfl⟩ := Scheduler.stepTokens_ok hf
  have hlen : nxt.length = batch.length := by simpa using env.stepTokens_length hw
  have hfst : (batch.zip nxt).map Prod.fst = batch := List.map_fst_zip hlen.ge
  have hreq : (batch.map p.sched.prefillRow).map Row.req = batch := by
    rw [List.map_map]
    exact List.map_id' batch
  have hnd : batch.Nodup := (hp ▸ h.held_nodup.of_append_left.of_append_left).of_append_left
  by_cases hr : r ∈ batch
  · have hpop : r ∈ p.popped := by rw [hp]; exact List.mem_append_left _ hr
    refine move_to (.prefill _ (phase_popped h hpop) (by simp [view, Point.dueRefs, hdue]))
      (phase_batch h' hr) (by simp [Point.dueRefs, hfst, hr]) rfl ?_
    have hrow : p.sched.prefillRow r ∈ batch.map p.sched.prefillRow := List.mem_map_of_mem hr
    have hfed := filter_fed_mem (hreq.symm ▸ hnd) hrow
    exact hlog.trans (congrArg _ hfed)
  · refine move_stay (phase_congr Iff.rfl Iff.rfl ?_ ?_ Iff.rfl Iff.rfl) ?_ rfl ?_
    · simp [hp, hr]
    · simp [hbatch, hr]
    · simp [Point.dueRefs, hfst, hdue, hr]
    · rw [hlog, filter_fed_notMem (hreq.symm ▸ hr), List.append_nil]

theorem move_emit {p : Point σ} {m : Manager} (h : Placed cfg p) {x : Ref} {tok : Token}
    {due : List (Ref × Token)} (hdue : p.due = (x, tok) :: due) (r : Ref) :
    Move cfg m r (p.view r) (({ p with sched := p.sched.emit env x tok, due } : Point σ).view r) := by
  obtain ⟨now, he⟩ := Scheduler.emit_ok env p.sched x tok
  have hrefs : p.dueRefs = x :: due.map Prod.fst := by simp [Point.dueRefs, hdue]
  have hx := (List.nodup_cons.mp (hrefs ▸ h.due_nodup)).1
  have hphase : ({ p with sched := p.sched.emit env x tok, due } : Point σ).phase r
      = p.phase r := by
    unfold phase
    simp only [he.waiting, he.running, he.next]
  have hlog : log (p.sched.emit env x tok) r = log p.sched r ++
      (emitEvents x tok ((p.sched.heap x).emit now tok)).filter fun e => e.ref = r := by
    unfold log
    rw [he.trace, List.append_assoc, List.filter_append]
    rfl
  have href : ∀ e ∈ emitEvents x tok ((p.sched.heap x).emit now tok), e.ref = x := by
    intro e hmem
    unfold emitEvents at hmem
    split at hmem <;> simp only [List.mem_append, List.mem_singleton, List.not_mem_nil] at hmem
    · rcases hmem with rfl | rfl <;> rfl
    · rcases hmem with hmem | rfl
      · cases hmem
      · rfl
  by_cases hr : r = x
  · subst hr
    refine move_to (.emit _ now tok (by simp [view, hrefs])) hphase (decide_eq_false hx) ?_ ?_
    · show (p.sched.emit env r tok).heap r = _
      rw [he.heap, Function.update_self]
      rfl
    · rw [hlog, List.filter_eq_self.mpr fun e hmem => decide_eq_true (href e hmem)]
      rfl
  · refine move_stay hphase ?_ ?_ ?_
    · show r ∈ due.map Prod.fst ↔ _
      simp [hrefs, hr]
    · show (p.sched.emit env x tok).heap r = _
      rw [he.heap, Function.update_of_ne hr]
    · have hnil : (emitEvents x tok ((p.sched.heap x).emit now tok)).filter
          (fun e => e.ref = r) = [] :=
        List.filter_eq_nil_iff.mpr fun e hmem heq =>
          hr ((of_decide_eq_true heq).symm.trans (href e hmem))
      rw [hlog, hnil, List.append_nil]

theorem move_join {p : Point σ} {m : Manager} (h : Placed cfg p) (hdue : p.due = []) (r : Ref) :
    Move cfg m r (p.view r)
      (({ p with sched := { p.sched with running := p.sched.running ++ p.batch },
                 batch := [] } : Point σ).view r) := by
  by_cases hr : r ∈ p.batch
  · refine move_to (.join _ (phase_batch h hr) (by simp [view, Point.dueRefs, hdue]))
      (phase_running (h.join hdue) (List.mem_append_right _ hr)) rfl rfl rfl
  · refine move_stay (phase_congr Iff.rfl Iff.rfl Iff.rfl ?_ ?_ Iff.rfl) Iff.rfl rfl rfl
    · simp [hr]
    · simp [hr]

theorem move_grow {p : Point σ} {m : Manager} (h : Placed cfg p)
    (hm : m.SameShape p.sched.manager) (hidle : p.Idle) {x : Ref} (hx : x ∈ p.sched.running)
    (hfin : (p.sched.heap x).finished = false) (r : Ref) :
    Move cfg m r (p.view r) (({ p with sched := (p.sched.appendSlot x).2 } : Point σ).view r) := by
  obtain ⟨blocks, hq, -, -, -, -, hslot, -, hlen, -⟩ :=
    p.sched.manager.appendSlot_spec (p.sched.heap x)
  refine move_touches (p.sched.appendSlot_touches x).2 ?_
  rintro rfl
  rw [hq]
  refine .grow _ blocks (phase_running h hx) (by simp [view, Point.dueRefs, hidle.2.2])
    (Request.not_finished_iff.mp hfin) (fun hp => hslot (hm.paged.trans hp)) fun hne => ?_
  rw [← hm.unitsNeeded]
  exact hlen hne

theorem move_preempt {p : Point σ} {m : Manager} (h : Placed cfg p) (hidle : p.Idle)
    {s' : Scheduler σ} {x : Ref} {q : Request} (hx : x ∈ p.sched.running)
    (hfin : (p.sched.heap x).finished = false) (hpre : cfg.preemption = true)
    (hp : p.sched.Preempted s' x q) (r : Ref) :
    Move cfg m r (p.view r) (({ p with sched := s' } : Point σ).view r) := by
  have h' := h.preempt hidle hx hp
  have hrun := h.preempted_running hx hp
  have hw := hp.waiting
  have hnext := hp.next
  have hheap := hp.heap
  have hlog : log s' r = log p.sched r := by
    unfold log
    rw [hp.trace]
  obtain ⟨rfl, -⟩ := Manager.free_ok hp.free
  by_cases hr : r = x
  · subst hr
    refine move_to (.preempt _ (phase_running h hx) (by simp [view, Point.dueRefs, hidle.2.2])
      (Request.not_finished_iff.mp hfin) hpre) (phase_waiting h' (by simp [hw])) rfl ?_ hlog
    show s'.heap r = _
    rw [hheap, Function.update_self]
    rfl
  · refine move_stay (phase_congr Iff.rfl ?_ Iff.rfl Iff.rfl ?_ ?_) Iff.rfl ?_ hlog
    · simp [hw, hr]
    · simp [hrun, List.mem_erase_of_ne hr]
    · simp [hnext]
    · show s'.heap r = _
      rw [hheap, Function.update_of_ne hr]

/-- The row of a decode step. -/
theorem decodeRow_ok {s : Scheduler σ} {r : Ref} {row : Row} (h : s.decodeRow r = .ok row) :
    ∃ tok, (s.heap r).outputTokenIds.getLast? = some tok ∧
      row = { req := r, admitSeq := (s.heap r).admitSeq, tokens := [tok]
              start := (s.heap r).seqLen - 1, blockTable := (s.heap r).blockTable } := by
  unfold Scheduler.decodeRow at h
  split at h
  · cases h
  · next tok htok =>
    cases h
    exact ⟨tok, htok, rfl⟩

theorem decodeRows_req {s : Scheduler σ} {batch : List Ref} {rows : List Row}
    (hrows : batch.mapM s.decodeRow = .ok rows) : rows.map Row.req = batch := by
  have h := forall₂_of_mapM_ok hrows
  clear hrows
  induction h with
  | nil => rfl
  | cons hrow _ ih =>
    obtain ⟨tok, -, rfl⟩ := decodeRow_ok hrow
    rw [List.map_cons, ih]

theorem decodeRows_mem {s : Scheduler σ} {batch : List Ref} {rows : List Row}
    (hrows : batch.mapM s.decodeRow = .ok rows) {r : Ref} (hr : r ∈ batch) :
    ∃ row ∈ rows, s.decodeRow r = .ok row := exists_of_forall₂ (forall₂_of_mapM_ok hrows) hr

theorem exists_of_mem_decodeRows {s : Scheduler σ} {batch : List Ref} {rows : List Row}
    (hrows : batch.mapM s.decodeRow = .ok rows) {row : Row} (hrow : row ∈ rows) :
    ∃ r ∈ batch, s.decodeRow r = .ok row :=
  exists_of_forall₂ (forall₂_of_mapM_ok hrows).flip hrow

theorem move_decode {p : Point σ} {m : Manager} (h : Placed cfg p)
    (hm : m.SameShape p.sched.manager) (hidle : p.Idle) {s' : Scheduler σ} {batch : List Ref}
    {rows : List Row} {nxt : List Token} (hnd : batch.Nodup)
    (hrun : ∀ r ∈ batch, r ∈ p.sched.running)
    (hfin : ∀ r ∈ batch, (p.sched.heap r).finished = false)
    (hcov : ∀ r ∈ batch, Covered p.sched r) (hrows : batch.mapM p.sched.decodeRow = .ok rows)
    (hf : p.sched.stepTokens env rows = .ok (nxt, s')) (r : Ref) :
    Move cfg m r (p.view r) (({ p with sched := s', due := batch.zip nxt } : Point σ).view r) := by
  have hlog := log_stepTokens hf r
  have hfst := Placed.decode_refs hrows hf
  have hreq := decodeRows_req hrows
  obtain ⟨w, hw, rfl⟩ := Scheduler.stepTokens_ok hf
  by_cases hr : r ∈ batch
  · obtain ⟨row, hmem, hrow⟩ := decodeRows_mem hrows hr
    obtain ⟨tok, htok, rfl⟩ := decodeRow_ok hrow
    refine move_to (.decode _ tok (phase_running h (hrun r hr))
      (by simp [view, Point.dueRefs, hidle.2.2]) (Request.not_finished_iff.mp (hfin r hr)) htok ?_)
      rfl (by simp [Point.dueRefs, hfst, hr]) rfl ?_
    · intro hpaged
      rw [← hm.unitsNeeded]
      exact hcov r hr (hm.paged.trans hpaged)
    · have hfed := filter_fed_mem (hreq.symm ▸ hnd) hmem
      exact hlog.trans (congrArg _ hfed)
  · refine move_stay rfl ?_ rfl ?_
    · simp [Point.dueRefs, hfst, hidle.2.2, hr]
    · rw [hlog, filter_fed_notMem (hreq.symm ▸ hr), List.append_nil]

/-- **Every small step of the scheduler is a move of every request.** -/
theorem op_move {p p' : Point σ} {m : Manager} (hop : Op env cfg adm p p') (h : Placed cfg p)
    (hm : m.SameShape p.sched.manager) (r : Ref) : Move cfg m r (p.view r) (p'.view r) := by
  cases hop with
  | cancel x hx =>
    refine move_touches (Scheduler.touches_modify ..) ?_
    rintro rfl
    exact .cancel _
  | create n => exact move_create h n r
  | submit pre post x hidle hin => exact move_submit h hin r
  | step hop =>
    cases hop with
    | dropCancelled hidle => exact move_dropCancelled h r
    | markCancelled x hidle hx =>
      rcases Scheduler.markCancelled_cases env p.sched x with he | ⟨hc, hopen, -, now, ht⟩
      · rw [he]
        exact .stay _
      · refine move_touches ht ?_
        rintro rfl
        exact .abort _ now (phase_running h hx) (by simp [view, Point.dueRefs, hidle.2.2]) hc
          (Request.not_finished_iff.mp hopen)
    | leave s' pre post x hidle hx hfin hl => exact move_leave h hidle hx hfin hl r
    | sort hidle =>
      have hperm : (Scheduler.sortWaiting p.sched.heap p.sched.waiting).Perm p.sched.waiting :=
        sortKey_perm _ _
      exact move_stay (phase_congr Iff.rfl hperm.mem_iff Iff.rfl Iff.rfl Iff.rfl Iff.rfl) Iff.rfl
        rfl rfl
    | admitHead s' x tail hbatch hdue hw hsorted hroom hcan hadm ha =>
      obtain ⟨q, hq⟩ := Scheduler.stampAdmit_admitted ha
      exact move_admit h hm hbatch hw hroom hq r
    | prefill s' batch rest nxt hbatch hdue hp hf => exact move_prefill h _ hbatch hdue hp hf r
    | setRunning x hx =>
      refine move_touches (Scheduler.touches_modify ..) ?_
      rintro rfl
      exact .setRunning _ (phase_batch h hx)
    | emit x tok due hdue => exact move_emit h hdue r
    | join hdue => exact move_join h hdue r
    | grow x hidle hx hfin => exact move_grow h hm hidle hx hfin r
    | preempt s' x hidle hx hfin hpre hp =>
      obtain ⟨q, hq⟩ := Scheduler.preempt_ok hp
      exact move_preempt h hidle hx hfin hpre hq r
    | decode s' batch rows nxt hidle hnd hrun hfin hcov hrows hf =>
      exact move_decode h hm hidle hnd hrun hfin hcov hrows hf r
    | clock => exact .stay _
    | count met => exact .stay _

/-! ## The shape of the allocator -/

theorem shape_op {p p' : Point σ} (hop : Op env cfg adm p p') :
    p.sched.manager.SameShape p'.sched.manager := by
  cases hop with
  | step hop =>
    cases hop with
    | markCancelled x hidle hx =>
      rcases Scheduler.markCancelled_cases env p.sched x with he | ⟨-, -, he, -⟩
      · rw [he]
        exact .refl _
      · rw [he]
        exact .refl _
    | leave s' pre post x hidle hx hfin hl =>
      obtain ⟨q, hm, -⟩ := Scheduler.leave_ok hl
      exact (Manager.free_ok hm).2.1
    | admitHead s' x tail hbatch hdue hw hsorted hroom hcan hadm ha =>
      obtain ⟨q, hq⟩ := Scheduler.stampAdmit_admitted ha
      obtain ⟨blocks, -, -, -, hshape, -⟩ := Manager.allocate_ok hq.allocate
      exact hshape
    | prefill s' batch rest nxt hbatch hdue hp hf =>
      obtain ⟨w, -, rfl⟩ := Scheduler.stepTokens_ok hf
      exact .refl _
    | emit x tok due hdue =>
      obtain ⟨now, he⟩ := Scheduler.emit_ok env p.sched x tok
      rw [he.manager]
      exact .refl _
    | grow x hidle hx hfin =>
      obtain ⟨blocks, -, -, hshape, -⟩ := p.sched.manager.appendSlot_spec (p.sched.heap x)
      exact hshape
    | preempt s' x hidle hx hfin hpre hp =>
      obtain ⟨q, hq⟩ := Scheduler.preempt_ok hp
      exact (Manager.free_ok hq.free).2.1
    | decode s' batch rows nxt hidle hnd hrun hfin hcov hrows hf =>
      obtain ⟨w, -, rfl⟩ := Scheduler.stepTokens_ok hf
      exact .refl _
    | _ => exact .refl _
  | _ => exact .refl _

/-- **Along any small steps a request only makes moves of its own.** -/
theorem ops_moves {p p' : Point σ} {m : Manager} (hops : Ops env cfg adm p p') (h : Placed cfg p)
    (hm : m.SameShape p.sched.manager) :
    Placed cfg p' ∧ m.SameShape p'.sched.manager ∧ ∀ r, Moves cfg m r (p.view r) (p'.view r) := by
  induction hops with
  | refl => exact ⟨h, hm, fun _ => .refl⟩
  | tail _ hop ih =>
    obtain ⟨hp, hshape, hmoves⟩ := ih
    exact ⟨placed_op hop hp, hshape.trans (shape_op hop),
      fun r => (hmoves r).tail (op_move hop hp hshape r)⟩

end LlmServe
