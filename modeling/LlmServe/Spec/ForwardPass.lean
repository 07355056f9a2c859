import LlmServe.Properties.Invariant

/-!
# Between two forward passes

What the forward pass has to remember of a request are the tokens it was fed. `Pass` describes a
forward pass without saying whether it is a prefill or a decode step: each row feeds the tokens of
its request from `start` on, and what comes before `start` is remembered. Every other small step
leaves what is remembered alone (`op_pass_or_quiet`, `Good.keeps`).
-/

namespace LlmServe

open Infra Point

variable {σ : Type} {env : Env σ} {cfg : EngineConfig} {adm : Point σ → Ref → Prop}

/-! ## The world -/

/-- The clock was read at most once. -/
def Env.Tick (env : Env σ) (w w' : σ) : Prop := w' = w ∨ w' = (env.perfCounter w).2

namespace Scheduler

variable {s s' : Scheduler σ} {r : Ref}

theorem markCancelled_world (env : Env σ) (s : Scheduler σ) (r : Ref) :
    env.Tick s.world (s.markCancelled env r).world := by
  unfold markCancelled
  split
  · exact Or.inr rfl
  · exact Or.inl rfl

theorem free_world (h : s.free r = .ok s') : s'.world = s.world := by
  obtain ⟨⟨m, q⟩, -, he⟩ := exists_of_bind_ok h
  cases he
  rfl

theorem leave_world (h : s.leave r = .ok s') : s'.world = s.world := by
  obtain ⟨s₁, hfree, hrest⟩ := exists_of_bind_ok h
  have hw := free_world hfree
  split at hrest
  · obtain ⟨met, -, rfl⟩ := recordRequest_ok hrest
    exact hw
  · cases hrest
    exact hw

theorem allocate_world (h : s.allocate r = .ok s') : s'.world = s.world := by
  obtain ⟨⟨m, q⟩, -, he⟩ := exists_of_bind_ok h
  cases he
  rfl

theorem preempt_world (h : s.preempt r = .ok s') : s'.world = s.world := by
  obtain ⟨s₁, hfree, hrest⟩ := exists_of_bind_ok h
  have hw := free_world hfree
  split at hrest
  · cases hrest
    exact hw
  · cases hrest

theorem emit_world (env : Env σ) (s : Scheduler σ) (r : Ref) (tok : Token) :
    (s.emit env r tok).world = (env.perfCounter s.world).2 := by
  unfold emit
  dsimp only
  split <;> rfl

end Scheduler

/-! ## What is remembered -/

/-- The phases in which a request has been fed. -/
def Phase.Fed (ph : Phase) : Prop := ph = .batch ∨ ph = .running

/-- The tokens fed so far: all of them, or all but the one `_emit` has just added. -/
def View.cached (v : View) : List Token := if v.due then v.req.tokens else v.req.tokens.dropLast

/-- From `v` to `v'` the request was fed nothing, and kept what it holds. -/
structure Keeps (v v' : View) : Prop where
  phase : v.phase.Fed
  cached : v'.cached = v.cached
  blockTable : v.req.blockTable <+: v'.req.blockTable
  admitSeq : v'.req.admitSeq = v.req.admitSeq

theorem Keeps.of_req {v v' : View} (hph : v.phase.Fed) (hdue : v'.due = v.due)
    (htoks : v'.req.tokens = v.req.tokens) (htable : v.req.blockTable <+: v'.req.blockTable)
    (hseq : v'.req.admitSeq = v.req.admitSeq) : Keeps v v' :=
  ⟨hph, by rw [View.cached, View.cached, hdue, htoks], htable, hseq⟩

/-- A request is fed only by a forward pass, which leaves a token due. -/
theorem move_keeps {m : Manager} {r : Ref} {v v' : View} (hmv : Move cfg m r v v')
    (hph : v'.phase.Fed) (hdue : v'.due = true → v.due = true) : Keeps v v' := by
  have hrefl : ∀ t : List Nat, t <+: t := List.prefix_refl
  cases hmv with
  | create n hphase => rcases hph with h | h <;> cases h
  | submit hphase => rcases hph with h | h <;> cases h
  | drop hphase hc => rcases hph with h | h <;> cases h
  | leave hphase hd hfin => rcases hph with h | h <;> cases h
  | admitHead blocks seq hphase hlen => rcases hph with h | h <;> cases h
  | preempt hphase hd hopen hpre => rcases hph with h | h <;> cases h
  | prefill hphase hd => cases hd.symm.trans (hdue rfl)
  | decode tok hphase hd hopen hlast hcov => cases hd.symm.trans (hdue rfl)
  | join hphase hd => exact .of_req (Or.inl hphase) rfl rfl (hrefl _) rfl
  | grow blocks hphase hd hopen hslot hlen =>
    exact .of_req hph rfl rfl (List.prefix_append _ _) rfl
  | emit now tok hd =>
    refine ⟨hph, ?_, ?_, Request.emit_admitSeq ..⟩
    · -- the token `_emit` adds is the one that has not been fed
      rw [View.cached, View.cached, if_pos hd, if_neg nofun, Request.emit_tokens,
        List.dropLast_concat]
    · simpa only [Request.emit_blockTable] using hrefl _
  | _ => exact .of_req hph rfl rfl (hrefl _) rfl

/-! ## The forward pass -/

/-- The row a request gets in a forward pass: its tokens from `start` on, after what is cached. -/
structure RowOf (p : Point σ) (r : Ref) (row : Row) : Prop where
  req : row.req = r
  admitSeq : row.admitSeq = (p.sched.heap r).admitSeq
  blockTable : row.blockTable = (p.sched.heap r).blockTable
  tokens : (p.sched.heap r).tokens = (p.sched.heap r).tokens.take row.start ++ row.tokens
  start : row.start + row.tokens.length = (p.sched.heap r).seqLen
  cached : row.start = 0 ∨
    (p.phase r).Fed ∧ (p.sched.heap r).tokens.take row.start = (p.view r).cached

theorem rowOf_decodeRow {m : Manager} {p : Point σ} (h : Good cfg m p) (hidle : p.Idle) {r : Ref}
    {row : Row} (hr : r ∈ p.sched.running) (hrow : p.sched.decodeRow r = .ok row) :
    RowOf p r row := by
  obtain ⟨tok, htok, rfl⟩ := decodeRow_ok hrow
  have htoks : (p.sched.heap r).tokens
      = (p.sched.heap r).tokens.take ((p.sched.heap r).seqLen - 1) ++ [tok] := by
    have hne : (p.sched.heap r).tokens ≠ [] := fun hnil => by
      have hout := (List.append_eq_nil_iff.mp hnil).2
      rw [hout] at htok
      cases htok
    have hlast : (p.sched.heap r).tokens.getLast hne = tok := by
      have hsome : (p.sched.heap r).tokens.getLast? = some tok := by
        rw [Request.tokens, List.getLast?_append, htok]
        rfl
      exact Option.some.inj ((List.getLast?_eq_some_getLast hne).symm.trans hsome)
    rw [← Request.length_tokens, ← List.dropLast_eq_take, ← hlast, List.dropLast_concat_getLast hne]
  have hpos : 0 < (p.sched.heap r).seqLen := by
    rw [← Request.length_tokens, htoks]
    simp
  refine ⟨rfl, rfl, rfl, htoks, Nat.sub_add_cancel hpos, Or.inr ⟨?_, ?_⟩⟩
  · exact Or.inr (phase_running h.placed hr)
  · have hdue : r ∉ p.dueRefs := by simp [Point.dueRefs, hidle.2.2]
    show _ = View.cached _
    rw [View.cached, if_neg (by simp [view, hdue]), List.dropLast_eq_take, Request.length_tokens]
    rfl

/-- A forward pass over these rows, one for each request of `batch`. -/
structure Pass (env : Env σ) (p p' : Point σ) (batch : List Ref) (rows : List Row)
    (nxt : List Token) : Prop where
  nodup : batch.Nodup
  due : p.due = []
  row : List.Forall₂ (RowOf p) batch rows
  held : ∀ r ∈ batch, r ∈ p.held
  covered : ∀ r ∈ batch, Covered p.sched r
  answer : env.stepTokens p.sched.world rows = .ok (nxt, p'.sched.world)
  heap : p'.sched.heap = p.sched.heap
  next : p'.sched.next = p.sched.next
  manager : p'.sched.manager = p.sched.manager
  due' : p'.due = batch.zip nxt
  fed : ∀ r, (p'.phase r).Fed → r ∉ batch → (p.phase r).Fed

theorem Pass.length {p p' : Point σ} {batch : List Ref} {rows : List Row} {nxt : List Token}
    (h : Pass env p p' batch rows nxt) : nxt.length = batch.length :=
  (env.stepTokens_length h.answer).trans h.row.length_eq.symm

theorem Pass.rows_req {p p' : Point σ} {batch : List Ref} {rows : List Row} {nxt : List Token}
    (h : Pass env p p' batch rows nxt) : rows.map Row.req = batch := by
  have hrow := h.row
  clear h
  induction hrow with
  | nil => rfl
  | cons hrow _ ih => rw [List.map_cons, ih, hrow.req]

theorem Pass.dueRefs {p p' : Point σ} {batch : List Ref} {rows : List Row} {nxt : List Token}
    (h : Pass env p p' batch rows nxt) : p'.dueRefs = batch := by
  rw [Point.dueRefs, h.due', List.map_fst_zip h.length.ge]

/-- What is cached after a forward pass: everything for its own requests, nothing new for others. -/
theorem Pass.cached {p p' : Point σ} {batch : List Ref} {rows : List Row} {nxt : List Token}
    (h : Pass env p p' batch rows nxt) (r : Ref) :
    (p'.view r).cached = if r ∈ batch then (p.sched.heap r).tokens else (p.view r).cached := by
  have hno : r ∉ p.dueRefs := by simp [Point.dueRefs, h.due]
  unfold View.cached view
  rw [h.heap, h.dueRefs]
  by_cases hr : r ∈ batch
  · simp [hr]
  · simp [hr, hno]

/-! ## Every other small step -/

/-- A small step that feeds nobody. -/
structure Quiet (env : Env σ) (p p' : Point σ) : Prop where
  world : env.Tick p.sched.world p'.sched.world
  /-- `_emit` takes the tokens off `due` one by one. -/
  due : p'.due = p.due ∨ ∃ r tok now, p.due = (r, tok) :: p'.due ∧
    p'.sched.heap = Function.update p.sched.heap r ((p.sched.heap r).emit now tok)
  output : p'.due = p.due → ∀ r,
    (p'.sched.heap r).outputTokenIds = (p.sched.heap r).outputTokenIds
  prompt : ∀ r < p.sched.next,
    (p'.sched.heap r).promptTokenIds = (p.sched.heap r).promptTokenIds

theorem Quiet.due_subset {p p' : Point σ} (h : Quiet env p p') {x : Ref × Token}
    (hx : x ∈ p'.due) : x ∈ p.due := by
  rcases h.due with he | ⟨r, tok, now, he, -⟩
  · exact he ▸ hx
  · rw [he]
    exact List.mem_cons_of_mem _ hx

/-- **A request that is fed after a quiet step was fed before, and kept what it holds.** -/
theorem Good.keeps {m : Manager} {p p' : Point σ} (h : Good cfg m p) (hop : Op env cfg adm p p')
    (hq : Quiet env p p') {r : Ref} (hr : (p'.phase r).Fed) : Keeps (p.view r) (p'.view r) := by
  refine move_keeps (op_move hop h.placed h.shape r) hr fun hdue => ?_
  obtain ⟨x, hx, he⟩ := List.mem_map.mp (of_decide_eq_true hdue)
  exact decide_eq_true (List.mem_map.mpr ⟨x, hq.due_subset hx, he⟩)

theorem Quiet.of_touches {p : Point σ} {p' : Point σ} {r : Ref} {q : Request}
    (hw : env.Tick p.sched.world p'.sched.world) (hdue : p'.due = p.due)
    (hheap : p'.sched.heap = Function.update p.sched.heap r q)
    (hout : q.outputTokenIds = (p.sched.heap r).outputTokenIds)
    (hprompt : q.promptTokenIds = (p.sched.heap r).promptTokenIds) : Quiet env p p' where
  world := hw
  due := Or.inl hdue
  output := fun _ x => hheap ▸ apply_update Request.outputTokenIds hout x
  prompt := fun x _ => hheap ▸ apply_update Request.promptTokenIds hprompt x

theorem Quiet.of_heap {p p' : Point σ} (hw : env.Tick p.sched.world p'.sched.world)
    (hdue : p'.due = p.due) (hheap : p'.sched.heap = p.sched.heap) : Quiet env p p' where
  world := hw
  due := Or.inl hdue
  output := fun _ _ => by rw [hheap]
  prompt := fun _ _ => by rw [hheap]

theorem Pass.of_op {m : Manager} {p p' : Point σ} (h : Good cfg m p) (hop : Op env cfg adm p p')
    {batch : List Ref} {rows : List Row} {nxt : List Token} (hnd : batch.Nodup) (hdue : p.due = [])
    (hrow : List.Forall₂ (RowOf p) batch rows) (hheld : ∀ r ∈ batch, r ∈ p.held)
    (hcov : ∀ r ∈ batch, Covered p.sched r) {w : σ}
    (hw : env.stepTokens p.sched.world rows = .ok (nxt, w))
    (hsched : p'.sched =
      { p.sched with world := w, trace := p.sched.trace ++ rows.map Row.fed })
    (hdue' : p'.due = batch.zip nxt) : Pass env p p' batch rows nxt := by
  have hlen : nxt.length = batch.length := (env.stepTokens_length hw).trans hrow.length_eq.symm
  refine ⟨hnd, hdue, hrow, hheld, hcov, ?_, ?_, ?_, ?_, hdue', fun r hph hr => ?_⟩
  · rw [hsched]
    exact hw
  · rw [hsched]
  · rw [hsched]
  · rw [hsched]
  · refine (move_keeps (op_move hop h.placed h.shape r) hph fun hd => absurd ?_ hr).phase
    have hd : r ∈ p'.due.map Prod.fst := of_decide_eq_true hd
    rwa [hdue', List.map_fst_zip hlen.ge] at hd

/-- **A small step is a forward pass or feeds nobody.** -/
theorem op_pass_or_quiet {m : Manager} {p p' : Point σ} (hop : Op env cfg adm p p')
    (h : Good cfg m p) : (∃ batch rows nxt, Pass env p p' batch rows nxt) ∨ Quiet env p p' := by
  have hop' := hop
  have hstill : ∀ w : σ, env.Tick w w := fun _ => Or.inl rfl
  cases hop with
  | cancel r hr => exact Or.inr (.of_touches (hstill _) rfl rfl rfl rfl)
  | create n =>
    -- what is at a fresh reference has no output yet
    have hout : (p.sched.heap p.sched.next).outputTokenIds = [] :=
      (h.facts _).ending.unsubmitted (Or.inl (phase_absent h.placed (Nat.lt_irrefl _)))
    right
    refine ⟨hstill _, Or.inl rfl, fun _ x => ?_, fun x hx => ?_⟩
    · exact apply_update Request.outputTokenIds hout.symm x
    · exact congrArg Request.promptTokenIds (Function.update_of_ne hx.ne ..)
  | submit pre post r hidle hin => exact Or.inr (.of_touches (hstill _) rfl rfl rfl rfl)
  | step hop =>
    cases hop with
    | prefill s' batch rest nxt hbatch hdue hp hf =>
      left
      obtain ⟨w, hw, rfl⟩ := Scheduler.stepTokens_ok hf
      have hpop : ∀ r ∈ batch, r ∈ p.popped := fun r hr => by
        rw [hp]
        exact List.mem_append_left _ hr
      have hnd : batch.Nodup := (hp ▸ h.placed.held_nodup.of_append_left.of_append_left).of_append_left
      refine ⟨batch, _, nxt, .of_op h hop' hnd hdue ?_ (fun r hr => mem_held_of_popped (hpop r hr))
        ?_ hw rfl rfl⟩
      · rw [List.forall₂_map_right_iff, List.forall₂_same]
        exact fun r hr => ⟨rfl, rfl, rfl, by simp [Scheduler.prefillRow],
          by simp [Scheduler.prefillRow], Or.inl rfl⟩
      · intro r hr _
        rw [h.shape.unitsNeeded]
        exact (h.facts r).table.popped (phase_popped h.placed (hpop r hr))
    | decode s' batch rows nxt hidle hnd hrun hfin hcov hrows hf =>
      left
      obtain ⟨w, hw, rfl⟩ := Scheduler.stepTokens_ok hf
      refine ⟨batch, rows, nxt, .of_op h hop' hnd hidle.2.2 ?_
        (fun r hr => mem_held_of_running (hrun r hr)) hcov hw rfl rfl⟩
      have hboth := (List.forall₂_and_left _ _).mpr ⟨hrun, forall₂_of_mapM_ok hrows⟩
      refine hboth.imp fun r row ⟨hr, hrow⟩ => ?_
      exact rowOf_decodeRow h hidle hr hrow
    | dropCancelled | sort | join | count => exact Or.inr (.of_heap (hstill _) rfl rfl)
    | clock => exact Or.inr (.of_heap (Or.inr rfl) rfl rfl)
    | setRunning r hr => exact Or.inr (.of_touches (hstill _) rfl rfl rfl rfl)
    | markCancelled r hidle hr =>
      have hw := Scheduler.markCancelled_world env p.sched r
      rcases Scheduler.markCancelled_cases env p.sched r with he | ⟨-, -, -, now, ht⟩
      · exact Or.inr (.of_heap hw rfl (congrArg Scheduler.heap he))
      · exact Or.inr (.of_touches hw rfl ht.heap rfl rfl)
    | leave s' pre post r hidle hr hfin hl =>
      obtain ⟨q, hfree, ht⟩ := Scheduler.leave_ok hl
      obtain ⟨rfl, -⟩ := Manager.free_ok hfree
      have hw : s'.world = p.sched.world := Scheduler.leave_world hl
      exact Or.inr (.of_touches (Or.inl hw) rfl ht.heap rfl rfl)
    | admitHead s' r tail hbatch hdue hw hsorted hroom hcan hadm ha =>
      obtain ⟨q, hq⟩ := Scheduler.stampAdmit_admitted ha
      obtain ⟨blocks, rfl, -⟩ := Manager.allocate_ok hq.allocate
      have hworld := Scheduler.allocate_world ha
      exact Or.inr (.of_touches (Or.inl hworld) rfl hq.heap rfl rfl)
    | emit r tok due hdue =>
      obtain ⟨now, he⟩ := Scheduler.emit_ok env p.sched r tok
      refine Or.inr ⟨Or.inr (Scheduler.emit_world env p.sched r tok),
        Or.inr ⟨r, tok, now, hdue, he.heap⟩, fun heq => ?_, fun x _ => ?_⟩
      · exact absurd (hdue.symm.trans heq.symm) (List.cons_ne_self _ _)
      · exact he.heap ▸ apply_update Request.promptTokenIds (Request.emit_promptTokenIds ..) x
    | grow r hidle hr hfin =>
      obtain ⟨blocks, hq, -⟩ := p.sched.manager.appendSlot_spec (p.sched.heap r)
      have ht := (p.sched.appendSlot_touches r).2
      exact Or.inr (.of_touches (hstill _) rfl ht.heap (by rw [hq]) (by rw [hq]))
    | preempt s' r hidle hr hfin hpre hp =>
      obtain ⟨q, hq⟩ := Scheduler.preempt_ok hp
      obtain ⟨rfl, -⟩ := Manager.free_ok hq.free
      exact Or.inr (.of_touches (Or.inl (Scheduler.preempt_world hp)) rfl hq.heap rfl rfl)

end LlmServe
