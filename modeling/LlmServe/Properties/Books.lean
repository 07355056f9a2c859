import LlmServe.Properties.Invariant

/-!
# What the metrics say about requests

`Books` relates the reported requests to the objects: each request that ended by itself and left is
recorded once, with what its fields say now. Only `_retire` writes a record, when a request leaves
(`Departure`), and nothing the record was made of changes afterwards (`gone_move`).
-/

namespace LlmServe

open Infra Point

variable {σ : Type} {env : Env σ} {cfg : EngineConfig} {adm : Point σ → Ref → Prop} {m : Manager}
  {p p' : Point σ}

/-- A token finished the request. -/
def Request.Served (q : Request) : Prop :=
  q.finishReason = some .length ∨ q.finishReason = some .stop

instance instDecidableServed (q : Request) : Decidable q.Served :=
  inferInstanceAs (Decidable (_ ∨ _))

theorem Request.served_iff {q : Request} (h : q.finished = true) :
    q.Served ↔ q.finishReason ≠ some .cancelled := by
  unfold Served
  cases hr : q.finishReason with
  | none => exact absurd hr (finished_iff.mp h)
  | some reason => cases reason <;> simp

/-- The books of the engine list each served request once, in the order they left. -/
structure Books (served : List Ref) (p : Point σ) : Prop where
  nodup : served.Nodup
  mem : ∀ r, r ∈ served ↔ p.phase r = .gone ∧ (p.sched.heap r).Served
  records : served.map (fun r => requestMetrics (p.sched.heap r)) =
    p.sched.metrics.requests.map .ok
  tokens : p.sched.metrics.tokensOut =
    (served.map fun r => (p.sched.heap r).outputTokenIds.length).sum

/-! ## Who leaves -/

/-- In a small step nobody is recorded, or one finished request leaves. -/
inductive Departure (p p' : Point σ) : Prop where
  | unrecorded (books : p.sched.metrics.SameBooks p'.sched.metrics)
      (stay : ∀ r ∈ p.placed, r ∈ p'.placed ∨ ¬(p'.sched.heap r).Served)
  | leave (s' : Scheduler σ) (pre post : List Ref) (r : Ref) (hidle : p.Idle)
      (hr : p.sched.running = pre ++ r :: post) (hfin : (p.sched.heap r).finished = true)
      (h : p.sched.leave r = .ok s') (hp' : p' = { p with sched := { s' with running := pre ++ post } })

/-- A step that keeps the lists. -/
theorem Departure.touches {s' : Scheduler σ} {x : Ref} {q : Request} (ht : p.sched.Touches s' x q)
    (books : p.sched.metrics.SameBooks s'.metrics) : Departure p { p with sched := s' } := by
  refine .unrecorded books fun r hr => Or.inl ?_
  simpa only [placed, held, ht.waiting, ht.running] using hr

theorem Scheduler.markCancelled_metrics (env : Env σ) (s : Scheduler σ) (r : Ref) :
    (s.markCancelled env r).metrics = s.metrics := by
  unfold markCancelled
  split <;> rfl

theorem Scheduler.emit_metrics (env : Env σ) (s : Scheduler σ) (r : Ref) (tok : Token) :
    (s.emit env r tok).metrics = s.metrics := by
  unfold emit perfCounter
  dsimp only
  split <;> rfl

theorem Scheduler.allocate_metrics {s s' : Scheduler σ} {r : Ref} (h : s.allocate r = .ok s') :
    s'.metrics = s.metrics := by
  obtain ⟨b, -, he⟩ := exists_of_bind_ok h
  cases he
  rfl

theorem Scheduler.preempt_metrics {s s' : Scheduler σ} {r : Ref} (h : s.preempt r = .ok s') :
    s'.metrics = s.metrics.write .preemptions := by
  obtain ⟨s₁, hfree, hrest⟩ := exists_of_bind_ok h
  obtain ⟨b, -, he⟩ := exists_of_bind_ok hfree
  cases he
  split at hrest
  · cases hrest
    rfl
  · cases hrest

theorem Scheduler.preempt_books {s s' : Scheduler σ} {r : Ref} (h : s.preempt r = .ok s') :
    s.metrics.SameBooks s'.metrics := by
  rw [preempt_metrics h]
  exact ⟨rfl, rfl⟩

/-- A step of a client, of the intake, or of the engine outside `_retire` and eviction. -/
theorem departure_op (hop : Op env cfg adm p p') (hgood : Good cfg m p) : Departure p p' := by
  have hkeep : ∀ books, (∀ r ∈ p.placed, r ∈ p'.placed) → Departure p p' := fun books h =>
    .unrecorded books fun r hr => Or.inl (h r hr)
  cases hop with
  | cancel x hx => exact .touches (Scheduler.touches_modify ..) (.refl _)
  | create n =>
    refine hkeep (.refl _) fun r hr => ?_
    simp only [placed, held, Scheduler.create, List.mem_append] at hr ⊢
    grind
  | submit pre post x hidle hin =>
    refine hkeep (.refl _) fun r hr => ?_
    simp only [placed, held, hin, Scheduler.submit, Scheduler.modify, List.mem_append,
      List.mem_cons] at hr ⊢
    grind
  | step hop =>
    cases hop with
    | dropCancelled hidle =>
      refine .unrecorded (.refl _) fun r hr => ?_
      by_cases hd : r ∈ p.sched.waiting ∧ (p.sched.heap r).cancelled = true
      · -- no token finishes a request that waits
        exact Or.inr (by simp [Request.Served, hgood.waiting_open hd.1])
      · refine Or.inl ?_
        simp only [placed, held, List.mem_append, List.mem_filter, Bool.not_eq_true'] at hr ⊢
        rcases hr with (hin | hw) | hheld
        · exact Or.inl (Or.inl hin)
        · exact Or.inl (Or.inr ⟨hw, by simpa [hw] using hd⟩)
        · exact Or.inr hheld
    | markCancelled x hidle hx =>
      rcases Scheduler.markCancelled_cases env p.sched x with he | ⟨-, -, -, now, ht⟩
      · rw [he]
        exact .unrecorded (.refl _) fun r hr => Or.inl hr
      · exact .touches ht (by rw [Scheduler.markCancelled_metrics]; exact .refl _)
    | leave s' pre post x hidle hx hfin hl => exact .leave s' pre post x hidle hx hfin hl rfl
    | sort hidle =>
      refine hkeep (.refl _) fun r hr => ?_
      have hmem : r ∈ Scheduler.sortWaiting p.sched.heap p.sched.waiting ↔ r ∈ p.sched.waiting :=
        mem_sortKey _
      simpa only [placed, held, List.mem_append, hmem] using hr
    | admitHead s' x tail hbatch hdue hw hsorted hroom hcan hadm ha =>
      obtain ⟨q, hq⟩ := Scheduler.stampAdmit_admitted ha
      have hbooks : p.sched.metrics.SameBooks (s'.stampAdmit x).metrics := by
        show p.sched.metrics.SameBooks s'.metrics
        rw [Scheduler.allocate_metrics ha]
        exact .refl _
      refine hkeep hbooks fun r hr => ?_
      simp only [placed, held, hw, hq.waiting, hq.running, List.mem_append, List.mem_cons,
        List.not_mem_nil, or_false] at hr ⊢
      grind
    | prefill s' batch rest nxt hbatch hdue hp hf =>
      obtain ⟨w, -, rfl⟩ := Scheduler.stepTokens_ok hf
      refine hkeep (.refl _) fun r hr => ?_
      simp only [placed, held, hp, hbatch, List.mem_append, List.not_mem_nil, or_false] at hr ⊢
      grind
    | setRunning x hx => exact .touches (Scheduler.touches_modify ..) (.refl _)
    | emit x tok due hdue =>
      obtain ⟨now, he⟩ := Scheduler.emit_ok env p.sched x tok
      refine hkeep (by rw [Scheduler.emit_metrics]; exact .refl _) fun r hr => ?_
      simpa only [placed, held, he.waiting, he.running] using hr
    | join hdue =>
      refine hkeep (.refl _) fun r hr => ?_
      simp only [placed, held, List.mem_append, List.not_mem_nil, or_false] at hr ⊢
      grind
    | grow x hidle hx hfin => exact .touches (p.sched.appendSlot_touches x).2 (.refl _)
    | preempt s' x hidle hx hfin hpre hpr =>
      obtain ⟨q, hq⟩ := Scheduler.preempt_ok hpr
      refine hkeep (Scheduler.preempt_books hpr) fun r hr => ?_
      simp only [placed, held, hq.waiting, hgood.placed.preempted_running hx hq, List.mem_append,
        List.mem_singleton] at hr ⊢
      by_cases hrx : r = x
      · exact Or.inl (Or.inr (Or.inr hrx))
      · simp only [List.mem_erase_of_ne hrx]
        grind
    | decode s' batch rows nxt hidle hnd hrun hfin hcov hrows hf =>
      obtain ⟨w, -, rfl⟩ := Scheduler.stepTokens_ok hf
      exact hkeep (.refl _) fun r hr => hr
    | clock => exact hkeep (.refl _) fun r hr => hr
    | count met owed hcount => exact hkeep hcount.sameBooks fun r hr => hr

/-! ## What is recorded -/

/-- What a request leaves in the books when it leaves. -/
theorem Scheduler.leave_books {s s' : Scheduler σ} {r : Ref} (h : s.leave r = .ok s')
    (hfin : (s.heap r).finished = true) :
    s'.heap = Function.update s.heap r { s.heap r with state := .finished, blockTable := [] } ∧
      ((s.heap r).Served ∧
          s.metrics.recordRequest (s.heap r) = .ok s'.metrics ∨
        ¬(s.heap r).Served ∧ s'.metrics = s.metrics) := by
  obtain ⟨s₁, hfree, hrest⟩ := exists_of_bind_ok h
  obtain ⟨⟨man, q⟩, hm, he⟩ := exists_of_bind_ok hfree
  cases he
  rw [(touches_modify ..).self] at hm
  obtain ⟨rfl, -⟩ := Manager.free_ok hm
  have hheap : Function.update (s.modify r fun q => { q with state := .finished }).heap r
      { s.heap r with state := .finished, blockTable := [] } =
        Function.update s.heap r { s.heap r with state := .finished, blockTable := [] } :=
    Function.update_idem ..
  split at hrest
  · next hc =>
    simp only [Function.update_self] at hc
    obtain ⟨met, hmet, rfl⟩ := recordRequest_ok hrest
    simp only [Function.update_self] at hmet
    exact ⟨hheap, Or.inl ⟨(Request.served_iff hfin).mpr hc, hmet⟩⟩
  · next hc =>
    simp only [Function.update_self] at hc
    cases hrest
    exact ⟨hheap, Or.inr ⟨fun hs => hc ((Request.served_iff hfin).mp hs), rfl⟩⟩

/-- What `record_request` writes. -/
theorem EngineMetrics.recordRequest_ok {met met' : EngineMetrics} {q : Request}
    (h : met.recordRequest q = .ok met') : ∃ rec, requestMetrics q = .ok rec ∧
      met'.requests = met.requests ++ [rec] ∧
      met'.tokensOut = met.tokensOut + q.outputTokenIds.length := by
  obtain ⟨rec, hrec, he⟩ := exists_of_bind_ok h
  cases he
  exact ⟨rec, hrec, rfl, rfl⟩

/-- A request that has left was gone before, unless it left in this step. -/
theorem gone_of_gone (hop : Op env cfg adm p p') (hgood : Good cfg m p) {r : Ref}
    (hg : p'.phase r = .gone) (hstay : r ∈ p.placed → r ∈ p'.placed) : p.phase r = .gone := by
  by_cases hr : r ∈ p.placed
  · exact absurd (hstay hr) (notMem_placed_of_gone (hgood.op hop).placed hg)
  · by_cases hlt : r < p.sched.next
    · exact phase_gone hr hlt
    · -- nobody leaves before it was built
      have hab : (p.view r).phase = .absent := phase_absent hgood.placed hlt
      have hdue := (hgood.facts r).ending.not_due (by simp [hab]) (by simp [hab])
      have hg' : (p'.view r).phase = .gone := hg
      have hmv := op_move hop hgood.placed hgood.shape r
      generalize p'.view r = v' at hmv hg'
      cases hmv with
      | stay | cancel => exact hg'
      | emit now tok hd => cases hdue.symm.trans hd
      | drop hphase | leave hphase => cases hab.symm.trans hphase
      | abort now hphase | grow blocks hphase | setRunning hphase =>
        cases hab.symm.trans hphase
      | create | submit | admitHead | prefill | join | preempt => cases hg'
      | decode tok hphase => cases hab.symm.trans hphase

/-- The record of a request that left stays as it is. -/
theorem gone_record (hop : Op env cfg adm p p') (hgood : Good cfg m p) {r : Ref}
    (hg : p.phase r = .gone) : p'.phase r = .gone ∧
      ((p'.sched.heap r).Served ↔ (p.sched.heap r).Served) ∧
      requestMetrics (p'.sched.heap r) = requestMetrics (p.sched.heap r) ∧
      (p'.sched.heap r).outputTokenIds = (p.sched.heap r).outputTokenIds := by
  obtain ⟨hg', -, hreq⟩ := gone_move (op_move hop hgood.placed hgood.shape r)
    (hgood.facts r).ending hg
  refine ⟨hg', ?_⟩
  rcases hreq with he | he
  · rw [show p'.sched.heap r = _ from he]
    exact ⟨Iff.rfl, rfl, rfl⟩
  · rw [show p'.sched.heap r = _ from he]
    exact ⟨Iff.rfl, rfl, rfl⟩

/-- A step in which nobody is recorded. -/
theorem Books.unrecorded {served : List Ref} (h : Books served p) (hop : Op env cfg adm p p')
    (hgood : Good cfg m p) (books : p.sched.metrics.SameBooks p'.sched.metrics)
    (stay : ∀ r ∈ p.placed, r ∈ p'.placed ∨ ¬(p'.sched.heap r).Served) : Books served p' := by
  have hgone : ∀ r ∈ served, p.phase r = .gone := fun r hr => ((h.mem r).mp hr).1
  refine ⟨h.nodup, fun r => ?_, ?_, ?_⟩
  · constructor
    · intro hr
      obtain ⟨hg, hs⟩ := (h.mem r).mp hr
      obtain ⟨hg', hs', -⟩ := gone_record hop hgood hg
      exact ⟨hg', hs'.mpr hs⟩
    · rintro ⟨hg', hs'⟩
      have hg := gone_of_gone hop hgood hg' fun hr => (stay r hr).resolve_right fun hn => hn hs'
      exact (h.mem r).mpr ⟨hg, (gone_record hop hgood hg).2.1.mp hs'⟩
  · rw [books.1, ← h.records]
    exact List.map_congr_left fun r hr => (gone_record hop hgood (hgone r hr)).2.2.1
  · rw [books.2, h.tokens]
    have hlen : served.map (fun r => (p'.sched.heap r).outputTokenIds.length) =
        served.map fun r => (p.sched.heap r).outputTokenIds.length :=
      List.map_congr_left fun r hr => congrArg _ (gone_record hop hgood (hgone r hr)).2.2.2
    rw [hlen]

/-- A step in which a served request leaves. -/
theorem Books.recorded {served : List Ref} {x : Ref} (h : Books served p) (hop : Op env cfg adm p p')
    (hgood : Good cfg m p) (hrun : p.phase x = .running) (hgone : p'.phase x = .gone)
    (hstay : ∀ y ≠ x, y ∈ p.placed → y ∈ p'.placed)
    (hself : p'.sched.heap x = { p.sched.heap x with state := .finished, blockTable := [] })
    (hserved : (p.sched.heap x).Served)
    (hrec : p.sched.metrics.recordRequest (p.sched.heap x) = .ok p'.sched.metrics) :
    Books (served ++ [x]) p' := by
  obtain ⟨rec, hreq, hrequests, htokens⟩ := EngineMetrics.recordRequest_ok hrec
  have hxout : x ∉ served := fun hmem => by cases hrun.symm.trans ((h.mem x).mp hmem).1
  have hold : ∀ y ∈ served, p'.phase y = .gone ∧
      ((p'.sched.heap y).Served ↔ (p.sched.heap y).Served) ∧
      requestMetrics (p'.sched.heap y) = requestMetrics (p.sched.heap y) ∧
      (p'.sched.heap y).outputTokenIds = (p.sched.heap y).outputTokenIds := fun y hy =>
    gone_record hop hgood ((h.mem y).mp hy).1
  refine ⟨?_, fun y => ?_, ?_, ?_⟩
  · exact List.nodup_append.mpr ⟨h.nodup, List.nodup_singleton x, fun y hy z hz => by
      rw [List.mem_singleton.mp hz]
      rintro rfl
      exact hxout hy⟩
  · rw [List.mem_append, List.mem_singleton]
    constructor
    · rintro (hy | rfl)
      · exact ⟨(hold y hy).1, (hold y hy).2.1.mpr ((h.mem y).mp hy).2⟩
      · rw [hself]
        exact ⟨hgone, hserved⟩
    · rintro ⟨hg', hs'⟩
      by_cases hyx : y = x
      · exact Or.inr hyx
      · have hg := gone_of_gone hop hgood hg' (hstay y hyx)
        exact Or.inl ((h.mem y).mpr ⟨hg, (gone_record hop hgood hg).2.1.mp hs'⟩)
  · have hreq' : requestMetrics (p'.sched.heap x) = .ok rec := by
      rw [hself]
      exact hreq
    have hmap : served.map (fun r => requestMetrics (p'.sched.heap r)) =
        served.map fun r => requestMetrics (p.sched.heap r) :=
      List.map_congr_left fun y hy => (hold y hy).2.2.1
    rw [List.map_append, hmap, h.records, List.map_singleton, hreq', hrequests, List.map_append,
      List.map_singleton]
  · have hmap : served.map (fun r => (p'.sched.heap r).outputTokenIds.length) =
        served.map fun r => (p.sched.heap r).outputTokenIds.length :=
      List.map_congr_left fun y hy => congrArg _ (hold y hy).2.2.2
    rw [List.map_append, hmap, List.map_singleton, hself, List.sum_append, List.sum_singleton,
      ← h.tokens]
    exact htokens

/-- A small step records the request that leaves, if a token finished it. -/
theorem books_op {served : List Ref} (hop : Op env cfg adm p p') (hgood : Good cfg m p)
    (h : Books served p) : ∃ served', served <+: served' ∧ Books served' p' := by
  cases departure_op hop hgood with
  | unrecorded books stay => exact ⟨served, List.prefix_refl _, h.unrecorded hop hgood books stay⟩
  | leave s' pre post x hidle hx hfin hl hp' =>
    obtain ⟨hheap, hrec⟩ := Scheduler.leave_books hl hfin
    obtain ⟨q, -, ht⟩ := Scheduler.leave_ok hl
    have hperm : p.placed.Perm (x :: p'.placed) := by
      rw [hp']
      simp only [placed, held, hidle.1, hidle.2.1, hx, ht.waiting, List.nil_append]
      exact (List.perm_middle.append_left _).trans List.perm_middle
    have hstay : ∀ y ≠ x, y ∈ p.placed → y ∈ p'.placed := fun y hy hmem =>
      (List.mem_cons.mp (hperm.mem_iff.mp hmem)).resolve_left hy
    have hself : p'.sched.heap x =
        { p.sched.heap x with state := .finished, blockTable := [] } := by
      rw [hp']
      show s'.heap x = _
      rw [hheap, Function.update_self]
    rcases hrec with ⟨hserved, hrec⟩ | ⟨hno, hmet⟩
    · have hrun : p.phase x = .running := phase_running hgood.placed (by simp [hx])
      have hgone : p'.phase x = .gone := by
        refine phase_gone (List.nodup_cons.mp (hperm.nodup_iff.mp hgood.placed.nodup)).1 ?_
        rw [hp']
        show x < s'.next
        rw [ht.next]
        exact hgood.placed.lt_next x (hperm.mem_iff.mpr List.mem_cons_self)
      refine ⟨served ++ [x], List.prefix_append _ _,
        h.recorded hop hgood hrun hgone hstay hself hserved ?_⟩
      rw [hp']
      exact hrec
    · -- a cancelled request leaves without a record
      refine ⟨served, List.prefix_refl _, h.unrecorded hop hgood ?_ fun y hy => ?_⟩
      · rw [hp']
        exact ⟨congrArg _ hmet, congrArg _ hmet⟩
      · by_cases hyx : y = x
        · refine Or.inr ?_
          rw [hyx, hself]
          exact hno
        · exact Or.inl (hstay y hyx hy)

theorem books_ops {served : List Ref} (hops : Ops env cfg adm p p') (hgood : Good cfg m p)
    (h : Books served p) : ∃ served', served <+: served' ∧ Books served' p' := by
  induction hops with
  | refl => exact ⟨served, List.prefix_refl _, h⟩
  | tail hfirst hop ih =>
    obtain ⟨served₁, hpre₁, h₁⟩ := ih
    obtain ⟨served₂, hpre₂, h₂⟩ := books_op hop (hgood.ops hfirst) h₁
    exact ⟨served₂, hpre₁.trans hpre₂, h₂⟩

theorem books_init (cfg : EngineConfig) (m : Manager) (w : σ) :
    Books [] (rest (.init cfg m w) []) where
  nodup := List.nodup_nil
  mem := fun _ => ⟨nofun, fun h => nomatch h.1⟩
  records := rfl
  tokens := rfl

/-! ## What a small step writes -/

theorem EngineMetrics.recordRequest_lines {met met' : EngineMetrics} {q : Request}
    (h : met.recordRequest q = .ok met') : ∃ r, requestMetrics q = .ok r ∧
      met' = (recordRequestLines r).foldl EngineMetrics.write met := by
  obtain ⟨r, hr, he⟩ := exists_of_bind_ok h
  cases he
  refine ⟨r, hr, ?_⟩
  unfold requestMetrics at hr
  split at hr <;> cases hr
  rfl

inductive Writes (env : Env σ) (p p' : Point σ) : Prop where
  | same (h : p'.sched.metrics = p.sched.metrics)
  | request (r : RequestMetrics)
      (h : p'.sched.metrics = (recordRequestLines r).foldl EngineMetrics.write p.sched.metrics)
  | preempt (h : p'.sched.metrics = p.sched.metrics.write .preemptions)
  | count (owed : List Owed) (h : Counts env p p'.sched.metrics owed)

theorem stepOp_writes (h : StepOp env cfg adm p p') : Writes env p p' := by
  cases h with
  | markCancelled r hidle hr => exact .same (Scheduler.markCancelled_metrics ..)
  | leave s' pre post r hidle hr hfin hl =>
    rcases (Scheduler.leave_books hl hfin).2 with ⟨-, hmet⟩ | ⟨-, hmet⟩
    · obtain ⟨rec, -, hmet⟩ := EngineMetrics.recordRequest_lines hmet
      exact .request rec hmet
    · exact .same hmet
  | admitHead s' r tail hbatch hdue hw hsorted hroom hcan hadm ha =>
    have hmet := Scheduler.allocate_metrics ha
    exact .same hmet
  | prefill s' batch rest nxt hbatch hdue hp hf =>
    obtain ⟨w, -, rfl⟩ := Scheduler.stepTokens_ok hf
    exact .same rfl
  | emit r tok due hdue => exact .same (Scheduler.emit_metrics ..)
  | preempt s' r hidle hr hfin hpre hp => exact .preempt (Scheduler.preempt_metrics hp)
  | decode s' batch rows nxt hidle hnd hrun hfin hcov hrows hf =>
    obtain ⟨w, -, rfl⟩ := Scheduler.stepTokens_ok hf
    exact .same rfl
  | count met owed hcount => exact .count owed hcount
  | _ => exact .same rfl

end LlmServe
