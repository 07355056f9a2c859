import LlmServe.Spec.Runs

/-!
# Who is served before a waiting request

Fix a request `r` that waits at some moment, and the set `S` of those running or ahead of it in the
queue then. `Queued` says what stays true until `r` is admitted: only members of `S` hold memory or
have been admitted, and every other waiting request is behind `r`. An eviction moves a member of
`S` to the queue, perhaps ahead of `r`, perhaps behind; a newcomer has never been evicted and
arrives later, so it is behind.
-/

namespace LlmServe

open Infra Point

variable {σ : Type} {env : Env σ} {cfg : EngineConfig} {adm : Point σ → Ref → Prop} {m : Manager}

/-! ## Admission numbers -/

/-- Only an admission writes `admit_seq`, with a number no request had before. -/
theorem stepOp_admitSeq {p p' : Point σ} (hop : StepOp env cfg adm p p') :
    p.sched.admitCounter ≤ p'.sched.admitCounter ∧ ∀ q,
      (p'.sched.heap q).admitSeq = (p.sched.heap q).admitSeq ∨
        (p'.sched.heap q).admitSeq = p.sched.admitCounter ∧
          p.sched.admitCounter < p'.sched.admitCounter := by
  have hkeep : ∀ {heap : Ref → Request} {x : Ref} {q : Request}, q.admitSeq = (heap x).admitSeq →
      ∀ r, (Function.update heap x q r).admitSeq = (heap r).admitSeq := fun h r =>
    apply_update Request.admitSeq h r
  cases hop with
  | markCancelled x hidle hx =>
    rcases Scheduler.markCancelled_cases env p.sched x with he | ⟨-, -, -, now, ht⟩
    · exact ⟨by rw [he], fun q => Or.inl (by rw [he])⟩
    · exact ⟨ht.admitCounter.ge, fun q => Or.inl (ht.heap ▸ hkeep (by rfl) q)⟩
  | leave s' pre post x hidle hx hfin hl =>
    obtain ⟨q, hfree, ht⟩ := Scheduler.leave_ok hl
    obtain ⟨rfl, -⟩ := Manager.free_ok hfree
    exact ⟨ht.admitCounter.ge, fun q => Or.inl (ht.heap ▸ hkeep (by rfl) q)⟩
  | admitHead s' x tail hbatch hdue hw hsorted hroom hcan hadm ha =>
    obtain ⟨q, hq⟩ := Scheduler.stampAdmit_admitted ha
    obtain ⟨blocks, rfl, -⟩ := Manager.allocate_ok hq.allocate
    refine ⟨by rw [hq.admitCounter]; exact Nat.le_succ _, fun r => ?_⟩
    rw [hq.heap, hq.admitCounter]
    by_cases hr : r = x
    · subst hr
      exact Or.inr ⟨by rw [Function.update_self], Nat.lt_succ_self _⟩
    · exact Or.inl (by rw [Function.update_of_ne hr])
  | prefill s' batch rest nxt hbatch hdue hp hf =>
    obtain ⟨w, -, rfl⟩ := Scheduler.stepTokens_ok hf
    exact ⟨le_rfl, fun _ => Or.inl rfl⟩
  | setRunning x hx => exact ⟨le_rfl, fun q => Or.inl (hkeep (by rfl) q)⟩
  | emit x tok due hdue =>
    obtain ⟨now, he⟩ := Scheduler.emit_ok env p.sched x tok
    exact ⟨he.admitCounter.ge, fun q =>
      Or.inl (he.heap ▸ hkeep (Request.emit_admitSeq ..) q)⟩
  | grow x hidle hx hfin =>
    obtain ⟨blocks, hq, -⟩ := p.sched.manager.appendSlot_spec (p.sched.heap x)
    have ht := (p.sched.appendSlot_touches x).2
    exact ⟨ht.admitCounter.ge, fun q => Or.inl (ht.heap ▸ hkeep (by rw [hq]) q)⟩
  | preempt s' x hidle hx hfin hpre hp =>
    obtain ⟨q, hq⟩ := Scheduler.preempt_ok hp
    obtain ⟨rfl, -⟩ := Manager.free_ok hq.free
    exact ⟨hq.admitCounter.ge, fun q => Or.inl (hq.heap ▸ hkeep (by rfl) q)⟩
  | decode s' batch rows nxt hidle hnd hrun hfin hcov hrows hf =>
    obtain ⟨w, -, rfl⟩ := Scheduler.stepTokens_ok hf
    exact ⟨le_rfl, fun _ => Or.inl rfl⟩
  | _ => exact ⟨le_rfl, fun _ => Or.inl rfl⟩

theorem stepOps_admitSeq {p p' : Point σ} (hops : StepOps env cfg adm p p') :
    p.sched.admitCounter ≤ p'.sched.admitCounter ∧ ∀ (q : Ref) (c : Nat),
      c ≤ p.sched.admitCounter → (c : Int) ≤ (p.sched.heap q).admitSeq →
      (c : Int) ≤ (p'.sched.heap q).admitSeq := by
  induction hops with
  | refl => exact ⟨le_rfl, fun _ _ _ h => h⟩
  | tail _ hop ih =>
    obtain ⟨hle, ih⟩ := ih
    obtain ⟨hle', hseq⟩ := stepOp_admitSeq hop
    refine ⟨hle.trans hle', fun q c hc hq => ?_⟩
    have hq' := ih q c hc hq
    rcases hseq q with he | ⟨he, -⟩ <;> rw [he]
    · exact hq'
    · omega

/-- The counter is past every number it has handed out. -/
def Stamped (p : Point σ) : Prop := ∀ q, (p.sched.heap q).admitSeq < p.sched.admitCounter

theorem stamped_op {p p' : Point σ} (h : Stamped p) (hop : Op env cfg adm p p') : Stamped p' := by
  intro q
  have hq := h q
  cases hop with
  | step hop =>
    obtain ⟨hle, hseq⟩ := stepOp_admitSeq hop
    rcases hseq q with he | ⟨he, hlt⟩ <;> rw [he] <;> omega
  | cancel r hr =>
    show (Function.update p.sched.heap r _ q).admitSeq < _
    rw [apply_update Request.admitSeq (by rfl) q]
    exact hq
  | create n =>
    show (Function.update p.sched.heap p.sched.next n.toRequest q).admitSeq
      < (p.sched.admitCounter : Int)
    by_cases hn : q = p.sched.next
    · rw [hn, Function.update_self]
      show (-1 : Int) < _
      omega
    · rwa [Function.update_of_ne hn]
  | submit pre post r hidle hin =>
    show (Function.update p.sched.heap r _ q).admitSeq < _
    rw [apply_update Request.admitSeq (by rfl) q]
    exact hq

theorem stamped_ops {p p' : Point σ} (h : Stamped p) (hops : Ops env cfg adm p p') : Stamped p' := by
  have hstep : ∀ x y, Op env cfg adm x y → Stamped x → Stamped y := fun _ _ hop hx =>
    stamped_op hx hop
  exact reach_invariant hstep hops h

theorem stamped_init (cfg : EngineConfig) (m : Manager) (w : σ) :
    Stamped (rest (.init cfg m w) []) := fun _ => by
  show (-1 : Int) < 0
  decide

/-! ## The queue -/

/-- `q` is served after `r`, by its key or, among equal keys, by its place in `waiting`. -/
def Behind (p : Point σ) (r q : Ref) : Prop :=
  Scheduler.waitingKey (p.sched.heap r) < Scheduler.waitingKey (p.sched.heap q) ∨
    Scheduler.waitingKey (p.sched.heap r) = Scheduler.waitingKey (p.sched.heap q) ∧
      [r, q].Sublist p.sched.waiting

/-- What is true while `r` waits; `S` are those ahead of it and `c` the counter when it began. -/
structure Queued (S : List Ref) (c : Nat) (r : Ref) (p : Point σ) : Prop where
  waits : r ∈ p.sched.waiting
  held : ∀ q ∈ p.held, q ∈ S
  admitted : ∀ q, (c : Int) ≤ (p.sched.heap q).admitSeq → q ∈ S
  behind : ∀ q ∈ p.sched.waiting, q ∉ S → q ≠ r → Behind p r q

variable {S : List Ref} {c : Nat} {r : Ref} {p p' : Point σ}

theorem waitingKey_update {heap : Ref → Request} {x : Ref} {q : Request}
    (hcount : q.preemptCount = (heap x).preemptCount) (harr : q.arrivalTime = (heap x).arrivalTime)
    (y : Ref) : Scheduler.waitingKey (Function.update heap x q y) = Scheduler.waitingKey (heap y) := by
  refine apply_update Scheduler.waitingKey ?_ y
  unfold Scheduler.waitingKey
  rw [hcount, harr]

theorem Behind.of_eq {q : Ref} (h : Behind p r q)
    (hr : Scheduler.waitingKey (p'.sched.heap r) = Scheduler.waitingKey (p.sched.heap r))
    (hq : Scheduler.waitingKey (p'.sched.heap q) = Scheduler.waitingKey (p.sched.heap q))
    (hw : [r, q].Sublist p.sched.waiting → [r, q].Sublist p'.sched.waiting) : Behind p' r q := by
  unfold Behind
  rw [hr, hq]
  exact h.imp_right fun ⟨he, hs⟩ => ⟨he, hw hs⟩

/-- A step that leaves `waiting`, its keys and the admission numbers alone. -/
theorem Queued.of_eq (h : Queued S c r p) (hw : p'.sched.waiting = p.sched.waiting)
    (hheld : ∀ q ∈ p'.held, q ∈ p.held)
    (hseq : ∀ q, (p'.sched.heap q).admitSeq = (p.sched.heap q).admitSeq)
    (hkey : ∀ q, Scheduler.waitingKey (p'.sched.heap q) = Scheduler.waitingKey (p.sched.heap q)) :
    Queued S c r p' where
  waits := hw ▸ h.waits
  held := fun q hq => h.held q (hheld q hq)
  admitted := fun q hq => h.admitted q (hseq q ▸ hq)
  behind := fun q hq hS hne =>
    (h.behind q (hw ▸ hq) hS hne).of_eq (hkey r) (hkey q) fun hs => hw ▸ hs

theorem held_touches {s' : Scheduler σ} {x : Ref} {q : Request} (ht : p.sched.Touches s' x q) :
    ({ p with sched := s' } : Point σ).held = p.held := by
  simp only [Point.held, ht.running]

/-- An assignment to one object that keeps its place in the order. -/
theorem Queued.touches (h : Queued S c r p) {s' : Scheduler σ} {x : Ref} {q : Request}
    (ht : p.sched.Touches s' x q) (hseq : q.admitSeq = (p.sched.heap x).admitSeq)
    (hcount : q.preemptCount = (p.sched.heap x).preemptCount)
    (harr : q.arrivalTime = (p.sched.heap x).arrivalTime) :
    Queued S c r { p with sched := s' } := by
  refine h.of_eq ht.waiting (fun y hy => ?_) (fun y => ?_) fun y => ?_
  · rwa [held_touches ht] at hy
  · show (s'.heap y).admitSeq = _
    rw [ht.heap]
    exact apply_update Request.admitSeq hseq y
  · show Scheduler.waitingKey (s'.heap y) = _
    rw [ht.heap]
    exact waitingKey_update hcount harr y

/-- **The next request admitted belongs to `S`**, unless it is `r`. -/
theorem Queued.head_mem (h : Queued S c r p) (hp : Placed cfg p) {x : Ref} {tail : List Ref}
    (hw : p.sched.waiting = x :: tail)
    (hsorted : p.sched.waiting.Pairwise fun a b =>
      Scheduler.waitingKey (p.sched.heap a) ≤ Scheduler.waitingKey (p.sched.heap b))
    (hx : x ≠ r) : x ∈ S := by
  have hr : r ∈ tail := (List.mem_cons.mp (hw ▸ h.waits)).resolve_left hx.symm
  by_contra hS
  rcases h.behind x (by simp [hw]) hS hx with hlt | ⟨-, hs⟩
  · rw [hw] at hsorted
    exact absurd ((List.pairwise_cons.mp hsorted).1 r hr) hlt.not_ge
  · have hnd := hp.waiting_nodup
    rw [hw] at hnd hs
    exact not_pair_sublist_head hnd hs

/-! ## What a small step does to the queue -/

/-- The queue, its keys and the admission numbers are as they were. -/
structure SameQueue (p p' : Point σ) : Prop where
  waiting : p'.sched.waiting = p.sched.waiting
  held : ∀ q ∈ p'.held, q ∈ p.held
  seq : ∀ q, (p'.sched.heap q).admitSeq = (p.sched.heap q).admitSeq
  key : ∀ q, Scheduler.waitingKey (p'.sched.heap q) = Scheduler.waitingKey (p.sched.heap q)

theorem SameQueue.touches {s' : Scheduler σ} {x : Ref} {q : Request} (ht : p.sched.Touches s' x q)
    (hseq : q.admitSeq = (p.sched.heap x).admitSeq)
    (hcount : q.preemptCount = (p.sched.heap x).preemptCount)
    (harr : q.arrivalTime = (p.sched.heap x).arrivalTime) : SameQueue p { p with sched := s' } where
  waiting := ht.waiting
  held := fun y hy => by rwa [held_touches ht] at hy
  seq := fun y => by
    show (s'.heap y).admitSeq = _
    rw [ht.heap]
    exact apply_update Request.admitSeq hseq y
  key := fun y => by
    show Scheduler.waitingKey (s'.heap y) = _
    rw [ht.heap]
    exact waitingKey_update hcount harr y

/-- The five things a small step can do to the queue. -/
inductive QueueStep (p p' : Point σ) : Prop where
  | same (h : SameQueue p p')
  | dropCancelled (heap : p'.sched.heap = p.sched.heap) (held : p'.held = p.held)
      (waiting : p'.sched.waiting = p.sched.waiting.filter fun r => !(p.sched.heap r).cancelled)
  | sort (heap : p'.sched.heap = p.sched.heap) (held : p'.held = p.held)
      (waiting : p'.sched.waiting = Scheduler.sortWaiting p.sched.heap p.sched.waiting)
  | admitHead (x : Ref) (tail : List Ref) (hw : p.sched.waiting = x :: tail)
      (hsorted : p.sched.waiting.Pairwise fun a b =>
        Scheduler.waitingKey (p.sched.heap a) ≤ Scheduler.waitingKey (p.sched.heap b))
      (hseq : (p'.sched.heap x).admitSeq = p.sched.admitCounter)
      (hother : ∀ y, y ≠ x → p'.sched.heap y = p.sched.heap y)
      (held : ∀ q ∈ p'.held, q = x ∨ q ∈ p.held) (waiting : p'.sched.waiting = tail)
  | preempt (x : Ref) (hx : x ∈ p.held)
      (hseq : ∀ q, (p'.sched.heap q).admitSeq = (p.sched.heap q).admitSeq)
      (hother : ∀ y, y ≠ x → p'.sched.heap y = p.sched.heap y)
      (held : ∀ q ∈ p'.held, q ∈ p.held) (waiting : p'.sched.waiting = p.sched.waiting ++ [x])

theorem stepOp_queue (hop : StepOp env cfg adm p p') (hp : Placed cfg p) : QueueStep p p' := by
  cases hop with
  | dropCancelled hidle => exact .dropCancelled rfl rfl rfl
  | sort hidle => exact .sort rfl rfl rfl
  | markCancelled x hidle hx =>
    rcases Scheduler.markCancelled_cases env p.sched x with he | ⟨-, -, -, now, ht⟩
    · rw [he]
      exact .same ⟨rfl, fun _ hq => hq, fun _ => rfl, fun _ => rfl⟩
    · exact .same (.touches ht rfl rfl rfl)
  | leave s' pre post x hidle hx hfin hl =>
    obtain ⟨q, hfree, ht⟩ := Scheduler.leave_ok hl
    obtain ⟨rfl, -⟩ := Manager.free_ok hfree
    have hsame := SameQueue.touches ht rfl rfl rfl
    refine .same ⟨hsame.waiting, fun y hy => ?_, hsame.seq, hsame.key⟩
    have hsub : pre ++ post ⊆ p.sched.running := by
      rw [hx]
      intro z hz
      simp only [List.mem_append, List.mem_cons] at hz ⊢
      exact hz.imp_right Or.inr
    simp only [Point.held, List.mem_append] at hy ⊢
    exact hy.imp_right fun hy => hsub (List.mem_append.mpr hy)
  | admitHead s' x tail hbatch hdue hw hsorted hroom hcan hadm ha =>
    obtain ⟨q, hq⟩ := Scheduler.stampAdmit_admitted ha
    refine .admitHead x tail hw hsorted ?_ (fun y hy => ?_) (fun y hy => ?_) hq.waiting
    · show ((s'.stampAdmit x).heap x).admitSeq = _
      rw [hq.heap, Function.update_self]
    · show (s'.stampAdmit x).heap y = _
      rw [hq.heap, Function.update_of_ne hy]
    · by_cases hyx : y = x
      · exact Or.inl hyx
      · refine Or.inr ?_
        simp only [Point.held, hq.running, List.mem_append, List.mem_singleton, hyx,
          or_false] at hy ⊢
        exact hy
  | prefill s' batch rest nxt hbatch hdue hpop hf =>
    obtain ⟨w, -, rfl⟩ := Scheduler.stepTokens_ok hf
    refine .same ⟨rfl, fun y hy => ?_, fun _ => rfl, fun _ => rfl⟩
    simp only [Point.held, hpop, hbatch, List.mem_append] at hy ⊢
    grind
  | setRunning x hx => exact .same (.touches (Scheduler.touches_modify ..) rfl rfl rfl)
  | emit x tok due hdue =>
    obtain ⟨now, he⟩ := Scheduler.emit_ok env p.sched x tok
    refine .same ⟨he.waiting, fun y hy => ?_, fun y => ?_, fun y => ?_⟩
    · simpa only [Point.held, he.running] using hy
    · show ((p.sched.emit env x tok).heap y).admitSeq = _
      rw [he.heap]
      exact apply_update Request.admitSeq (Request.emit_admitSeq ..) y
    · show Scheduler.waitingKey ((p.sched.emit env x tok).heap y) = _
      rw [he.heap]
      exact waitingKey_update (Request.emit_preemptCount ..) (Request.emit_arrivalTime ..) y
  | join hdue =>
    refine .same ⟨rfl, fun y hy => ?_, fun _ => rfl, fun _ => rfl⟩
    simp only [Point.held, List.mem_append] at hy ⊢
    simp only [List.not_mem_nil, or_false] at hy
    grind
  | grow x hidle hx hfin =>
    obtain ⟨blocks, hq, -⟩ := p.sched.manager.appendSlot_spec (p.sched.heap x)
    have ht := (p.sched.appendSlot_touches x).2
    rw [hq] at ht
    exact .same (.touches ht rfl rfl rfl)
  | preempt s' x hidle hx hfin hpre hpr =>
    obtain ⟨q, hq⟩ := Scheduler.preempt_ok hpr
    obtain ⟨rfl, -⟩ := Manager.free_ok hq.free
    refine .preempt x (mem_held_of_running hx) (fun y => ?_) (fun y hy => ?_) (fun y hy => ?_)
      hq.waiting
    · show (s'.heap y).admitSeq = _
      rw [hq.heap]
      exact apply_update Request.admitSeq (by rfl) y
    · show s'.heap y = _
      rw [hq.heap, Function.update_of_ne hy]
    · simp only [Point.held, hidle.1, hidle.2.1, hp.preempted_running hx hq,
        List.nil_append] at hy ⊢
      exact List.mem_of_mem_erase hy
  | decode s' batch rows nxt hidle hnd hrun hfin hcov hrows hf =>
    obtain ⟨w, -, rfl⟩ := Scheduler.stepTokens_ok hf
    exact .same ⟨rfl, fun _ hq => hq, fun _ => rfl, fun _ => rfl⟩
  | clock => exact .same ⟨rfl, fun _ hq => hq, fun _ => rfl, fun _ => rfl⟩
  | count => exact .same ⟨rfl, fun _ hq => hq, fun _ => rfl, fun _ => rfl⟩

/-- The filter of `_retire` keeps the order of what it keeps. -/
theorem pair_sublist_drop {a b : Ref} (hw : p'.sched.waiting =
      p.sched.waiting.filter fun r => !(p.sched.heap r).cancelled)
    (ha : (p.sched.heap a).cancelled = false) (hb : (p.sched.heap b).cancelled = false)
    (hs : [a, b].Sublist p.sched.waiting) : [a, b].Sublist p'.sched.waiting := by
  have hfilter := hs.filter fun r => !(p.sched.heap r).cancelled
  rwa [List.filter_eq_self.mpr (by simp [ha, hb]), ← hw] at hfilter

/-- An admission keeps the order of those that stay. -/
theorem pair_sublist_tail {a b x : Ref} {tail : List Ref} (hw : p.sched.waiting = x :: tail)
    (hw' : p'.sched.waiting = tail) (ha : a ≠ x) (hs : [a, b].Sublist p.sched.waiting) :
    [a, b].Sublist p'.sched.waiting := by
  rw [hw] at hs
  rw [hw']
  cases hs with
  | cons _ hs => exact hs
  | cons_cons _ hs => exact absurd rfl ha

/-- What `r` waits for stays ahead of it, as long as `r` is not admitted. -/
theorem queued_stepOp (hop : StepOp env cfg adm p p') (hp : Placed cfg p) (h : Queued S c r p)
    (hopen : (p.sched.heap r).cancelled = false) (hc : c ≤ p.sched.admitCounter)
    (hwait : (p'.sched.heap r).admitSeq < c) : Queued S c r p' := by
  have hnot : ∀ x ∈ p.held, x ≠ r := by
    rintro x hx rfl
    exact hp.notMem_held_of_waiting h.waits hx
  cases stepOp_queue hop hp with
  | same hsame => exact h.of_eq hsame.waiting hsame.held hsame.seq hsame.key
  | dropCancelled hheap hheld hw =>
    refine ⟨?_, hheld ▸ h.held, hheap ▸ h.admitted, fun q hq hS hne => ?_⟩
    · rw [hw]
      exact List.mem_filter.mpr ⟨h.waits, by simp [hopen]⟩
    · rw [hw] at hq
      obtain ⟨hqw, hqc⟩ := List.mem_filter.mp hq
      exact (h.behind q hqw hS hne).of_eq (by rw [hheap]) (by rw [hheap])
        (pair_sublist_drop hw hopen (by simpa using hqc))
  | sort hheap hheld hw =>
    have hmem : ∀ q, q ∈ p'.sched.waiting ↔ q ∈ p.sched.waiting := fun q => by
      rw [hw]
      exact mem_sortKey _
    refine ⟨(hmem r).mpr h.waits, hheld ▸ h.held, hheap ▸ h.admitted, fun q hq hS hne => ?_⟩
    unfold Behind
    rw [hheap, hw]
    rcases h.behind q ((hmem q).mp hq) hS hne with hlt | ⟨he, hs⟩
    · exact Or.inl hlt
    · exact Or.inr ⟨he, pair_sublist_sortKey _ he.le hs⟩
  | admitHead x tail hw hsorted hseq hother hheld hw' =>
    have hx : x ≠ r := by
      -- `r` would have the next number
      rintro rfl
      omega
    have hxS := h.head_mem hp hw hsorted hx
    refine ⟨?_, fun y hy => ?_, fun y hy => ?_, fun y hy hS hne => ?_⟩
    · rw [hw']
      exact (List.mem_cons.mp (hw ▸ h.waits)).resolve_left hx.symm
    · rcases hheld y hy with rfl | hy
      · exact hxS
      · exact h.held y hy
    · by_cases hyx : y = x
      · rwa [hyx]
      · exact h.admitted y (hother y hyx ▸ hy)
    · have hyx : y ≠ x := by
        rintro rfl
        exact hS hxS
      exact (h.behind y (by simp [hw, hw' ▸ hy]) hS hne).of_eq (by rw [hother r hx.symm])
        (by rw [hother y hyx]) (pair_sublist_tail hw hw' hx.symm)
  | preempt x hx hseq hother hheld hw =>
    have hxS : x ∈ S := h.held x hx
    refine ⟨?_, fun y hy => h.held y (hheld y hy), fun y hy => h.admitted y (hseq y ▸ hy),
      fun y hy hS hne => ?_⟩
    · rw [hw]
      exact List.mem_append_left _ h.waits
    · have hyx : y ≠ x := by
        rintro rfl
        exact hS hxS
      rw [hw, List.mem_append, List.mem_singleton] at hy
      refine (h.behind y (hy.resolve_right hyx) hS hne).of_eq (by rw [hother r (hnot x hx).symm])
        (by rw [hother y hyx]) fun hs => ?_
      rw [hw]
      exact hs.trans (List.sublist_append_left ..)

/-- Only holders of memory get tokens. -/
theorem output_move {v v' : View} (hmv : Move cfg m r v v') (h : Ending v)
    (hholds : ¬v.phase.Holds) (habsent : v.phase ≠ .absent) :
    v'.req.outputTokenIds = v.req.outputTokenIds := by
  cases hmv with
  | create n hphase => exact absurd hphase habsent
  | emit now tok hdue => exact absurd (Or.inr (h.due_phase hdue)) hholds
  | _ => rfl

/--
**Inside a step** the queue stays as it is, and nobody outside `S` gets a token, or `r` has been
admitted.
-/
theorem queued_stepOps (hgood : Good cfg m p) (h : Queued S c r p)
    (hopen : (p.sched.heap r).cancelled = false) (hc : c ≤ p.sched.admitCounter)
    (hops : StepOps env cfg adm p p') : c ≤ p'.sched.admitCounter ∧
      ((c : Int) ≤ (p'.sched.heap r).admitSeq ∨ Queued S c r p' ∧ ∀ q, p.Submitted q → q ∉ S →
        (p'.sched.heap q).outputTokenIds = (p.sched.heap q).outputTokenIds) := by
  induction hops with
  | refl => exact ⟨hc, Or.inr ⟨h, fun _ _ _ => rfl⟩⟩
  | @tail x y hops hop ih =>
    obtain ⟨hcx, ih⟩ := ih
    obtain ⟨hle, hseq⟩ := stepOp_admitSeq hop
    refine ⟨hcx.trans hle, ?_⟩
    by_cases hadm : (c : Int) ≤ (y.sched.heap r).admitSeq
    · exact Or.inl hadm
    · refine Or.inr ?_
      have hnot : ¬(c : Int) ≤ (x.sched.heap r).admitSeq := by
        rcases hseq r with he | ⟨he, -⟩ <;> rw [he] at hadm <;> omega
      obtain ⟨hx, hout⟩ := ih.resolve_left hnot
      have hgx := hgood.ops (ops_of_stepOps hops)
      have hcan : (x.sched.heap r).cancelled = false :=
        ((stepOps_frame hops).cancelled r).trans hopen
      refine ⟨queued_stepOp hop hgx.placed hx hcan hcx (by omega), fun q hq hS => ?_⟩
      have hsub := (hgood.submitted (ops_of_stepOps hops) hq).2
      have hholds : ¬(x.view q).phase.Holds := fun hh => hS (hx.held q (mem_held_of_holds hh))
      exact (output_move (op_move (.step hop) hgx.placed hgx.shape q) (hgx.facts q).ending hholds
        hsub.phase.1).trans (hout q hq hS)

end LlmServe
