import LlmServe.Properties.Faults
import LlmServe.Spec.StepOps
import Mathlib.Data.List.Count

/-!
# What `_ensure_capacity` does

The loop shrinks the list it indexes, so the index says little about the rows. What a round does to
the state says more: it grows the table of one row and, when the pool is empty, evicts another.
`ensureLoop_induction` is the induction over these rounds; everything about the loop that does not
depend on its index goes through it. `Ensured` says what a whole call leaves, `ensureLoop_keeps`
when nobody is evicted and `ensureLoop_ne_nil` when somebody stays.
-/

namespace LlmServe

open Infra Point

variable {σ : Type} {cfg : EngineConfig} {m : Manager} {inbox : List Ref}

/-! ## The induction -/

theorem eraseIdx_of_nodup {l : List Ref} {i : Nat} {v : Ref} (hnd : l.Nodup)
    (hv : l[i]? = some v) : l.eraseIdx i = l.erase v := by
  obtain ⟨hlt, hget⟩ := List.getElem?_eq_some_iff.mp hv
  rw [← hget, hnd.erase_getElem]

/-- The rows `_ensure_capacity` starts from: the batch, sorted. -/
theorem Rows.start {s : Scheduler σ} {batch active : List Ref}
    (hperm : active.Perm batch) (hrun : ∀ r ∈ batch, r ∈ s.running)
    (hfin : ∀ r ∈ batch, (s.heap r).finished = false) (hnd : batch.Nodup) : Rows s active 0 where
  nodup := hperm.nodup_iff.mpr hnd
  running := fun r hr => hrun r (hperm.mem_iff.mp hr)
  unfinished := fun r hr => hfin r (hperm.mem_iff.mp hr)
  covered := fun _ _ hj => absurd hj (Nat.not_lt_zero _)

theorem Good.appendSlot (env : Env σ) {s : Scheduler σ} (h : Good cfg m (rest s inbox)) {r : Ref}
    (hr : r ∈ s.running) (hfin : (s.heap r).finished = false) :
    Good cfg m (rest (s.appendSlot r).2 inbox) := by
  have hop : Op env cfg (fun _ _ => True) (rest s inbox) (rest (s.appendSlot r).2 inbox) :=
    .step (.grow _ r (idle_rest ..) hr hfin)
  exact h.op hop

theorem Good.preempt (env : Env σ) {s s' : Scheduler σ} (h : Good cfg m (rest s inbox)) {v : Ref}
    (hv : v ∈ s.running) (hfin : (s.heap v).finished = false) (hpre : cfg.preemption = true)
    (he : s.preempt v = .ok s') : Good cfg m (rest s' inbox) := by
  have hop : Op env cfg (fun _ _ => True) (rest s inbox) (rest s' inbox) :=
    .step (.preempt _ s' v (idle_rest ..) hv hfin hpre he)
  exact h.op hop

/--
**The rounds of `_ensure_capacity`.** A row finds its block, or the pool is empty and a row is evicted,
or preemption is off and the loop raises. The index is hidden: it only says which rows are covered.
-/
theorem ensureLoop_induction (env : Env σ)
    {P : Scheduler σ → List Ref → Except PyError (List Ref × Scheduler σ) → Prop}
    (done : ∀ {s active}, Good cfg m (rest s inbox) → Rows s active active.length →
      P s active (.ok (active, s)))
    (full : ∀ {s active r e}, cfg.preemption = false → r ∈ active → (s.appendSlot r).1 = false →
      P s active (.error e))
    (grow : ∀ {s active r c}, Good cfg m (rest s inbox) → r ∈ active → r ∈ s.running →
      (s.heap r).finished = false → active.Nodup → (s.appendSlot r).1 = true →
      P (s.appendSlot r).2 active c → P s active c)
    (evict : ∀ {s s' active r v c}, Good cfg m (rest s inbox) →
      Good cfg m (rest (s.appendSlot r).2 inbox) → cfg.preemption = true → r ∈ active →
      v ∈ active → active.Nodup → (∀ x ∈ active, x ∈ s.running ∧ (s.heap x).finished = false) →
      (s.appendSlot r).1 = false → (s.appendSlot r).2.preempt v = .ok s' →
      s'.running = s.running.erase v → P s' (active.erase v) c → P s active c)
    {s : Scheduler σ} {active : List Ref} {i : Nat} (hgood : Good cfg m (rest s inbox))
    (hrows : Rows s active i) : P s active (Scheduler.ensureLoop cfg s active i) := by
  fun_induction Scheduler.ensureLoop cfg s active i with
  | case1 s active i hnone =>
    exact done hgood (hrows.all (List.getElem?_eq_none_iff.mp hnone))
  | case2 s active i r hr s₁ happ ih =>
    have hmem := List.mem_of_getElem? hr
    have hs : s₁ = (s.appendSlot r).2 := by rw [happ]
    have hok : (s.appendSlot r).1 = true := by rw [happ]
    subst hs
    exact grow hgood hmem (hrows.running r hmem) (hrows.unfinished r hmem) hrows.nodup hok
      (ih (hgood.appendSlot env (hrows.running r hmem) (hrows.unfinished r hmem)) (hrows.grow hr hok))
  | case3 s active i r hr s₁ happ hpre =>
    exact full hpre (List.mem_of_getElem? hr) (by rw [happ])
  | case4 s active i r hr s₁ happ hpre hv =>
    -- `min` of an empty list raises, but `r` is in this one
    have hnil := (minKey_eq_none _).mp hv
    simp [hnil] at hr
  | case5 s active i r hr s₁ happ hpre v hv hvi =>
    -- `active.index(victim)` finds the victim
    have hnone := List.findIdx?_eq_none_iff.mp hvi v (mem_of_victim hv)
    simp at hnone
  | case6 s active i r hr s₁ happ hpre v hv vi hvi e he =>
    have hmem := List.mem_of_getElem? hr
    have hs : s₁ = (s.appendSlot r).2 := by rw [happ]
    subst hs
    have hgood' := hgood.appendSlot env (hrows.running r hmem) (hrows.unfinished r hmem)
    -- the victim runs and owns its table, so `remove` and `free` do not raise
    exact absurd he (preempt_ne_error hgood' ((hrows.appendSlot hr).running v (mem_of_victim hv)) e)
  | case7 s active i r hr s₁ happ hpre v hv vi hvi s₂ hs₂ ih =>
    have hmem := List.mem_of_getElem? hr
    have hva := mem_of_victim hv
    have hs : s₁ = (s.appendSlot r).2 := by rw [happ]
    subst hs
    have hrows' := hrows.appendSlot hr
    have hgood' := hgood.appendSlot env (hrows.running r hmem) (hrows.unfinished r hmem)
    have hget := getElem?_of_index hgood'.placed hrows'.running hva hvi
    obtain ⟨q, hq⟩ := Scheduler.preempt_ok hs₂
    have hrun := hgood'.placed.preempted_running (hrows'.running v hva) hq
    have hgood₂ := hgood'.preempt env (hrows'.running v hva) (hrows'.unfinished v hva)
      (by simpa using hpre) hs₂
    -- rows are distinct, so what goes at the victim's index is the victim
    simp only [dite_eq_ite] at ih ⊢
    rw [eraseIdx_of_nodup hrows.nodup hget] at ih ⊢
    have hrows₂ := hrows'.preempt hgood'.placed hget hs₂
    rw [eraseIdx_of_nodup hrows.nodup hget] at hrows₂
    exact evict hgood hgood' (by simpa using hpre) hmem hva hrows.nodup
      (fun x hx => ⟨hrows.running x hx, hrows.unfinished x hx⟩) (by rw [happ]) hs₂ hrun
      (ih hgood₂ hrows₂)

/-! ## What a call leaves -/

/-- What `append_slot` does to the fields of its request. -/
theorem appendSlot_heap (s : Scheduler σ) (r : Ref) : ∃ blocks,
    (s.appendSlot r).2.heap =
        Function.update s.heap r { s.heap r with blockTable := (s.heap r).blockTable ++ blocks } ∧
      s.manager.freeUnits = blocks ++ (s.appendSlot r).2.manager.freeUnits ∧
      (blocks ≠ [] → ((s.heap r).blockTable.length + blocks.length : Int) ≤
        s.manager.unitsNeeded (s.heap r).seqLen) := by
  obtain ⟨blocks, hq, hfree, -, -, -, -, -, hle, -⟩ := s.manager.appendSlot_spec (s.heap r)
  have ht := (s.appendSlot_touches r).2
  refine ⟨blocks, ?_, hfree, ?_⟩
  · rw [ht.heap, hq]
  · simpa using hle

theorem appendSlot_lists (s : Scheduler σ) (r : Ref) :
    (s.appendSlot r).2.waiting = s.waiting ∧ (s.appendSlot r).2.running = s.running ∧
      s.manager.SameShape (s.appendSlot r).2.manager := by
  obtain ⟨-, -, -, hshape, -⟩ := s.manager.appendSlot_spec (s.heap r)
  exact ⟨rfl, rfl, hshape⟩

/-- What `_preempt` makes of a request. -/
def Request.requeued (q : Request) : Request :=
  { q with blockTable := [], state := .waiting, preemptCount := q.preemptCount + 1 }

/-- A call of `_ensure_capacity` grew the tables of `rows` and evicted `out`, in this order. -/
structure Ensured (s s' : Scheduler σ) (active rows out : List Ref) : Prop where
  perm : active.Perm (rows ++ out)
  sublist : rows.Sublist active
  waiting : s'.waiting = s.waiting ++ out
  running : s.running.Perm (s'.running ++ out)
  shape : s.manager.SameShape s'.manager
  covered : ∀ r ∈ rows, Covered s' r
  kept : ∀ r, r ∉ active → s'.heap r = s.heap r
  grown : ∀ r ∈ rows, ∃ blocks,
    s'.heap r = { s.heap r with blockTable := (s.heap r).blockTable ++ blocks }
  evicted : ∀ r ∈ out, s'.heap r = (s.heap r).requeued

variable {s s' s₁ s₂ : Scheduler σ} {active rows out : List Ref} {r v : Ref}

theorem Ensured.done (hrows : Rows s active active.length) : Ensured s s active active [] where
  perm := by simp
  sublist := List.Sublist.refl _
  waiting := by simp
  running := by simp
  shape := .refl _
  covered := fun r hr => by
    obtain ⟨j, hj, hget⟩ := List.getElem_of_mem hr
    exact hrows.covered j r hj (by rw [List.getElem?_eq_getElem hj, hget])
  kept := fun _ _ => rfl
  grown := fun r _ => ⟨[], by simp⟩
  evicted := nofun

/-- A round that serves `r`, before the others. -/
theorem Ensured.grow (hr : r ∈ active) (h : Ensured (s.appendSlot r).2 s' active rows out) :
    Ensured s s' active rows out := by
  obtain ⟨blocks, hheap, -⟩ := appendSlot_heap s r
  obtain ⟨hw, hrun, hshape⟩ := appendSlot_lists s r
  refine { h with waiting := hw ▸ h.waiting, running := hrun ▸ h.running, shape := hshape.trans h.shape,
                  kept := fun x hx => ?_, grown := fun x hx => ?_, evicted := fun x hx => ?_ }
  · have hxr : x ≠ r := by
      rintro rfl
      exact hx hr
    rw [h.kept x hx, hheap, Function.update_of_ne hxr]
  · obtain ⟨more, hx'⟩ := h.grown x hx
    by_cases hxr : x = r
    · subst hxr
      rw [hheap, Function.update_self] at hx'
      exact ⟨blocks ++ more, by simpa using hx'⟩
    · rw [hheap, Function.update_of_ne hxr] at hx'
      exact ⟨more, hx'⟩
  · -- `requeued` forgets the table, so also what this round added to it
    rw [h.evicted x hx, hheap]
    by_cases hxr : x = r
    · subst hxr
      rw [Function.update_self]
      rfl
    · rw [Function.update_of_ne hxr]

/-- A round that evicts `v`, before the others. -/
theorem Ensured.evict (hnd : active.Nodup) (hv : v ∈ active) (hvr : v ∈ s.running)
    (he : s.preempt v = .ok s₂) (hrun : s₂.running = s.running.erase v)
    (h : Ensured s₂ s' (active.erase v) rows out) : Ensured s s' active rows (v :: out) := by
  obtain ⟨q, hq⟩ := Scheduler.preempt_ok he
  obtain ⟨rfl, hshape, -⟩ := Manager.free_ok hq.free
  have hother : ∀ x, x ≠ v → s₂.heap x = s.heap x := fun x hx => by
    rw [hq.heap, Function.update_of_ne hx]
  have hrows : ∀ x ∈ rows, x ≠ v := fun x hx =>
    (hnd.mem_erase_iff.mp (h.sublist.subset hx)).1
  refine ⟨?_, h.sublist.trans List.erase_sublist, ?_, ?_, hshape.trans h.shape, h.covered,
    fun x hx => ?_, fun x hx => ?_, fun x hx => ?_⟩
  · exact (List.perm_cons_erase hv).trans ((h.perm.cons v).trans List.perm_middle.symm)
  · rw [h.waiting, hq.waiting, List.append_assoc]
    rfl
  · have hperm := h.running
    rw [hrun] at hperm
    exact (List.perm_cons_erase hvr).trans ((hperm.cons v).trans List.perm_middle.symm)
  · have hxv : x ≠ v := by
      rintro rfl
      exact hx hv
    rw [h.kept x fun hmem => hx (List.mem_of_mem_erase hmem), hother x hxv]
  · obtain ⟨blocks, hx'⟩ := h.grown x hx
    exact ⟨blocks, by rw [hx', hother x (hrows x hx)]⟩
  · rcases List.mem_cons.mp hx with rfl | hx
    · -- already evicted, and not in the list any more
      have hnot : x ∉ active.erase x := fun hmem => (hnd.mem_erase_iff.mp hmem).1 rfl
      rw [h.kept x hnot, hq.heap, Function.update_self]
      rfl
    · have hxv : x ≠ v := (hnd.mem_erase_iff.mp
        (h.perm.mem_iff.mpr (List.mem_append_right _ hx))).1
      rw [h.evicted x hx, hother x hxv]

/-- **What `_ensure_capacity` leaves**, when it returns. -/
theorem ensureLoop_ensured (env : Env σ) {i : Nat} {b : List Ref × Scheduler σ}
    (hgood : Good cfg m (rest s inbox)) (hrows : Rows s active i)
    (h : Scheduler.ensureLoop cfg s active i = .ok b) :
    Good cfg m (rest b.2 inbox) ∧ ∃ out, Ensured s b.2 active b.1 out := by
  revert h
  refine ensureLoop_induction env (P := fun s active c =>
    c = .ok b → Good cfg m (rest b.2 inbox) ∧ ∃ out, Ensured s b.2 active b.1 out)
    ?_ ?_ ?_ ?_ hgood hrows
  · intro s active hgood hrows he
    cases he
    exact ⟨hgood, [], .done hrows⟩
  · intro s active r e hpre hr hno he
    cases he
  · intro s active r c hgood hr hrun hfin hnd hok ih he
    obtain ⟨hgood', out, hens⟩ := ih he
    exact ⟨hgood', out, hens.grow hr⟩
  · intro s s₂ active r v c hgood hgood' hpre hr hv hnd hrows hno hs₂ hrun ih he
    obtain ⟨hgood₂, out, hens⟩ := ih he
    have hvr : v ∈ (s.appendSlot r).2.running := (hrows v hv).1
    exact ⟨hgood₂, v :: out, (hens.evict hnd hv hvr hs₂ hrun).grow hr⟩

theorem ensureCapacity_ensured (env : Env σ) {batch : List Ref}
    (hgood : Good cfg m (rest s inbox)) (hnd : batch.Nodup) (hrun : ∀ r ∈ batch, r ∈ s.running)
    (hfin : ∀ r ∈ batch, (s.heap r).finished = false)
    (h : s.ensureCapacity cfg batch = .ok (rows, s')) : Good cfg m (rest s' inbox) ∧
      ∃ out, Ensured s s' (Scheduler.sortAdmitted s.heap batch) rows out :=
  ensureLoop_ensured env hgood (.start (sortKey_perm _ _) hrun hfin hnd) h

/-- With preemption on the loop raises nothing. -/
theorem ensureLoop_isOk (env : Env σ) {i : Nat} (hpre : cfg.preemption = true)
    (hgood : Good cfg m (rest s inbox)) (hrows : Rows s active i) :
    ∃ b, Scheduler.ensureLoop cfg s active i = .ok b := by
  refine ensureLoop_induction env (P := fun _ _ c => ∃ b, c = .ok b) ?_ ?_ ?_ ?_ hgood hrows
  · intro s active _ _
    exact ⟨_, rfl⟩
  · intro s active r e hoff
    exact absurd (hpre.symm.trans hoff) nofun
  · intro s active r c _ _ _ _ _ _ ih
    exact ih
  · intro s s₂ active r v c _ _ _ _ _ _ _ _ _ _ ih
    exact ih

/-! ## Enough blocks for everybody -/

/-- `append_slot` has to take a block for `r`. -/
def Scheduler.needsBlock (s : Scheduler σ) (r : Ref) : Bool :=
  s.manager.paged &&
    decide (((s.heap r).blockTable.length : Int) < s.manager.unitsNeeded (s.heap r).seqLen)

theorem covered_iff {s : Scheduler σ} {r : Ref} : Covered s r ↔ s.needsBlock r = false := by
  simp [Covered, Scheduler.needsBlock]

/-- A running request asks for at most one block. -/
theorem Good.need_le_succ {p : Point σ} (h : Good cfg m p) {r : Ref} (hr : r ∈ p.held) :
    p.sched.manager.unitsNeeded (p.sched.heap r).seqLen ≤
      (p.sched.heap r).blockTable.length + 1 := by
  have hst : m.unitsNeeded ((p.sched.heap r).seqLen - 1) ≤ (p.sched.heap r).blockTable.length :=
    (h.facts r).table.stored (h.holds_of_held hr)
  have hsucc := m.unitsNeeded_succ_le (p.sched.heap r).seqLen
  rw [h.shape.unitsNeeded]
  omega

theorem countP_update {l : List Ref} {p q : Ref → Bool} (hnd : l.Nodup) (hr : r ∈ l)
    (hq : q r = false) (hpq : ∀ x, x ≠ r → q x = p x) :
    l.countP q + (if p r = true then 1 else 0) = l.countP p := by
  have hperm := List.perm_cons_erase hr
  have hrest : (l.erase r).countP q = (l.erase r).countP p :=
    List.countP_congr fun x hx => by rw [hpq x (hnd.mem_erase_iff.mp hx).1]
  rw [hperm.countP_eq q, hperm.countP_eq p, List.countP_cons, List.countP_cons, hrest, hq]
  simp

/-- `append_slot` pays for the need of its row and no other. -/
theorem needy_appendSlot (hgood : Good cfg m (rest s inbox)) (hnd : active.Nodup) (hr : r ∈ active)
    (hrun : r ∈ s.running) (hok : (s.appendSlot r).1 = true)
    (hle : active.countP s.needsBlock ≤ s.manager.freeUnits.length) :
    active.countP (s.appendSlot r).2.needsBlock ≤
      (s.appendSlot r).2.manager.freeUnits.length := by
  obtain ⟨blocks, hheap, hfree, htable⟩ := appendSlot_heap s r
  obtain ⟨-, -, hshape⟩ := appendSlot_lists s r
  have hother : ∀ x, x ≠ r → (s.appendSlot r).2.needsBlock x = s.needsBlock x := fun x hx => by
    rw [Scheduler.needsBlock, hshape.paged, hshape.unitsNeeded, hheap, Function.update_of_ne hx]
    rfl
  have hserved := covered_iff.mp (covered_of_appendSlot hok)
  have hcount := countP_update hnd hr hserved hother
  have hone : s.manager.unitsNeeded (s.heap r).seqLen ≤ (s.heap r).blockTable.length + 1 :=
    hgood.need_le_succ (mem_held_of_running hrun)
  rw [hfree, List.length_append] at hle
  by_cases hneed : s.needsBlock r = true
  · rw [if_pos hneed] at hcount
    have hblocks : blocks.length ≤ 1 := by
      by_cases hb : blocks = []
      · simp [hb]
      · have := htable hb
        omega
    omega
  · have hnil : blocks = [] := by
      -- a covered row takes nothing
      by_contra hb
      have hlen := List.length_pos_iff.mpr hb
      have hle := htable hb
      have hpaged : s.manager.paged = true := by
        obtain ⟨more, hq, -, -, -, -, hslot, -⟩ := s.manager.appendSlot_spec (s.heap r)
        by_contra hp
        have hmore := hslot (by simpa using hp)
        have hself := (s.appendSlot_touches r).2.self
        rw [hheap, Function.update_self, hq, hmore] at hself
        have htab := congrArg Request.blockTable hself
        simp [hb] at htab
      simp only [Scheduler.needsBlock, hpaged, Bool.true_and, decide_eq_true_eq, not_lt] at hneed
      omega
    rw [hnil, List.length_nil] at hle
    omega

/-- **With a free block for every row that needs one, nobody is evicted.** -/
theorem ensureLoop_keeps (env : Env σ) {i : Nat} {b : List Ref × Scheduler σ}
    (hgood : Good cfg m (rest s inbox)) (hrows : Rows s active i)
    (hle : active.countP s.needsBlock ≤ s.manager.freeUnits.length)
    (h : Scheduler.ensureLoop cfg s active i = .ok b) : b.1 = active := by
  revert hle h
  refine ensureLoop_induction env (P := fun s active c =>
    active.countP s.needsBlock ≤ s.manager.freeUnits.length → c = .ok b → b.1 = active)
    ?_ ?_ ?_ ?_ hgood hrows
  · intro s active _ _ _ he
    cases he
    rfl
  · intro s active r e _ _ _ _ he
    cases he
  · intro s active r c hgood hr hrun _ hnd hok ih hle he
    exact ih (needy_appendSlot hgood hnd hr hrun hok hle) he
  · intro s s₂ active r v c hgood _ _ hr hv hnd hrows hno _ _ _ hle _
    -- `r` needs one block, so the pool had one for it
    obtain ⟨blocks, -, hfree, -, -, -, -, -, -, hfalse⟩ := s.manager.appendSlot_spec (s.heap r)
    obtain ⟨hpaged, hnil, hlt⟩ := hfalse hno
    have hone : s.manager.unitsNeeded (s.heap r).seqLen ≤ (s.heap r).blockTable.length + 1 :=
      hgood.need_le_succ (mem_held_of_running (hrows r hr).1)
    rw [List.length_append] at hlt
    have hneed : s.needsBlock r = true := by
      simp only [Scheduler.needsBlock, hpaged, Bool.true_and, decide_eq_true_eq]
      omega
    have hpos : 0 < active.countP s.needsBlock := List.countP_pos_iff.mpr ⟨r, hr, hneed⟩
    rw [hfree, hnil, List.append_nil] at hle
    omega

/-! ## Somebody stays -/

/-- If nobody else holds a block, `r` may have the whole pool. -/
theorem appendSlot_alone (hgood : Good cfg m (rest s inbox)) (hr : r ∈ s.running)
    (hothers : ∀ x ∈ s.running, x ≠ r → (s.heap x).blockTable = [])
    (hneed : m.paged = true → m.unitsNeeded (s.heap r).seqLen ≤ m.units) :
    (s.appendSlot r).1 = true := by
  cases hp : m.paged with
  | false =>
    by_contra hno
    obtain ⟨blocks, -, -, -, -, -, -, -, -, hfalse⟩ := s.manager.appendSlot_spec (s.heap r)
    exact absurd ((hgood.shape.paged.trans hp).symm.trans (hfalse ((Bool.not_eq_true _).mp hno)).1) nofun
  | true =>
    -- free blocks and `r`'s own are all there are
    have hlen := hgood.owned.length_sum
    have hperm := List.perm_cons_erase hr
    have hheld : (rest s inbox).held = s.running := rfl
    have hzero : ((s.running.erase r).map fun x => ((s.heap x).blockTable.length : Int)).sum = 0 := by
      refine List.sum_eq_zero fun n hn => ?_
      obtain ⟨x, hx, rfl⟩ := List.mem_map.mp hn
      have hnd := hgood.placed.running_nodup
      rw [hothers x (List.mem_of_mem_erase hx) (hnd.mem_erase_iff.mp hx).1]
      rfl
    rw [hheld, (hperm.map _).sum_eq, List.map_cons, List.sum_cons, hgood.shape.units] at hlen
    change _ + (_ + ((s.running.erase r).map fun x => ((s.heap x).blockTable.length : Int)).sum) = _
      at hlen
    rw [hzero] at hlen
    rw [Scheduler.appendSlot_fst]
    refine Manager.appendSlot_isTrue ?_
    have hle := hneed hp
    have hshape : s.manager.unitsNeeded = m.unitsNeeded := hgood.shape.unitsNeeded
    change (s.manager.freeUnits.length : Int) + (((s.heap r).blockTable.length : Int) + 0) = _ at hlen
    rw [hshape]
    omega

/-- **The eviction loop stops before the last row**, if each row alone fits the pool and nobody but
the rows holds a block. -/
theorem ensureLoop_ne_nil (env : Env σ) {i : Nat} {b : List Ref × Scheduler σ}
    (hgood : Good cfg m (rest s inbox)) (hrows : Rows s active i)
    (hothers : ∀ x ∈ s.running, x ∉ active → (s.heap x).blockTable = [])
    (hfits : m.paged = true → ∀ x ∈ active, m.unitsNeeded (s.heap x).seqLen ≤ m.units)
    (hne : active ≠ []) (h : Scheduler.ensureLoop cfg s active i = .ok b) : b.1 ≠ [] := by
  revert hothers hfits hne h
  refine ensureLoop_induction env (P := fun s active c =>
    (∀ x ∈ s.running, x ∉ active → (s.heap x).blockTable = []) →
    (m.paged = true → ∀ x ∈ active, m.unitsNeeded (s.heap x).seqLen ≤ m.units) →
    active ≠ [] → c = .ok b → b.1 ≠ []) ?_ ?_ ?_ ?_ hgood hrows
  · intro s active _ _ _ _ hne he
    cases he
    exact hne
  · intro s active r e _ _ _ _ _ _ he
    cases he
  · intro s active r c hgood hr _ _ _ _ ih hothers hfits hne he
    obtain ⟨blocks, hheap, -⟩ := appendSlot_heap s r
    refine ih (fun x hx hxa => ?_) (fun hp x hx => ?_) hne he
    · have hxr : x ≠ r := by
        rintro rfl
        exact hxa hr
      rw [hheap, Function.update_of_ne hxr]
      exact hothers x hx hxa
    · have hseq : ((s.appendSlot r).2.heap x).seqLen = (s.heap x).seqLen := by
        rw [hheap]
        exact apply_update Request.seqLen (by rfl) x
      rw [hseq]
      exact hfits hp x hx
  · intro s s₂ active r v c hgood _ _ hr hv hnd hrows hno hs₂ hrun ih hothers hfits _ he
    obtain ⟨blocks, hheap, -⟩ := appendSlot_heap s r
    obtain ⟨q, hq⟩ := Scheduler.preempt_ok hs₂
    have hkept : ∀ x, x ≠ r → x ≠ v → s₂.heap x = s.heap x := fun x hxr hxv => by
      rw [hq.heap, Function.update_of_ne hxv, hheap, Function.update_of_ne hxr]
    have hseq : ∀ x, x ≠ v → (s₂.heap x).seqLen = (s.heap x).seqLen := fun x hxv => by
      rw [hq.heap, Function.update_of_ne hxv, hheap]
      exact apply_update Request.seqLen (by rfl) x
    refine ih (fun x hx hxa => ?_) (fun hp x hx => ?_) ?_ he
    · rw [hrun] at hx
      obtain ⟨hxv, hxr⟩ := hgood.placed.running_nodup.mem_erase_iff.mp hx
      have hxa' : x ∉ active := fun hmem => hxa (hnd.mem_erase_iff.mpr ⟨hxv, hmem⟩)
      have hxr' : x ≠ r := by
        rintro rfl
        exact hxa' hr
      rw [hkept x hxr' hxv]
      exact hothers x hxr hxa'
    · obtain ⟨hxv, hxa⟩ := hnd.mem_erase_iff.mp hx
      rw [hseq x hxv]
      exact hfits hp x hxa
    · -- were `v` the only row left, it would have found its block
      intro hnil
      have hone : ∀ x ∈ active, x = v := fun x hx => by
        by_contra hxv
        have hmem := hnd.mem_erase_iff.mpr ⟨hxv, hx⟩
        rw [hnil] at hmem
        cases hmem
      have hfound : (s.appendSlot r).1 = true := by
        refine appendSlot_alone hgood (hrows r hr).1 (fun x hx hxr => ?_) fun hp => hfits hp r hr
        refine hothers x hx fun hxa => hxr ?_
        rw [hone x hxa, hone r hr]
      exact absurd (hno.symm.trans hfound) nofun

end LlmServe
