import LlmServe.Infra.Ownership
import LlmServe.Properties.RequestFacts

/-!
# Every slot and every block has one owner

`Owned` says that the free list and the block tables of the requests holding memory are together a
rearrangement of all units. `owned_op` carries it through a small step. Together with what the
machine of one request says about tables (`Table`), this is the whole partition: nobody else has a
block.
-/

namespace LlmServe

open Infra Point

variable {σ : Type} {env : Env σ} {cfg : EngineConfig} {adm : Point σ → Ref → Prop}

/-- The units of the allocator, listed by owner. -/
def Point.units (p : Point σ) : List Nat :=
  owned p.sched.manager.freeUnits p.held fun r => (p.sched.heap r).blockTable

def Owned (p : Point σ) : Prop := p.units.Perm (List.range p.sched.manager.units)

theorem Owned.of_perm {p p' : Point σ} (h : Owned p) (hperm : p'.units.Perm p.units)
    (hshape : p.sched.manager.SameShape p'.sched.manager) : Owned p' := by
  unfold Owned
  rw [hshape.units]
  exact hperm.trans h

/-- A small step that moves no unit. -/
theorem units_congr {p p' : Point σ} (hm : p'.sched.manager = p.sched.manager)
    (hheld : p'.held.Perm p.held)
    (ht : ∀ r ∈ p.held, (p'.sched.heap r).blockTable = (p.sched.heap r).blockTable) :
    p'.units.Perm p.units := by
  unfold Point.units
  rw [hm]
  exact owned_congr hheld ht

theorem units_touches {p : Point σ} {s' : Scheduler σ} {r : Ref} {q : Request}
    (hm : s'.manager = p.sched.manager) (ht : p.sched.Touches s' r q)
    (hq : q.blockTable = (p.sched.heap r).blockTable) :
    ({ p with sched := s' } : Point σ).units.Perm p.units := by
  refine units_congr hm ?_ fun x _ => ?_
  · simp only [Point.held, ht.running]
    exact List.Perm.refl _
  · show (s'.heap x).blockTable = _
    rw [ht.heap]
    exact apply_update Request.blockTable hq x

theorem units_admit {p : Point σ} (h : Placed cfg p) {s' : Scheduler σ} {r : Ref}
    {tail : List Ref} {q : Request} (hw : p.sched.waiting = r :: tail)
    (ha : p.sched.Admitted s' r tail q) :
    ({ p with sched := s', popped := p.popped ++ [r] } : Point σ).units.Perm p.units := by
  obtain ⟨blocks, rfl, hfree, -⟩ := Manager.allocate_ok ha.allocate
  have hrw : r ∈ p.sched.waiting := by simp [hw]
  refine owned_take (x := r) (held_admitHead ha.running r) hfree ?_ fun x hx => ?_
  · show (s'.heap r).blockTable = blocks
    rw [ha.heap, Function.update_self]
  · have hxr : x ≠ r := by
      rintro rfl
      exact h.notMem_held_of_waiting hrw hx
    show (s'.heap x).blockTable = _
    rw [ha.heap, Function.update_of_ne hxr]

theorem units_grow {p : Point σ} (h : Placed cfg p) {r : Ref} (hr : r ∈ p.sched.running) :
    ({ p with sched := (p.sched.appendSlot r).2 } : Point σ).units.Perm p.units := by
  obtain ⟨blocks, hq, hfree, -⟩ := p.sched.manager.appendSlot_spec (p.sched.heap r)
  have ht := (p.sched.appendSlot_touches r).2
  have hheld : p.held.Perm (r :: p.held.erase r) := List.perm_cons_erase (mem_held_of_running hr)
  refine owned_extend (x := r) hheld hfree ?_ fun x hx => ?_
  · show ((p.sched.appendSlot r).2.heap r).blockTable = _
    rw [ht.self, hq]
  · show ((p.sched.appendSlot r).2.heap x).blockTable = _
    rw [ht.other]
    rintro rfl
    exact h.held_nodup.not_mem_erase hx

/-- A request gives its units back and leaves the holders. -/
theorem units_giveBack {p p' : Point σ} (h : Placed cfg p) {r : Ref} {q q' : Request}
    (hr : r ∈ p.held) (hfree : p.sched.manager.free q = .ok (p'.sched.manager, q'))
    (hq : q.blockTable = (p.sched.heap r).blockTable)
    (hone : p.sched.manager.paged = false → q.blockTable.length = 1)
    (hheld : p'.held = p.held.erase r)
    (hother : ∀ x, x ≠ r → p'.sched.heap x = p.sched.heap x) : p'.units.Perm p.units := by
  unfold Point.units
  rw [hheld]
  refine owned_giveBack (x := r) (List.perm_cons_erase hr) ?_ fun x hx => ?_
  · rw [Manager.free_freeUnits hfree hone, hq]
  · rw [hother]
    rintro rfl
    exact h.held_nodup.not_mem_erase hx

/-- Slots are tables with one entry. -/
def OneSlot (p : Point σ) : Prop :=
  p.sched.manager.paged = false → ∀ r ∈ p.held, (p.sched.heap r).blockTable.length = 1

theorem units_op {p p' : Point σ} (hop : Op env cfg adm p p') (h : Placed cfg p) (hone : OneSlot p) :
    p'.units.Perm p.units := by
  cases hop with
  | cancel r hr => exact units_touches rfl (Scheduler.touches_modify ..) rfl
  | create n =>
    refine units_congr rfl (List.Perm.refl _) fun r hr => ?_
    have hne : r ≠ p.sched.next := (h.lt_next r (mem_placed_of_held hr)).ne
    exact congrArg Request.blockTable (Function.update_of_ne hne ..)
  | submit pre post r hidle hin =>
    refine units_congr rfl (List.Perm.refl _) fun x _ => ?_
    show (Function.update p.sched.heap r (p.sched.heap r).submitted x).blockTable = _
    exact apply_update Request.blockTable (by rfl) x
  | step hop =>
    cases hop with
    | markCancelled r hidle hr =>
      rcases Scheduler.markCancelled_cases env p.sched r with he | ⟨-, -, hm, now, ht⟩
      · rw [he]
      · exact units_touches hm ht rfl
    | leave s' pre post r hidle hr hfin hl =>
      obtain ⟨q, hfree, ht⟩ := Scheduler.leave_ok hl
      have hrun : r ∈ p.sched.running := by simp [hr]
      have hpre : r ∉ pre := by
        have := (List.nodup_middle.mp (hr ▸ h.running_nodup)).notMem
        simp_all
      refine units_giveBack h (mem_held_of_running hrun) hfree rfl
        (fun hp => hone hp r (mem_held_of_running hrun)) ?_ fun x hx => ht.other hx
      simp [Point.held, hidle.1, hidle.2.1, hr, List.erase_append_right _ hpre]
    | admitHead s' r tail hbatch hdue hw hsorted hroom hcan hadm ha =>
      obtain ⟨q, hq⟩ := Scheduler.stampAdmit_admitted ha
      exact units_admit h hw hq
    | prefill s' batch rest nxt hbatch hdue hp hf =>
      -- the owners move on, with their tables
      obtain ⟨w, -, rfl⟩ := Scheduler.stepTokens_ok hf
      exact units_congr rfl (held_prefill hp hbatch) fun _ _ => rfl
    | setRunning r hr => exact units_touches rfl (Scheduler.touches_modify ..) rfl
    | emit r tok due hdue =>
      obtain ⟨now, he⟩ := Scheduler.emit_ok env p.sched r tok
      refine units_congr he.manager ?_ fun x _ => ?_
      · simp only [Point.held, he.running]
        exact List.Perm.refl _
      · show ((p.sched.emit env r tok).heap x).blockTable = _
        rw [he.heap]
        exact apply_update Request.blockTable (Request.emit_blockTable ..) x
    | join hdue => exact units_congr rfl (held_join p) fun _ _ => rfl
    | grow r hidle hr hfin => exact units_grow h hr
    | preempt s' r hidle hr hfin hpre hp =>
      obtain ⟨q, hq⟩ := Scheduler.preempt_ok hp
      refine units_giveBack h (mem_held_of_running hr) hq.free rfl
        (fun hp => hone hp r (mem_held_of_running hr)) ?_ fun x hx => ?_
      · simp [Point.held, hidle.1, hidle.2.1, h.preempted_running hr hq]
      · show s'.heap x = _
        rw [hq.heap, Function.update_of_ne hx]
    | decode s' batch rows nxt hidle hnd hrun hfin hcov hrows hf =>
      obtain ⟨w, -, rfl⟩ := Scheduler.stepTokens_ok hf
      exact units_congr rfl (List.Perm.refl _) fun _ _ => rfl
    | _ => exact units_congr rfl (List.Perm.refl _) fun _ _ => rfl

end LlmServe
