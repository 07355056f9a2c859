import LlmServe.Spec.SmallStep
import LlmServe.Properties.Allocator
import LlmServe.Properties.Lifecycle
import Mathlib.Data.List.Perm.Subperm

/-!
# Where a request is

`Placed` says that the inbox, `waiting`, the local variables of `_admit` and `running` together
hold every request at most once, and that the requests holding memory have pairwise distinct
`admit_seq`. Every small step keeps it (`placed_op`).

`running.remove` and `active.index` compare whole `Request` records. They still find the object
they are asked for: an equal record has an equal `admit_seq` (`Placed.eq_of_heap_eq`).
-/

namespace LlmServe

open Infra

variable {σ : Type} {env : Env σ} {cfg : EngineConfig} {adm : Point σ → Ref → Prop}

structure Placed (cfg : EngineConfig) (p : Point σ) : Prop where
  nodup : p.placed.Nodup
  lt_next : ∀ r ∈ p.placed, r < p.sched.next
  seq_nonneg : ∀ r ∈ p.held, 0 ≤ (p.sched.heap r).admitSeq
  seq_lt : ∀ r ∈ p.held, (p.sched.heap r).admitSeq < p.sched.admitCounter
  seq_inj : ∀ r ∈ p.held, ∀ r' ∈ p.held,
    (p.sched.heap r).admitSeq = (p.sched.heap r').admitSeq → r = r'
  due_nodup : p.dueRefs.Nodup
  due_mem : ∀ r ∈ p.dueRefs, r ∈ p.batch ++ p.sched.running
  room : p.held.length ≤ cfg.maxBatch

/-! ## Membership -/

namespace Point

variable {p : Point σ} {r : Ref}

theorem mem_held_of_running (hr : r ∈ p.sched.running) : r ∈ p.held := List.mem_append_right _ hr

theorem mem_held_of_batch (hr : r ∈ p.batch) : r ∈ p.held :=
  List.mem_append_left _ (List.mem_append_right _ hr)

theorem mem_held_of_popped (hr : r ∈ p.popped) : r ∈ p.held :=
  List.mem_append_left _ (List.mem_append_left _ hr)

theorem mem_placed_of_held (hr : r ∈ p.held) : r ∈ p.placed := List.mem_append_right _ hr

theorem mem_placed_of_waiting (hr : r ∈ p.sched.waiting) : r ∈ p.placed :=
  List.mem_append_left _ (List.mem_append_right _ hr)

theorem mem_placed_of_inbox (hr : r ∈ p.inbox) : r ∈ p.placed :=
  List.mem_append_left _ (List.mem_append_left _ hr)

theorem Idle.held {p : Point σ} (h : p.Idle) : p.held = p.sched.running := by
  simp [Point.held, h.1, h.2.1]

end Point

open Point

namespace Placed

variable {p : Point σ}

theorem held_nodup (h : Placed cfg p) : p.held.Nodup := h.nodup.of_append_right

theorem running_nodup (h : Placed cfg p) : p.sched.running.Nodup := h.held_nodup.of_append_right

theorem waiting_nodup (h : Placed cfg p) : p.sched.waiting.Nodup :=
  h.nodup.of_append_left.of_append_right

theorem notMem_inbox_of_held (h : Placed cfg p) {r : Ref} (hr : r ∈ p.held) : r ∉ p.inbox :=
  fun hin => (List.nodup_append.mp h.nodup).2.2 r (List.mem_append_left _ hin) r hr rfl

theorem notMem_waiting_of_held (h : Placed cfg p) {r : Ref} (hr : r ∈ p.held) :
    r ∉ p.sched.waiting :=
  fun hw => (List.nodup_append.mp h.nodup).2.2 r (List.mem_append_right _ hw) r hr rfl

theorem notMem_held_of_waiting (h : Placed cfg p) {r : Ref} (hr : r ∈ p.sched.waiting) :
    r ∉ p.held := fun hh => h.notMem_waiting_of_held hh hr

theorem notMem_inbox_of_waiting (h : Placed cfg p) {r : Ref} (hr : r ∈ p.sched.waiting) :
    r ∉ p.inbox :=
  fun hin => (List.nodup_append.mp h.nodup.of_append_left).2.2 r hin r hr rfl

theorem due_mem_held (h : Placed cfg p) {r : Ref} (hr : r ∈ p.dueRefs) : r ∈ p.held := by
  rw [Point.held, List.append_assoc]
  exact List.mem_append_right _ (h.due_mem r hr)

/-- **`active.index` and `running.remove` find the object itself.** -/
theorem eq_of_heap_eq (h : Placed cfg p) {r r' : Ref} (hr : r ∈ p.held) (hr' : r' ∈ p.held)
    (he : p.sched.heap r = p.sched.heap r') : r = r' :=
  h.seq_inj r hr r' hr' (by rw [he])

/-- The point with no requests. -/
theorem init (manager : Manager) (w : σ) : Placed cfg (.rest (.init cfg manager w) []) where
  nodup := List.nodup_nil
  lt_next := nofun
  seq_nonneg := nofun
  seq_lt := nofun
  seq_inj := nofun
  due_nodup := List.nodup_nil
  due_mem := nofun
  room := Nat.zero_le _

/-- A small step that moves requests between places and admits none. -/
theorem mono {q : Point σ} (h : Placed cfg p) (hplaced : q.placed.Subperm p.placed)
    (hheld : q.held.Subperm p.held) (hnext : q.sched.next = p.sched.next)
    (hcount : q.sched.admitCounter = p.sched.admitCounter)
    (hseq : ∀ r, (q.sched.heap r).admitSeq = (p.sched.heap r).admitSeq)
    (hnd : q.dueRefs.Nodup) (hmem : ∀ r ∈ q.dueRefs, r ∈ q.batch ++ q.sched.running) :
    Placed cfg q where
  nodup := by
    obtain ⟨l, hperm, hsub⟩ := hplaced
    exact hperm.nodup_iff.mp (h.nodup.sublist hsub)
  lt_next := fun r hr => by rw [hnext]; exact h.lt_next r (hplaced.subset hr)
  seq_nonneg := fun r hr => by rw [hseq r]; exact h.seq_nonneg r (hheld.subset hr)
  seq_lt := fun r hr => by rw [hseq r, hcount]; exact h.seq_lt r (hheld.subset hr)
  seq_inj := fun r hr r' hr' he => by
    rw [hseq r, hseq r'] at he
    exact h.seq_inj r (hheld.subset hr) r' (hheld.subset hr') he
  due_nodup := hnd
  due_mem := hmem
  room := hheld.length_le.trans h.room

end Placed

/-! ## `running.remove` -/

/-- `remove` takes out the object itself when no other is equal to it. -/
theorem remove_eq_erase {heap : Ref → Request} {r : Ref} {l : List Ref}
    (h : ∀ x ∈ l, heap x = heap r → x = r) : Scheduler.remove heap r l = l.erase r := by
  induction l with
  | nil => rfl
  | cons x l ih =>
    by_cases hx : x = r
    · subst hx
      simp [Scheduler.remove]
    · have hne : heap x ≠ heap r := fun he => hx (h x List.mem_cons_self he)
      rw [List.erase_cons_tail (by simpa using hx), Scheduler.remove,
        List.eraseP_cons_of_neg (by simpa using hne)]
      exact congrArg (x :: ·) (ih fun y hy => h y (List.mem_cons_of_mem _ hy))

/-- `_preempt` takes the object itself out of `running`. -/
theorem Placed.preempted_running {p : Point σ} (h : Placed cfg p) {s' : Scheduler σ} {r : Ref}
    {q : Request} (hr : r ∈ p.sched.running) (hp : p.sched.Preempted s' r q) :
    s'.running = p.sched.running.erase r := by
  obtain ⟨rfl, -⟩ := Manager.free_ok hp.free
  rw [hp.running]
  refine remove_eq_erase fun x hx he => ?_
  by_contra hne
  rw [Function.update_self, Function.update_of_ne hne] at he
  exact hne (h.seq_inj x (mem_held_of_running hx) r (mem_held_of_running hr) (by rw [he]))

/-! ## `Placed` is kept -/

/-- A field that an assignment to `r` does not change has its old value at every object. -/
theorem apply_update {α : Type} (f : Request → α) {heap : Ref → Request} {r : Ref} {q : Request}
    (h : f q = f (heap r)) (x : Ref) : f (Function.update heap r q x) = f (heap x) := by
  by_cases hx : x = r
  · subst hx
    rw [Function.update_self, h]
  · rw [Function.update_of_ne hx]

/-! The owners after an admission, the forward pass of a prefill and `self.running.extend(batch)`. -/

theorem held_admitHead {p : Point σ} {running : List Ref} (hrun : running = p.sched.running) (r : Ref) :
    (p.popped ++ [r] ++ p.batch ++ running).Perm (r :: p.held) := by
  rw [List.perm_iff_count]
  intro a
  simp only [Point.held, hrun, List.count_append, List.count_cons, List.count_nil]
  omega

theorem held_prefill {p : Point σ} {batch rest : List Ref} (hp : p.popped = batch ++ rest)
    (hbatch : p.batch = []) : (rest ++ batch ++ p.sched.running).Perm p.held := by
  rw [List.perm_iff_count]
  intro a
  simp only [Point.held, hp, hbatch, List.count_append, List.count_nil]
  omega

theorem held_join (p : Point σ) :
    (p.popped ++ [] ++ (p.sched.running ++ p.batch)).Perm p.held := by
  rw [List.perm_iff_count]
  intro a
  simp only [Point.held, List.count_append, List.count_nil]
  omega

namespace Placed

variable {p : Point σ}

/-- An assignment to an object that leaves its `admit_seq` alone. -/
theorem touches {s' : Scheduler σ} {r : Ref} {q : Request} (h : Placed cfg p)
    (ht : p.sched.Touches s' r q) (hseq : q.admitSeq = (p.sched.heap r).admitSeq) :
    Placed cfg { p with sched := s' } := by
  refine h.mono ?_ ?_ ht.next ht.admitCounter ?_ h.due_nodup ?_
  · simp only [Point.placed, Point.held, ht.waiting, ht.running]
    exact List.Subperm.refl _
  · simp only [Point.held, ht.running]
    exact List.Subperm.refl _
  · intro x
    show (s'.heap x).admitSeq = _
    rw [ht.heap]
    exact apply_update Request.admitSeq hseq x
  · intro x hx
    show x ∈ p.batch ++ s'.running
    rw [ht.running]
    exact h.due_mem x hx

theorem create (h : Placed cfg p) (n : NewRequest) :
    Placed cfg
      { p with sched := p.sched.create n.toRequest, inbox := p.inbox ++ [p.sched.next] } := by
  -- the new object is at `next`, where no request is yet
  have hne : ∀ x ∈ p.placed, x ≠ p.sched.next := fun x hx => (h.lt_next x hx).ne
  have hold : ∀ x ∈ p.held, (p.sched.create n.toRequest).heap x = p.sched.heap x :=
    fun x hx => Function.update_of_ne (hne x (mem_placed_of_held hx)) _ _
  have hperm : List.Perm
      (p.inbox ++ [p.sched.next] ++ p.sched.waiting ++ p.held) (p.sched.next :: p.placed) := by
    rw [List.perm_iff_count]
    intro a
    simp only [Point.placed, List.count_append, List.count_cons, List.count_nil]
    omega
  refine ⟨?_, ?_, ?_, ?_, ?_, h.due_nodup, h.due_mem, h.room⟩
  · exact hperm.nodup_iff.mpr (List.nodup_cons.mpr ⟨fun hm => hne _ hm rfl, h.nodup⟩)
  · intro r hr
    show r < p.sched.next + 1
    rcases List.mem_cons.mp (hperm.mem_iff.mp hr) with hr | hr
    · rw [hr]
      exact Nat.lt_succ_self _
    · exact Nat.lt_succ_of_lt (h.lt_next r hr)
  · intro r hr
    rw [hold r hr]
    exact h.seq_nonneg r hr
  · intro r hr
    rw [hold r hr]
    exact h.seq_lt r hr
  · intro r hr r' hr'
    rw [hold r hr, hold r' hr']
    exact h.seq_inj r hr r' hr'

theorem submit (h : Placed cfg p) {pre post : List Ref} {r : Ref}
    (hin : p.inbox = pre ++ r :: post) :
    Placed cfg { p with sched := p.sched.submit r, inbox := pre ++ post } := by
  have hperm : List.Perm (pre ++ post ++ (p.sched.waiting ++ [r]) ++ p.held) p.placed := by
    rw [List.perm_iff_count]
    intro a
    simp only [Point.placed, hin, List.count_append, List.count_cons, List.count_nil]
    omega
  exact h.mono hperm.subperm (List.Subperm.refl _) rfl rfl (apply_update Request.admitSeq rfl)
    h.due_nodup h.due_mem

theorem leave (h : Placed cfg p) (hidle : p.Idle) {s' : Scheduler σ} {pre post : List Ref}
    {r : Ref} (hr : p.sched.running = pre ++ r :: post) (hl : p.sched.leave r = .ok s') :
    Placed cfg { p with sched := { s' with running := pre ++ post } } := by
  obtain ⟨q, hm, ht⟩ := Scheduler.leave_ok hl
  obtain ⟨rfl, -⟩ := Manager.free_ok hm
  have hsub : (pre ++ post).Sublist p.sched.running := by
    rw [hr]; exact (List.Sublist.refl _).append (List.sublist_cons_self _ _)
  have hheld : (p.popped ++ p.batch ++ (pre ++ post)).Sublist p.held :=
    (List.Sublist.refl _).append hsub
  refine h.mono ?_ hheld.subperm ht.next ht.admitCounter ?_ h.due_nodup ?_
  · simp only [Point.placed, ht.waiting]
    exact ((List.Sublist.refl _).append hheld).subperm
  · intro x
    show (s'.heap x).admitSeq = _
    rw [ht.heap]
    exact apply_update Request.admitSeq (by rfl) x
  · intro x hx
    simp [Point.dueRefs, hidle.2.2] at hx

theorem admitHead (h : Placed cfg p) {s' : Scheduler σ} {r : Ref} {tail : List Ref} {q : Request}
    (hbatch : p.batch = []) (hw : p.sched.waiting = r :: tail)
    (hroom : p.sched.running.length + p.popped.length < cfg.maxBatch)
    (ha : p.sched.Admitted s' r tail q) :
    Placed cfg { p with sched := s', popped := p.popped ++ [r] } := by
  have hrw : r ∈ p.sched.waiting := by simp [hw]
  have hperm : List.Perm (p.inbox ++ tail ++ (p.popped ++ [r] ++ p.batch ++ p.sched.running))
      p.placed := by
    rw [List.perm_iff_count]
    intro a
    simp only [Point.placed, Point.held, hw, List.count_append, List.count_cons, List.count_nil]
    omega
  have hheld : ∀ x ∈ p.popped ++ [r] ++ p.batch ++ p.sched.running, x = r ∨ x ∈ p.held := by
    intro x
    simp only [Point.held, List.mem_append, List.mem_singleton]
    grind
  -- the admitted request gets the next number, everyone else keeps theirs
  have hnew : (s'.heap r).admitSeq = p.sched.admitCounter := by
    rw [ha.heap, Function.update_self]
  have hold : ∀ x ∈ p.held, (s'.heap x).admitSeq = (p.sched.heap x).admitSeq := by
    intro x hx
    have hxr : x ≠ r := fun he => h.notMem_held_of_waiting hrw (he ▸ hx)
    rw [ha.heap, Function.update_of_ne hxr]
  refine ⟨?_, ?_, ?_, ?_, ?_, h.due_nodup, ?_, ?_⟩
  all_goals simp only [Point.placed, Point.held, ha.waiting, ha.running, ha.next, ha.admitCounter]
  · exact hperm.nodup_iff.mpr h.nodup
  · exact fun x hx => h.lt_next x (hperm.mem_iff.mp hx)
  · intro x hx
    rcases hheld x hx with hx | hx
    · rw [hx, hnew]
      omega
    · rw [hold x hx]
      exact h.seq_nonneg x hx
  · intro x hx
    rcases hheld x hx with hx | hx
    · rw [hx, hnew]
      omega
    · rw [hold x hx]
      have := h.seq_lt x hx
      omega
  · have hlt : ∀ x ∈ p.held, (s'.heap x).admitSeq ≠ (s'.heap r).admitSeq := by
      intro x hx
      rw [hold x hx, hnew]
      exact (h.seq_lt x hx).ne
    intro x hx y hy he
    rcases hheld x hx with hx | hx <;> rcases hheld y hy with hy | hy
    · rw [hx, hy]
    · exact absurd (hx ▸ he).symm (hlt y hy)
    · exact absurd (hy ▸ he) (hlt x hx)
    · rw [hold x hx, hold y hy] at he
      exact h.seq_inj x hx y hy he
  · exact h.due_mem
  · simp only [hbatch, List.length_append, List.length_singleton, List.length_nil]
    omega

theorem prefill (h : Placed cfg p) {s' : Scheduler σ} {batch rest : List Ref}
    {nxt : List Token} (owed : List Owed) (hbatch : p.batch = []) (hp : p.popped = batch ++ rest)
    (hf : p.sched.stepTokens env (batch.map p.sched.prefillRow) = .ok (nxt, s')) :
    Placed cfg { p with sched := s', popped := rest, batch, due := batch.zip nxt, owed } := by
  obtain ⟨w, hw, rfl⟩ := Scheduler.stepTokens_ok hf
  have hlen : nxt.length = batch.length := by simpa using env.stepTokens_length hw
  have hfst : (batch.zip nxt).map Prod.fst = batch := List.map_fst_zip hlen.ge
  have hheld := held_prefill hp hbatch
  have hpop : (batch ++ rest).Nodup := hp ▸ h.held_nodup.of_append_left.of_append_left
  refine h.mono (hheld.append_left _).subperm hheld.subperm rfl rfl (fun _ => rfl) ?_ ?_
  · simpa [Point.dueRefs, hfst] using hpop.of_append_left
  · intro x hx
    simp only [Point.dueRefs, hfst] at hx
    exact List.mem_append_left _ hx

theorem emit (h : Placed cfg p) {r : Ref} {tok : Token} {due : List (Ref × Token)}
    (hdue : p.due = (r, tok) :: due) :
    Placed cfg { p with sched := p.sched.emit env r tok, due } := by
  obtain ⟨now, he⟩ := Scheduler.emit_ok env p.sched r tok
  have hrefs : p.dueRefs = r :: due.map Prod.fst := by simp [Point.dueRefs, hdue]
  have hnd := List.nodup_cons.mp (hrefs ▸ h.due_nodup)
  refine h.mono ?_ ?_ he.next he.admitCounter ?_ hnd.2 ?_
  · simp only [Point.placed, Point.held, he.waiting, he.running]
    exact List.Subperm.refl _
  · simp only [Point.held, he.running]
    exact List.Subperm.refl _
  · intro x
    show ((p.sched.emit env r tok).heap x).admitSeq = _
    rw [he.heap]
    exact apply_update Request.admitSeq (Request.emit_admitSeq ..) x
  · intro x hx
    show x ∈ p.batch ++ (p.sched.emit env r tok).running
    rw [he.running]
    exact h.due_mem x (by rw [hrefs]; exact List.mem_cons_of_mem _ hx)

theorem join (h : Placed cfg p) (hdue : p.due = []) :
    Placed cfg
      { p with sched := { p.sched with running := p.sched.running ++ p.batch }, batch := [] } := by
  have hheld := held_join p
  refine h.mono (hheld.append_left _).subperm hheld.subperm rfl rfl (fun _ => rfl) h.due_nodup ?_
  intro x hx
  simp [Point.dueRefs, hdue] at hx

theorem preempt (h : Placed cfg p) (hidle : p.Idle) {s' : Scheduler σ} {r : Ref} {q : Request}
    (hr : r ∈ p.sched.running) (hp : p.sched.Preempted s' r q) :
    Placed cfg { p with sched := s' } := by
  have hrun := h.preempted_running hr hp
  obtain ⟨rfl, -⟩ := Manager.free_ok hp.free
  have hperm : List.Perm (p.inbox ++ (p.sched.waiting ++ [r]) ++ p.sched.running.erase r)
      (p.inbox ++ p.sched.waiting ++ p.sched.running) := by
    rw [← List.append_assoc p.inbox, List.append_assoc (p.inbox ++ _)]
    exact (List.perm_cons_erase hr).symm.append_left _
  refine h.mono ?_ ?_ hp.next hp.admitCounter ?_ h.due_nodup ?_
  · simpa [Point.placed, Point.held, hidle.1, hidle.2.1, hp.waiting, hrun] using hperm.subperm
  · simpa [Point.held, hidle.1, hidle.2.1, hrun] using List.erase_sublist.subperm
  · intro x
    show (s'.heap x).admitSeq = _
    rw [hp.heap]
    exact apply_update Request.admitSeq (by rfl) x
  · intro x hx
    simp [Point.dueRefs, hidle.2.2] at hx

/-- The rows of a decode step are the requests of its batch. -/
theorem decode_refs {s s' : Scheduler σ} {batch : List Ref} {rows : List Row} {nxt : List Token}
    (hrows : batch.mapM s.decodeRow = .ok rows) (hf : s.stepTokens env rows = .ok (nxt, s')) :
    (batch.zip nxt).map Prod.fst = batch := by
  obtain ⟨w, hw, -⟩ := Scheduler.stepTokens_ok hf
  refine List.map_fst_zip (Nat.le_of_eq ?_)
  rw [env.stepTokens_length hw]
  exact (forall₂_of_mapM_ok hrows).length_eq

theorem decode (h : Placed cfg p) {s' : Scheduler σ} {batch : List Ref}
    {rows : List Row} {nxt : List Token} {owed : List Owed} (hnd : batch.Nodup)
    (hrun : ∀ r ∈ batch, r ∈ p.sched.running) (hrows : batch.mapM p.sched.decodeRow = .ok rows)
    (hf : p.sched.stepTokens env rows = .ok (nxt, s')) :
    Placed cfg { p with sched := s', due := batch.zip nxt, owed } := by
  have hrefs := decode_refs hrows hf
  obtain ⟨w, -, rfl⟩ := Scheduler.stepTokens_ok hf
  refine h.mono (List.Subperm.refl _) (List.Subperm.refl _) rfl rfl (fun _ => rfl) ?_ ?_
  · simpa [Point.dueRefs, hrefs] using hnd
  · intro x hx
    simp only [Point.dueRefs, hrefs] at hx
    exact List.mem_append_right _ (hrun x hx)

end Placed

theorem placed_op {p p' : Point σ} (hop : Op env cfg adm p p') (h : Placed cfg p) : Placed cfg p' := by
  cases hop with
  | cancel r hr => exact h.touches (Scheduler.touches_modify ..) rfl
  | create n => exact h.create n
  | submit pre post r hidle hin => exact h.submit hin
  | step hop =>
    cases hop with
    | dropCancelled hidle =>
      have hsub : (p.sched.waiting.filter fun r => !(p.sched.heap r).cancelled).Sublist
          p.sched.waiting := List.filter_sublist
      exact h.mono (((List.Sublist.refl _).append hsub).append (List.Sublist.refl _)).subperm
        (List.Subperm.refl _) rfl rfl (fun _ => rfl) h.due_nodup h.due_mem
    | markCancelled r hidle hr =>
      rcases Scheduler.markCancelled_cases env p.sched r with he | ⟨-, -, -, now, ht⟩
      · rw [he]
        exact h
      · exact h.touches ht rfl
    | leave s' pre post r hidle hr hfin hl => exact h.leave hidle hr hl
    | sort hidle =>
      have hperm : (Scheduler.sortWaiting p.sched.heap p.sched.waiting).Perm p.sched.waiting :=
        sortKey_perm _ _
      exact h.mono ((hperm.append_left _).append_right _).subperm (List.Subperm.refl _) rfl rfl
        (fun _ => rfl) h.due_nodup h.due_mem
    | admitHead s' r tail hbatch hdue hw hsorted hroom hcan hadm ha =>
      obtain ⟨q, hq⟩ := Scheduler.stampAdmit_admitted ha
      exact h.admitHead hbatch hw hroom hq
    | prefill s' batch rest nxt hbatch hdue hp hf => exact h.prefill _ hbatch hp hf
    | setRunning r hr => exact h.touches (Scheduler.touches_modify ..) rfl
    | emit r tok due hdue => exact h.emit hdue
    | join hdue => exact h.join hdue
    | grow r hidle hr hfin =>
      obtain ⟨blocks, hq, -⟩ := p.sched.manager.appendSlot_spec (p.sched.heap r)
      exact h.touches (p.sched.appendSlot_touches r).2 (by rw [hq])
    | preempt s' r hidle hr hfin hpre hp =>
      obtain ⟨q, hq⟩ := Scheduler.preempt_ok hp
      exact h.preempt hidle hr hq
    | decode s' batch rows nxt hidle hnd hrun hfin hcov hrows hf => exact h.decode hnd hrun hrows hf
    | clock =>
      exact h.mono (List.Subperm.refl _) (List.Subperm.refl _) rfl rfl (fun _ => rfl) h.due_nodup
        h.due_mem
    | count m =>
      exact h.mono (List.Subperm.refl _) (List.Subperm.refl _) rfl rfl (fun _ => rfl) h.due_nodup
        h.due_mem

end LlmServe
