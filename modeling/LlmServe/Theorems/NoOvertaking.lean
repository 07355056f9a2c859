import LlmServe.Theorems.NoLostRequest
import LlmServe.Theorems.NoStarvation

/-!
# No overtaking in the queue

`InOrder` is the invariant for two requests: once `a` is ahead of `b`, it stays ahead until it is
cancelled or admitted, or `b` leaves. The queue is filtered, appended to, sorted and popped, and
`stepOp_queue` lists what each of these does. How much memory a request needs does not occur.
-/

namespace LlmServe

open Infra Point

variable {σ : Type} {env : Env σ} {cfg : EngineConfig} {adm : Point σ → Ref → Prop} {m : Manager}
  {w : σ} {p p' : Point σ} {a b : Ref} {c : Nat}

/-! ## Two requests -/

/-- `b` comes after `a`: it is behind in the queue, or not there yet and with no smaller key. -/
def After (p : Point σ) (a b : Ref) : Prop :=
  b ∈ p.sched.waiting ∧ Behind p a b ∨
    b ∈ p.inbox ∧
      Scheduler.waitingKey (p.sched.heap a) ≤ Scheduler.waitingKey (p.sched.heap b)

/-- What is true of `a` and `b` since `a` came first; `c` is the counter at that time. -/
inductive InOrder (c : Nat) (a b : Ref) (p : Point σ) : Prop where
  | cancelled (hcan : (p.sched.heap a).cancelled = true)
  | admitted (hseq : (c : Int) ≤ (p.sched.heap a).admitSeq)
  | left (hnot : (p.sched.heap b).admitSeq < c) (hgone : p.phase b = .gone)
  | waits (hnot : (p.sched.heap b).admitSeq < c) (ha : a ∈ p.sched.waiting) (hafter : After p a b)

theorem After.of_eq (h : After p a b)
    (ha : Scheduler.waitingKey (p'.sched.heap a) = Scheduler.waitingKey (p.sched.heap a))
    (hb : Scheduler.waitingKey (p'.sched.heap b) = Scheduler.waitingKey (p.sched.heap b))
    (hin : b ∈ p.inbox → b ∈ p'.inbox) (hmem : b ∈ p.sched.waiting → b ∈ p'.sched.waiting)
    (hw : [a, b].Sublist p.sched.waiting → [a, b].Sublist p'.sched.waiting) : After p' a b := by
  rcases h with ⟨hbw, hbehind⟩ | ⟨hbin, hle⟩
  · exact Or.inl ⟨hmem hbw, hbehind.of_eq ha hb hw⟩
  · refine Or.inr ⟨hin hbin, ?_⟩
    rwa [ha, hb]

/-- The two come from different places of a point. -/
theorem After.notMem_held (h : After p a b) (hp : Placed cfg p) : b ∉ p.held := by
  rcases h with ⟨hbw, -⟩ | ⟨hbin, -⟩
  · exact hp.notMem_held_of_waiting hbw
  · exact fun hh => hp.notMem_inbox_of_held hh hbin

theorem After.lt_next (h : After p a b) (hp : Placed cfg p) : b < p.sched.next := by
  rcases h with ⟨hbw, -⟩ | ⟨hbin, -⟩
  · exact hp.lt_next b (mem_placed_of_waiting hbw)
  · exact hp.lt_next b (mem_placed_of_inbox hbin)

/-- Whoever is at the head of the sorted queue does not come after anyone in it. -/
theorem After.ne_head (h : After p a b) (hp : Placed cfg p) (ha : a ∈ p.sched.waiting) {x : Ref}
    {tail : List Ref} (hw : p.sched.waiting = x :: tail)
    (hsorted : p.sched.waiting.Pairwise fun a b =>
      Scheduler.waitingKey (p.sched.heap a) ≤ Scheduler.waitingKey (p.sched.heap b))
    (hax : a ≠ x) : b ≠ x := by
  rintro rfl
  have hmem : a ∈ tail := (List.mem_cons.mp (hw ▸ ha)).resolve_left hax
  rcases h with ⟨-, hlt | ⟨-, hs⟩⟩ | ⟨hbin, -⟩
  · rw [hw] at hsorted
    exact absurd ((List.pairwise_cons.mp hsorted).1 a hmem) hlt.not_ge
  · have hnd := hp.waiting_nodup
    rw [hw] at hnd hs
    exact not_pair_sublist_head hnd hs
  · exact hp.notMem_inbox_of_waiting (by simp [hw]) hbin

/-! ## A small step -/

theorem inOrder_stepOp (hop : StepOp env cfg adm p p') (hp : Placed cfg p)
    (hc : c ≤ p.sched.admitCounter) (hnot : (p.sched.heap b).admitSeq < c)
    (ha : a ∈ p.sched.waiting) (hafter : After p a b) : InOrder c a b p' := by
  have hin : b ∈ p.inbox → b ∈ p'.inbox := fun h => by rwa [(stepOp_frame hop).inbox]
  have hne : ∀ x ∈ p.held, a ≠ x ∧ b ≠ x := by
    intro x hx
    constructor
    · rintro rfl
      exact hp.notMem_held_of_waiting ha hx
    · rintro rfl
      exact hafter.notMem_held hp hx
  cases stepOp_queue hop hp with
  | same h =>
    refine .waits (by rwa [h.seq b]) (by rwa [h.waiting]) ?_
    exact hafter.of_eq (h.key a) (h.key b) hin (by rw [h.waiting]; exact id)
      (by rw [h.waiting]; exact id)
  | dropCancelled hheap hheld hw =>
    cases hcan : (p.sched.heap a).cancelled with
    | true => exact .cancelled (by rwa [hheap])
    | false =>
      have ha' : a ∈ p'.sched.waiting := by
        rw [hw]
        exact List.mem_filter.mpr ⟨ha, by simp [hcan]⟩
      by_cases hb : b ∈ p.sched.waiting ∧ (p.sched.heap b).cancelled = true
      · -- `b` is taken out of the queue and is nowhere else
        refine .left (by rwa [hheap]) (phase_gone ?_ ?_)
        · simp only [placed, hheld, (stepOp_frame hop).inbox, hw, List.mem_append, not_or]
          exact ⟨⟨hp.notMem_inbox_of_waiting hb.1, by simp [hb.2]⟩,
            hp.notMem_held_of_waiting hb.1⟩
        · rw [(stepOp_frame hop).next]
          exact hafter.lt_next hp
      · refine .waits (by rwa [hheap]) ha' (hafter.of_eq (by rw [hheap]) (by rw [hheap]) hin ?_ ?_)
        · intro hbw
          have hbc : (p.sched.heap b).cancelled = false := by simpa [hbw] using hb
          rw [hw]
          exact List.mem_filter.mpr ⟨hbw, by simp [hbc]⟩
        · intro hs
          have hbw : b ∈ p.sched.waiting := hs.subset (by simp)
          exact pair_sublist_drop hw hcan (by simpa [hbw] using hb) hs
  | sort hheap hheld hw =>
    have hmem : ∀ q, q ∈ p'.sched.waiting ↔ q ∈ p.sched.waiting := fun q => by
      rw [hw]
      exact mem_sortKey _
    refine .waits (by rwa [hheap]) ((hmem a).mpr ha) ?_
    rcases hafter with ⟨hbw, hlt | ⟨he, hs⟩⟩ | ⟨hbin, hle⟩
    · exact Or.inl ⟨(hmem b).mpr hbw, Or.inl (by rwa [hheap])⟩
    · refine Or.inl ⟨(hmem b).mpr hbw, Or.inr ⟨by rwa [hheap], ?_⟩⟩
      rw [hw]
      exact pair_sublist_sortKey _ he.le hs
    · exact Or.inr ⟨hin hbin, by rwa [hheap]⟩
  | admitHead x tail hw hsorted hseq hother hheld hw' =>
    by_cases hax : a = x
    · refine .admitted ?_
      rw [hax, hseq]
      exact Int.ofNat_le.mpr hc
    · have hbx := hafter.ne_head hp ha hw hsorted hax
      have hmem : ∀ q, q ≠ x → q ∈ p.sched.waiting → q ∈ p'.sched.waiting := by
        intro q hq hmem
        rw [hw']
        exact (List.mem_cons.mp (hw ▸ hmem)).resolve_left hq
      refine .waits (by rwa [hother b hbx]) (hmem a hax ha) ?_
      exact hafter.of_eq (by rw [hother a hax]) (by rw [hother b hbx]) hin (hmem b hbx)
        (pair_sublist_tail hw hw' hax)
  | preempt x hx hseq hother hheld hw =>
    -- the evicted request is a third one, and goes to the end
    obtain ⟨hax, hbx⟩ := hne x hx
    have hsub : p.sched.waiting.Sublist p'.sched.waiting := by
      rw [hw]
      exact List.sublist_append_left ..
    refine .waits (by rwa [hseq b]) (hsub.subset ha) ?_
    exact hafter.of_eq (by rw [hother a hax]) (by rw [hother b hbx]) hin
      (fun h => hsub.subset h) fun h => h.trans hsub

/-- The counter of an admitted request is never taken back. -/
theorem op_admitSeq (hop : Op env cfg adm p p') (hc : c ≤ p.sched.admitCounter) {r : Ref}
    (hr : r < p.sched.next) : c ≤ p'.sched.admitCounter ∧
      ((c : Int) ≤ (p.sched.heap r).admitSeq → (c : Int) ≤ (p'.sched.heap r).admitSeq) := by
  cases hop with
  | step hop =>
    obtain ⟨hle, hseq⟩ := stepOps_admitSeq (.single hop)
    exact ⟨hc.trans hle, hseq r c hc⟩
  | cancel x hx =>
    have hseq : ((p.sched.cancel x).heap r).admitSeq = (p.sched.heap r).admitSeq :=
      apply_update Request.admitSeq (by rfl) r
    exact ⟨hc, fun h => hseq ▸ h⟩
  | create n =>
    have hother : (p.sched.create n.toRequest).heap r = p.sched.heap r :=
      Function.update_of_ne hr.ne ..
    exact ⟨hc, fun h => hother ▸ h⟩
  | submit pre post x hidle hin =>
    have hseq : ((p.sched.submit x).heap r).admitSeq = (p.sched.heap r).admitSeq :=
      apply_update Request.admitSeq (by rfl) r
    exact ⟨hc, fun h => hseq ▸ h⟩

/-- Clients and the intake append to the queue at most. -/
theorem inOrder_client (hop : Op env cfg adm p p') (hp : Placed cfg p)
    (hc : c ≤ p.sched.admitCounter) (hnot : (p.sched.heap b).admitSeq < c)
    (ha : a ∈ p.sched.waiting) (hafter : After p a b) : InOrder c a b p' := by
  cases hop with
  | step hop => exact inOrder_stepOp hop hp hc hnot ha hafter
  | cancel x hx =>
    have hkey : ∀ q, Scheduler.waitingKey ((p.sched.cancel x).heap q)
        = Scheduler.waitingKey (p.sched.heap q) := waitingKey_update rfl rfl
    have hseq : ((p.sched.cancel x).heap b).admitSeq = (p.sched.heap b).admitSeq :=
      apply_update Request.admitSeq (by rfl) b
    exact .waits (hseq ▸ hnot) ha (hafter.of_eq (hkey a) (hkey b) id id id)
  | create n =>
    have hother : ∀ q < p.sched.next, (p.sched.create n.toRequest).heap q = p.sched.heap q :=
      fun q hq => Function.update_of_ne hq.ne ..
    have hoa := hother a (hp.lt_next a (mem_placed_of_waiting ha))
    have hob := hother b (hafter.lt_next hp)
    refine .waits (hob ▸ hnot) ha (hafter.of_eq (congrArg _ hoa) (congrArg _ hob) ?_ id id)
    exact fun h => List.mem_append_left _ h
  | submit pre post x hidle hin =>
    have hkey : ∀ q, Scheduler.waitingKey ((p.sched.submit x).heap q)
        = Scheduler.waitingKey (p.sched.heap q) := waitingKey_update rfl rfl
    have hseq : ((p.sched.submit x).heap b).admitSeq = (p.sched.heap b).admitSeq :=
      apply_update Request.admitSeq (by rfl) b
    have hw : (p.sched.submit x).waiting = p.sched.waiting ++ [x] := rfl
    have hsub : p.sched.waiting.Sublist (p.sched.submit x).waiting := by
      rw [hw]
      exact List.sublist_append_left ..
    refine .waits (hseq ▸ hnot) (hsub.subset ha) ?_
    by_cases hbx : b = x
    · -- `b` itself goes to the end of the queue
      have hbin : b ∈ p.inbox := by simp [hin, hbx]
      have hle : Scheduler.waitingKey (p.sched.heap a) ≤ Scheduler.waitingKey (p.sched.heap b) := by
        rcases hafter with ⟨hbw, -⟩ | ⟨-, hle⟩
        · exact absurd hbin (hp.notMem_inbox_of_waiting hbw)
        · exact hle
      refine Or.inl ⟨?_, ?_⟩
      · show b ∈ (p.sched.submit x).waiting
        simp [hw, hbx]
      · unfold Behind
        show _ < Scheduler.waitingKey ((p.sched.submit x).heap b) ∨ _
        refine hle.lt_or_eq.imp (fun hlt => ?_) fun he => ⟨?_, ?_⟩
        · rwa [hkey b, show Scheduler.waitingKey ((p.sched.submit x).heap a) = _ from hkey a]
        · show Scheduler.waitingKey ((p.sched.submit x).heap a) = _
          rw [hkey a, he]
          exact (hkey b).symm
        · show [a, b].Sublist (p.sched.submit x).waiting
          rw [hw, hbx]
          exact (List.singleton_sublist.mpr ha).append (List.Sublist.refl [x])
    · refine hafter.of_eq (hkey a) (hkey b) (fun h => ?_) (fun h => hsub.subset h)
        fun h => h.trans hsub
      simpa [hin, hbx] using h

/-- **The order of two requests survives every small step.** -/
theorem inOrder_op (hop : Op env cfg adm p p') (hgood : Good cfg m p) (hsub : p.Submitted a)
    (hc : c ≤ p.sched.admitCounter) (h : InOrder c a b p) : InOrder c a b p' := by
  cases h with
  | cancelled hcan => exact .cancelled ((hgood.evolves (.single hop) hsub).cancelled hcan)
  | admitted hseq => exact .admitted ((op_admitSeq hop hc hsub.1).2 hseq)
  | left hnot hgone =>
    have hmv := op_move hop hgood.placed hgood.shape b
    obtain ⟨hgone', -, hreq⟩ := gone_move hmv (hgood.facts b).ending hgone
    refine .left ?_ hgone'
    rcases hreq with he | he
    · rwa [show p'.sched.heap b = _ from he]
    · rwa [show p'.sched.heap b = _ from he]
  | waits hnot ha hafter => exact inOrder_client hop hgood.placed hc hnot ha hafter

theorem inOrder_ops (hops : Ops env cfg adm p p') (hgood : Good cfg m p) (hsub : p.Submitted a)
    (hc : c ≤ p.sched.admitCounter) (h : InOrder c a b p) : InOrder c a b p' := by
  have hkeep : c ≤ p'.sched.admitCounter ∧ InOrder c a b p' := by
    induction hops with
    | refl => exact ⟨hc, h⟩
    | tail hfirst hop ih =>
      obtain ⟨hc', h'⟩ := ih
      have hsub' := (hgood.submitted hfirst hsub).2
      exact ⟨(op_admitSeq hop hc' hsub'.1).1, inOrder_op hop (hgood.ops hfirst) hsub' hc' h'⟩
  exact hkeep.2

/-- `b` is not admitted unless `a` is, or is cancelled. -/
theorem InOrder.admitted_of (h : InOrder c a b p) (hb : (c : Int) ≤ (p.sched.heap b).admitSeq) :
    (p.sched.heap a).cancelled = true ∨ (c : Int) ≤ (p.sched.heap a).admitSeq := by
  cases h with
  | cancelled hcan => exact Or.inl hcan
  | admitted hseq => exact Or.inr hseq
  | left hnot => exact absurd (Int.lt_of_le_of_lt hb hnot) (Int.lt_irrefl _)
  | waits hnot => exact absurd (Int.lt_of_le_of_lt hb hnot) (Int.lt_irrefl _)

/-! ## Where the order comes from -/

theorem inOrder_start (hst : Stamped p) (ha : a ∈ p.sched.waiting) (hb : b ∈ p.sched.waiting)
    (hab : Behind p a b) : InOrder p.sched.admitCounter a b p :=
  .waits (hst b) ha (Or.inl ⟨hb, hab⟩)

/-- What the admission number of a request says about its life. -/
structure Numbered (v : View) : Prop where
  unserved : v.req.admitSeq < 0 → ¬v.phase.Holds ∧ v.req.finishReason = none
  unsubmitted : v.phase = .absent ∨ v.phase = .inbox → v.req.admitSeq < 0

theorem numbered_move {r : Ref} {v v' : View} (hmv : Move cfg m r v v') (hend : Ending v)
    (h : Numbered v) : Numbered v' := by
  have hheld : v.phase.Holds → ¬v.req.admitSeq < 0 := fun hh hlt => (h.unserved hlt).1 hh
  have hpopped : v.phase = .popped → ¬v.req.admitSeq < 0 := fun hph => hheld (Or.inl hph)
  have hbatch : v.phase = .batch → ¬v.req.admitSeq < 0 := fun hph => hheld (Or.inr (Or.inl hph))
  have hrunning : v.phase = .running → ¬v.req.admitSeq < 0 := fun hph =>
    hheld (Or.inr (Or.inr hph))
  cases hmv with
  | stay => exact h
  | cancel => exact ⟨h.unserved, h.unsubmitted⟩
  | create n hphase =>
    refine ⟨fun _ => ⟨by simp [Phase.Holds], rfl⟩, fun _ => ?_⟩
    show (-1 : Int) < 0
    decide
  | submit hphase =>
    exact ⟨fun hseq => ⟨by simp [Phase.Holds], (h.unserved hseq).2⟩, by simp⟩
  | drop hphase hc =>
    exact ⟨fun hseq => ⟨by simp [Phase.Holds], (h.unserved hseq).2⟩, by simp⟩
  | admitHead blocks seq hphase hlen =>
    refine ⟨fun hseq => ?_, by simp⟩
    change (seq : Int) < 0 at hseq
    omega
  | emit now tok hdue =>
    have hno := hheld (Or.inr (hend.due_phase hdue))
    rw [← Request.emit_admitSeq now tok v.req] at hno
    refine ⟨fun hseq => absurd hseq hno, fun hph => ?_⟩
    rcases hend.due_phase hdue with hd | hd <;> rcases hph with hph | hph <;>
      cases hd.symm.trans hph
  | prefill hphase => exact ⟨fun hseq => absurd hseq (hpopped hphase), by simp⟩
  | setRunning hphase =>
    refine ⟨fun hseq => absurd hseq (hbatch hphase), fun hph => ?_⟩
    rcases hph with hph | hph <;> cases hphase.symm.trans hph
  | join hphase => exact ⟨fun hseq => absurd hseq (hbatch hphase), by simp⟩
  | leave hphase | preempt hphase => exact ⟨fun hseq => absurd hseq (hrunning hphase), by simp⟩
  | abort now hphase | grow blocks hphase | decode tok hphase =>
    refine ⟨fun hseq => absurd hseq (hrunning hphase), fun hph => ?_⟩
    rcases hph with hph | hph <;> cases hphase.symm.trans hph

theorem Numbered.unborn : Numbered .unborn where
  unserved := by
    intro _
    refine ⟨?_, rfl⟩
    rintro (h | h | h) <;> cases h
  unsubmitted := fun _ => by
    show (-1 : Int) < 0
    decide

/-- A submitted request that was neither admitted nor cancelled is in the queue. -/
theorem Good.waiting_of_unserved (hgood : Good cfg m p) (hsub : p.Submitted a)
    (h : Numbered (p.view a)) (hseq : (p.sched.heap a).admitSeq < 0)
    (hopen : (p.sched.heap a).cancelled = false) : a ∈ p.sched.waiting := by
  obtain ⟨hheld, hnone⟩ := h.unserved hseq
  have hmem := mem_of_phase p a
  cases hph : p.phase a with
  | waiting => rwa [hph] at hmem
  | absent => exact absurd hph hsub.phase.1
  | inbox => exact absurd hph hsub.phase.2
  | popped => exact absurd (Or.inl hph) hheld
  | batch => exact absurd (Or.inr (Or.inl hph)) hheld
  | running => exact absurd (Or.inr (Or.inr hph)) hheld
  | gone =>
    rcases (hgood.facts a).ending.gone hph with hne | hcan
    · exact absurd hnone hne
    · exact absurd (hopen.symm.trans hcan) nofun

/-- A request in the inbox has been neither admitted nor evicted. -/
theorem Good.inbox_new (hgood : Good cfg m p) (hb : b ∈ p.inbox) :
    (p.sched.heap b).preemptCount = 0 := by
  have hout := (hgood.facts b).ending.unsubmitted (Or.inr (phase_inbox hb))
  have hle := (hgood.facts b).counted.le
  rw [hout] at hle
  exact Nat.le_zero.mp hle

/-- Among first admissions the order is that of submission, if that is the order of arrival. -/
theorem inOrder_first (hgood : Good cfg m p) (hnum : ∀ r, Numbered (p.view r))
    (ha : p.Submitted a) (hb : b ∈ p.inbox)
    (harr : (p.sched.heap a).arrivalTime ≤ (p.sched.heap b).arrivalTime) : InOrder 0 a b p := by
  cases hcan : (p.sched.heap a).cancelled with
  | true => exact .cancelled hcan
  | false =>
    by_cases hseq : 0 ≤ (p.sched.heap a).admitSeq
    · exact .admitted hseq
    · have haw := hgood.waiting_of_unserved ha (hnum a) (Int.not_le.mp hseq) hcan
      refine .waits ((hnum b).unsubmitted (Or.inr (phase_inbox hb))) haw (Or.inr ⟨hb, ?_⟩)
      rw [Scheduler.waitingKey, Scheduler.waitingKey, hgood.inbox_new hb,
        Prod.Lex.toLex_le_toLex]
      rcases Nat.eq_zero_or_pos (p.sched.heap a).preemptCount with hz | hpos
      · exact Or.inr ⟨by simp [hz], harr⟩
      · exact Or.inl (by simpa using hpos)

/-! ## One call of `_pop_admissible` -/

theorem popLoop_prefix {limit : Nat} : ∀ {l batch batch' : List Ref} {s s' : Scheduler σ},
    s.waiting = l → Scheduler.popLoop limit l batch s = .ok (batch', s') →
    (∃ popped, batch' = batch ++ popped ∧ l = popped ++ s'.waiting) ∧
      (batch'.length < limit → ∀ r ∈ s'.waiting.head?,
        s'.manager.canAllocate (s'.heap r) (s'.running.length + batch'.length) = false) := by
  intro l
  induction l with
  | nil =>
    intro batch batch' s s' hw h
    cases h
    exact ⟨⟨[], by simp [hw]⟩, fun _ r hr => by simp [hw] at hr⟩
  | cons x rest ih =>
    intro batch batch' s s' hw h
    unfold Scheduler.popLoop at h
    split at h
    · obtain ⟨s₁, halloc, hrest⟩ := exists_of_bind_ok h
      obtain ⟨q, hq⟩ := Scheduler.stampAdmit_admitted halloc
      obtain ⟨⟨popped, rfl, hpop⟩, hstop⟩ := ih hq.waiting hrest
      exact ⟨⟨x :: popped, by simp, by simp [hpop]⟩, hstop⟩
    · next hno =>
      cases h
      refine ⟨⟨[], by simp [hw]⟩, fun hlt r hr => ?_⟩
      have hrx : x = r := by simpa [hw] using hr
      subst hrx
      simpa [hlt] using hno

/-- What is admitted is the front of the sorted queue, up to the first request that does not fit. -/
theorem popAdmissible_prefix {limit : Nat} {s s' : Scheduler σ} {batch : List Ref}
    (h : s.popAdmissible limit = .ok (batch, s')) :
    batch ++ s'.waiting = Scheduler.sortWaiting s.heap s.waiting ∧
      (batch.length < limit → ∀ r ∈ s'.waiting.head?,
        s'.manager.canAllocate (s'.heap r) (s'.running.length + batch.length) = false) := by
  obtain ⟨⟨popped, rfl, hw⟩, hstop⟩ := popLoop_prefix rfl h
  exact ⟨hw.symm, hstop⟩

/-! ## Over the runs of the threads -/

/--
**No overtaking.** Let `a` come before `b` in the queue at some boundary `l` of a run. Whatever the
threads do from there on, at any moment inside or between steps: if `b` has been admitted since,
then `a` was cancelled or admitted. If `a` had been given to the scheduler while `b` was in the
inbox, and did not arrive later, the same is true of their first admissions. And one call of
`_pop_admissible` takes a front of the sorted queue: it stops at the first request that does not
fit, however small the next one is.
-/
theorem no_overtaking (hm : m.Fresh) {acts acts' : List LoopAction} {l l' : EngineLoop σ}
    (hrun : run (EngineLoop.act env cfg) (.init cfg m w) acts = .ok l)
    (hrun' : run (EngineLoop.act env cfg) l acts' = .ok l') (hp : Reach env cfg l'.point p) :
    (∀ a ∈ l.sched.waiting, ∀ b ∈ l.sched.waiting, Behind l.point a b →
      AdmittedSince l.sched p.sched b →
      (p.sched.heap a).cancelled = true ∨ AdmittedSince l.sched p.sched a) ∧
    (∀ a b, l.point.Submitted a → b ∈ l.point.inbox →
      (l.sched.heap a).arrivalTime ≤ (l.sched.heap b).arrivalTime →
      0 ≤ (p.sched.heap b).admitSeq →
      (p.sched.heap a).cancelled = true ∨ 0 ≤ (p.sched.heap a).admitSeq) ∧
    (∀ limit batch s', p.sched.popAdmissible limit = .ok (batch, s') →
      batch ++ s'.waiting = Scheduler.sortWaiting p.sched.heap p.sched.waiting ∧
      (batch.length < limit → ∀ r ∈ s'.waiting.head?,
        s'.manager.canAllocate (s'.heap r) (s'.running.length + batch.length) = false)) := by
  have hstart : Good cfg m (EngineLoop.point (.init cfg m w)) := .init hm w
  have hreach := loop_reach hstart hrun
  have hgood := hstart.ops hreach
  have hlater : Reach env cfg l.point p := (loop_reach hgood hrun').trans hp
  have hnum : ∀ r, Numbered (l.point.view r) := fun r =>
    view_of_reach hm hreach r (fun _ _ hmv hf => numbered_move hmv hf.ending) .unborn
  refine ⟨fun a ha b hb hab hadm => ?_, fun a b ha hb harr hadm => ?_, fun limit batch s' h => ?_⟩
  · have hsub : l.point.Submitted a := hgood.submitted_of_mem (Or.inl ha)
    have hfirst := inOrder_start (stamped_ops (stamped_init cfg m w) hreach) ha hb hab
    exact (inOrder_ops hlater hgood hsub le_rfl hfirst).admitted_of hadm
  · have hfirst := inOrder_first hgood hnum ha hb harr
    exact (inOrder_ops hlater hgood ha (Nat.zero_le _) hfirst).admitted_of hadm
  · exact popAdmissible_prefix h

/-- Request 1 does not fit yet and request 2 would; when 2 is admitted, 1 has been. -/
theorem no_overtaking_large_first :
    ∃ l, run (EngineLoop.act (Env.ofNext fun toks => toks.length) {})
        (.init {} (.block (.new 4 1 Nat.one_pos false)) .start)
        [.submit { requestId := "a", promptTokenIds := [1, 1], maxNewTokens := 3 }, .advance,
          .advance, .advance, .advance, .advance,
          .submit { requestId := "b", promptTokenIds := [1, 1, 1], maxNewTokens := 1 },
          .submit { requestId := "c", promptTokenIds := [1], maxNewTokens := 1 },
          .advance, .advance, .advance, .advance, .advance, .advance] = .ok l ∧
      ∃ l', run (EngineLoop.act (Env.ofNext fun toks => toks.length) {}) l
          (List.replicate 7 .advance) = .ok l' ∧ AdmittedSince l.sched l'.sched 2 ∧
        ((l'.sched.heap 1).cancelled = true ∨ AdmittedSince l.sched l'.sched 1) := by
  have hrun : ∃ l, run (EngineLoop.act (Env.ofNext fun toks => toks.length) {})
      (.init {} (.block (.new 4 1 Nat.one_pos false)) .start)
      [.submit { requestId := "a", promptTokenIds := [1, 1], maxNewTokens := 3 }, .advance,
        .advance, .advance, .advance, .advance,
        .submit { requestId := "b", promptTokenIds := [1, 1, 1], maxNewTokens := 1 },
        .submit { requestId := "c", promptTokenIds := [1], maxNewTokens := 1 },
        .advance, .advance, .advance, .advance, .advance, .advance] = .ok l ∧
      l.sched.waiting = [1, 2] ∧
      Scheduler.waitingKey (l.sched.heap 1) = Scheduler.waitingKey (l.sched.heap 2) ∧
      ∃ l', run (EngineLoop.act (Env.ofNext fun toks => toks.length) {}) l
        (List.replicate 7 .advance) = .ok l' ∧ AdmittedSince l.sched l'.sched 2 := by
    decide +kernel
  obtain ⟨l, hl, hw, hkey, l', hl', hadm⟩ := hrun
  have hbehind : Behind l.point 1 2 := Or.inr ⟨hkey, by rw [show l.point.sched.waiting = _ from hw]⟩
  exact ⟨l, hl, l', hl', hadm, (no_overtaking (Manager.fresh_block_new ..) hl hl' .refl).1
    1 (by simp [hw]) 2 (by simp [hw]) hbehind hadm⟩

end LlmServe
