import LlmServe.Properties.Invariant
import Mathlib.Algebra.Order.BigOperators.Group.List
import Mathlib.Algebra.BigOperators.Ring.Finset

/-!
# What the allocator has on its books

`live` and `committed` are keyed by the client's request id, blocks are tracked for each object.
`Accounted` says that the two agree: the entries are those of the requests holding memory.
It is kept by every small step, provided a request is admitted only while no holder has its id
(`FreshId`); `op_holders` lists the three things a small step can do to the holders.

Admission by the worst case then bounds the sum of the holders' worst cases (`Committed`), and a
request that is still growing always finds a block (`grow_succeeds`).
-/

namespace LlmServe

open Infra Point

variable {σ : Type} {env : Env σ} {cfg : EngineConfig} {adm : Point σ → Ref → Prop}
  {m : Manager} {p p' : Point σ}

/-! ## What a small step does to the holders -/

/-- A small step leaves the books alone, admits a request or frees one. -/
theorem op_holders (hop : Op env cfg adm p p') (h : Placed cfg p) :
    (p'.held.Perm p.held ∧ p'.sched.manager.live = p.sched.manager.live ∧
      p'.sched.manager.committed = p.sched.manager.committed) ∨
    (∃ r q headroom, r ∈ p.sched.waiting ∧ adm p r ∧ p'.held.Perm (p.held ++ [r]) ∧
      p.sched.manager.canAllocate (p.sched.heap r) headroom = true ∧
      p.sched.manager.allocate r (p.sched.heap r) = .ok (p'.sched.manager, q)) ∨
    ∃ r q q', p.held.Perm (r :: p'.held) ∧ q.requestId = (p.sched.heap r).requestId ∧
      p.sched.manager.free q = .ok (p'.sched.manager, q') := by
  cases hop with
  | step hop =>
    cases hop with
    | markCancelled r hidle hr =>
      rcases Scheduler.markCancelled_cases env p.sched r with he | ⟨-, -, he, now, ht⟩
      · exact Or.inl ⟨by rw [he], by rw [he], by rw [he]⟩
      · refine Or.inl ⟨?_, by rw [he], by rw [he]⟩
        simp only [Point.held, ht.running]
        exact List.Perm.refl _
    | leave s' pre post r hidle hr hfin hl =>
      obtain ⟨q, hfree, ht⟩ := Scheduler.leave_ok hl
      refine Or.inr (Or.inr ⟨r, { p.sched.heap r with state := .finished }, q, ?_, rfl, hfree⟩)
      simp only [Point.held, hidle.1, hidle.2.1, hr, List.nil_append]
      exact List.perm_middle
    | admitHead s' r tail hbatch hdue hw hsorted hroom hcan hadm ha =>
      obtain ⟨q, hq⟩ := Scheduler.stampAdmit_admitted ha
      refine Or.inr (Or.inl ⟨r, q, _, by simp [hw], hadm, ?_, hcan, hq.allocate⟩)
      exact (held_admitHead hq.running r).trans (List.perm_append_singleton ..).symm
    | prefill s' batch rest nxt hbatch hdue hp hf =>
      obtain ⟨w, -, rfl⟩ := Scheduler.stepTokens_ok hf
      exact Or.inl ⟨held_prefill hp hbatch, rfl, rfl⟩
    | emit r tok due hdue =>
      obtain ⟨now, he⟩ := Scheduler.emit_ok env p.sched r tok
      refine Or.inl ⟨?_, by rw [he.manager], by rw [he.manager]⟩
      simp only [Point.held, he.running]
      exact List.Perm.refl _
    | join hdue => exact Or.inl ⟨held_join p, rfl, rfl⟩
    | grow r hidle hr hfin =>
      obtain ⟨blocks, -, -, -, hlive, hcom, -⟩ := p.sched.manager.appendSlot_spec (p.sched.heap r)
      exact Or.inl ⟨List.Perm.refl _, hlive, hcom⟩
    | preempt s' r hidle hr hfin hpre hp =>
      obtain ⟨q, hq⟩ := Scheduler.preempt_ok hp
      refine Or.inr (Or.inr ⟨r, _, q, ?_, rfl, hq.free⟩)
      simp only [Point.held, hidle.1, hidle.2.1, h.preempted_running hr hq, List.nil_append]
      exact List.perm_cons_erase hr
    | decode s' batch rows nxt hidle hnd hrun hfin hcov hrows hf =>
      obtain ⟨w, -, rfl⟩ := Scheduler.stepTokens_ok hf
      exact Or.inl ⟨List.Perm.refl _, rfl, rfl⟩
    | _ => exact Or.inl ⟨List.Perm.refl _, rfl, rfl⟩
  | _ => exact Or.inl ⟨List.Perm.refl _, rfl, rfl⟩

/-! ## The books -/

/-- `allocate` is about to write a key that `live` does not have. -/
def FreshId (p : Point σ) (r : Ref) : Prop :=
  (p.sched.heap r).requestId ∉ p.sched.manager.live.keys

def Point.liveEntries (p : Point σ) : List (String × Ref) :=
  p.held.map fun r => ((p.sched.heap r).requestId, r)

def Point.committedEntries (m : Manager) (p : Point σ) : List (String × Int) :=
  p.held.map fun r => ((p.sched.heap r).requestId, m.worst (p.sched.heap r))

/-- The books have one entry for each holder. -/
structure Accounted (m : Manager) (p : Point σ) : Prop where
  live : p.sched.manager.live.entries.Perm p.liveEntries
  committed : m.paged = true → p.sched.manager.committed.entries.Perm (p.committedEntries m)

theorem Good.evolves_op (h : Good cfg m p) (hop : Op env cfg adm p p') {r : Ref}
    (hr : r ∈ p.sched.waiting ∨ r ∈ p.held) : (p.sched.heap r).Evolves (p'.sched.heap r) :=
  h.evolves (.single hop) (h.submitted_of_mem hr)

theorem worst_evolves {q q' : Request} (h : q.Evolves q') : m.worst q' = m.worst q := by
  unfold Manager.worst
  rw [h.promptTokenIds, h.maxNewTokens]

theorem accounted_init (hm : m.Fresh) (w : σ) : Accounted m (rest (.init cfg m w) []) := by
  cases m with
  | slot m =>
    refine ⟨?_, nofun⟩
    show m.live.entries.Perm []
    rw [hm.2]
    exact List.Perm.refl _
  | block m =>
    refine ⟨?_, fun _ => ?_⟩
    · show m.live.entries.Perm []
      rw [hm.2.1]
      exact List.Perm.refl _
    · show m.committed.entries.Perm []
      rw [hm.2.2]
      exact List.Perm.refl _

theorem accounted_op (h : Good cfg m p) (ha : Accounted m p) (hop : Op env cfg adm p p')
    (hfresh : ∀ r ∈ p.sched.waiting, adm p r → FreshId p r) : Accounted m p' := by
  have hid : ∀ r, r ∈ p.sched.waiting ∨ r ∈ p.held →
      (p'.sched.heap r).requestId = (p.sched.heap r).requestId := fun r hr =>
    (h.evolves_op hop hr).requestId
  have hworst : ∀ r, r ∈ p.sched.waiting ∨ r ∈ p.held →
      m.worst (p'.sched.heap r) = m.worst (p.sched.heap r) := fun r hr =>
    worst_evolves (h.evolves_op hop hr)
  have hlive : ∀ l : List Ref, (∀ r ∈ l, r ∈ p.sched.waiting ∨ r ∈ p.held) →
      l.map (fun r => ((p'.sched.heap r).requestId, r))
        = l.map fun r => ((p.sched.heap r).requestId, r) := fun l hl =>
    List.map_congr_left fun r hr => by rw [hid r (hl r hr)]
  have hcom : ∀ l : List Ref, (∀ r ∈ l, r ∈ p.sched.waiting ∨ r ∈ p.held) →
      l.map (fun r => ((p'.sched.heap r).requestId, m.worst (p'.sched.heap r)))
        = l.map fun r => ((p.sched.heap r).requestId, m.worst (p.sched.heap r)) := fun l hl =>
    List.map_congr_left fun r hr => by rw [hid r (hl r hr), hworst r (hl r hr)]
  have hmp : m.paged = true → p.sched.manager.paged = true := h.shape.paged.trans
  rcases op_holders hop h.placed with ⟨hheld, hl, hc⟩ | ⟨r, q, headroom, hw, hadm, hheld, -, hal⟩ |
    ⟨r, q, q', hheld, hq, hfree⟩
  · have hmem : ∀ r ∈ p'.held, r ∈ p.sched.waiting ∨ r ∈ p.held :=
      fun r hr => Or.inr (hheld.mem_iff.mp hr)
    refine ⟨?_, fun hp => ?_⟩
    · rw [hl, liveEntries, hlive _ hmem]
      exact ha.live.trans (hheld.symm.map _)
    · rw [hc, committedEntries, hcom _ hmem]
      exact (ha.committed hp).trans (hheld.symm.map _)
  · obtain ⟨blocks, -, -, -, -, hl, hc⟩ := Manager.allocate_ok hal
    have hmem : ∀ x ∈ p'.held, x ∈ p.sched.waiting ∨ x ∈ p.held := by
      intro x hx
      rcases List.mem_append.mp (hheld.mem_iff.mp hx) with hx | hx
      · exact Or.inr hx
      · exact Or.inl (List.mem_singleton.mp hx ▸ hw)
    -- the new key is the key of no holder
    have hkey : (p.sched.heap r).requestId ∉ p.liveEntries.map Prod.fst := fun hk =>
      hfresh r hw hadm ((Dict.keys_perm ha.live).mem_iff.mpr hk)
    have hids : (p.committedEntries m).map Prod.fst = p.liveEntries.map Prod.fst := by
      simp [committedEntries, liveEntries]
    refine ⟨?_, fun hp => ?_⟩
    · rw [hl, liveEntries, hlive _ hmem]
      refine (Dict.set_perm hkey ha.live).trans ?_
      rw [liveEntries, ← List.map_singleton (f := fun r => ((p.sched.heap r).requestId, r)),
        ← List.map_append]
      exact hheld.symm.map _
    · rw [hc (hmp hp), committedEntries, hcom _ hmem, h.shape.worst]
      refine (Dict.set_perm (hids ▸ hkey) (ha.committed hp)).trans ?_
      rw [committedEntries, ← List.map_singleton
        (f := fun r => ((p.sched.heap r).requestId, m.worst (p.sched.heap r))), ← List.map_append]
      exact hheld.symm.map _
  · obtain ⟨-, -, hl, hc⟩ := Manager.free_ok hfree
    have hmem : ∀ x ∈ p'.held, x ∈ p.sched.waiting ∨ x ∈ p.held := fun x hx =>
      Or.inr (hheld.mem_iff.mpr (List.mem_cons_of_mem _ hx))
    refine ⟨?_, fun hp => ?_⟩
    · rw [hl, hq, liveEntries, hlive _ hmem]
      exact Dict.pop_perm (ha.live.trans (hheld.map _))
    · rw [hc (hmp hp), hq, committedEntries, hcom _ hmem]
      exact Dict.pop_perm ((ha.committed hp).trans (hheld.map _))

/-- `live_tokens` counts every holder once. -/
theorem Accounted.live_tokens (ha : Accounted m p) :
    (p.sched.manager.stats p.sched.heap).liveTokens =
      (p.held.map fun r => ((p.sched.heap r).seqLen : Int)).sum := by
  have hstats : (p.sched.manager.stats p.sched.heap).liveTokens =
      liveTokens p.sched.heap p.sched.manager.live := by
    cases p.sched.manager <;> rfl
  have hsum := ((Dict.values_perm ha.live).map fun r => ((p.sched.heap r).seqLen : Int)).sum_eq
  rw [liveEntries, List.map_map, List.map_map] at hsum
  exact hstats.trans hsum

/-! ## Admission by the worst case -/

/-- What the holders may come to need. -/
def Point.promised (m : Manager) (p : Point σ) : Int :=
  (p.held.map fun r => m.worst (p.sched.heap r)).sum

/-- Every request that was submitted may produce a token. -/
def Positive (p : Point σ) : Prop := ∀ r, p.Submitted r → 1 ≤ (p.sched.heap r).maxNewTokens

/-- The worst case of every submitted request covers its prompt. -/
def Covering (m : Manager) (p : Point σ) : Prop := ∀ r, p.Submitted r →
  m.unitsNeeded (p.sched.heap r).promptTokenIds.length ≤ m.worst (p.sched.heap r)

theorem Positive.covering (hpos : Positive p) : Covering m p := by
  intro r hr
  have hmax := hpos r hr
  exact m.unitsNeeded_mono (by omega)

theorem Accounted.sum_committed (ha : Accounted m p) (hp : m.paged = true) :
    p.sched.manager.committed.values.sum = p.promised m := by
  have h := (Dict.values_perm (ha.committed hp)).sum_eq
  rwa [committedEntries, List.map_map] at h

theorem Covering.worst_nonneg (hcov : Covering m p) {r : Ref} (hr : p.Submitted r) :
    0 ≤ m.worst (p.sched.heap r) :=
  (m.unitsNeeded_nonneg (Int.natCast_nonneg _)).trans (hcov r hr)

/-- The sum of the worst cases stays within the pool. -/
theorem promised_op (h : Good cfg m p) (ha : Accounted m p) (hres : m.reserves = true)
    (hcov : Covering m p) (hop : Op env cfg adm p p') (hle : p.promised m ≤ m.units) :
    p'.promised m ≤ m.units := by
  have hpaged := Manager.reserves_paged hres
  have hsum : ∀ l : List Ref, (∀ r ∈ l, r ∈ p.sched.waiting ∨ r ∈ p.held) →
      (l.map fun r => m.worst (p'.sched.heap r)).sum
        = (l.map fun r => m.worst (p.sched.heap r)).sum := fun l hl =>
    congrArg List.sum (List.map_congr_left fun r hr => worst_evolves (h.evolves_op hop (hl r hr)))
  rcases op_holders hop h.placed with ⟨hheld, -, -⟩ | ⟨r, q, headroom, hw, -, hheld, hcan, -⟩ |
    ⟨r, q, q', hheld, -, -⟩
  · have heq := (hheld.map fun r => m.worst (p'.sched.heap r)).sum_eq
    rw [hsum _ fun r hr => Or.inr hr] at heq
    rw [promised, heq]
    exact hle
  · have heq := (hheld.map fun r => m.worst (p'.sched.heap r)).sum_eq
    have hmem : ∀ x ∈ p.held ++ [r], x ∈ p.sched.waiting ∨ x ∈ p.held := by
      intro x hx
      rcases List.mem_append.mp hx with hx | hx
      · exact Or.inr hx
      · exact Or.inl (List.mem_singleton.mp hx ▸ hw)
    have hroom := (Manager.canAllocate_reserve_iff (h.shape.reserves.trans hres)).mp hcan
    rw [ha.sum_committed hpaged, h.shape.worst, h.shape.units] at hroom
    rw [promised, heq, hsum _ hmem, List.map_append, List.sum_append]
    simpa [promised] using hroom
  · have heq := (hheld.map fun r => m.worst (p.sched.heap r)).sum_eq
    have hr : r ∈ p.held := hheld.mem_iff.mpr List.mem_cons_self
    have hnn := hcov.worst_nonneg (h.submitted_of_mem (Or.inr hr))
    rw [List.map_cons, List.sum_cons] at heq
    rw [promised, hsum _ fun x hx => Or.inr (hheld.mem_iff.mpr (List.mem_cons_of_mem _ hx))]
    rw [promised] at hle
    omega

/-- The books are right, and in the worst-case mode the pool covers them. -/
structure Booked (m : Manager) (p : Point σ) : Prop where
  accounted : Accounted m p
  promised : m.reserves = true → p.promised m ≤ m.units

theorem Covering.back (h : Good cfg m p) (hops : Ops env cfg adm p p') (hcov : Covering m p') :
    Covering m p := by
  intro r hr
  obtain ⟨hev, hr'⟩ := h.submitted hops hr
  have hle := hcov r hr'
  rwa [hev.promptTokenIds, worst_evolves hev] at hle

/--
**The books stay right** along small steps that let a request in only while no holder has its id.
-/
theorem accounted_ops (h : Good cfg m p) (ha : Accounted m p) (hops : Ops env cfg adm p p')
    (hfresh : ∀ q, Ops env cfg adm p q → Ops env cfg adm q p' → Good cfg m q → Accounted m q →
      ∀ r ∈ q.sched.waiting, adm q r → FreshId q r) : Accounted m p' := by
  induction hops with
  | refl => exact ha
  | @tail q p' hops hop ih =>
    have hgood := h.ops hops
    have hq := ih fun x hx hxq => hfresh x hx (hxq.tail hop)
    exact accounted_op hgood hq hop (hfresh q hops (.single hop) hgood hq)

/-- And the pool keeps covering them. -/
theorem booked_ops (h : Good cfg m p) (hb : Booked m p) (hops : Ops env cfg adm p p')
    (hcov : Covering m p')
    (hfresh : ∀ q, Ops env cfg adm p q → Ops env cfg adm q p' → Good cfg m q → Accounted m q →
      ∀ r ∈ q.sched.waiting, adm q r → FreshId q r) : Booked m p' := by
  refine ⟨accounted_ops h hb.accounted hops hfresh, fun hres => ?_⟩
  induction hops with
  | refl => exact hb.promised hres
  | @tail q p' hops hop ih =>
    have hgood := h.ops hops
    have hfresh' := fun x hx hxq => hfresh x hx (Relation.ReflTransGen.tail hxq hop)
    have hcovq := hcov.back hgood (.single hop)
    exact promised_op hgood (accounted_ops h hb.accounted hops hfresh') hres hcovq hop
      (ih hcovq hfresh')

theorem booked_init (hm : m.Fresh) (w : σ) : Booked m (rest (.init cfg m w) []) :=
  ⟨accounted_init hm w, fun _ => Int.natCast_nonneg _⟩

/-! ## Distinct ids -/

/-- No two submitted requests have one id. -/
def DistinctIds (p : Point σ) : Prop := ∀ r r', p.Submitted r → p.Submitted r' →
  (p.sched.heap r).requestId = (p.sched.heap r').requestId → r = r'

theorem DistinctIds.back (h : Good cfg m p) (hops : Ops env cfg adm p p') (hd : DistinctIds p') :
    DistinctIds p := by
  intro r r' hr hr' he
  obtain ⟨hev, hsub⟩ := h.submitted hops hr
  obtain ⟨hev', hsub'⟩ := h.submitted hops hr'
  exact hd r r' hsub hsub' (by rw [hev.requestId, hev'.requestId, he])

/-- With distinct ids a waiting request has an id no holder has. -/
theorem freshId_of_distinctIds (h : Good cfg m p) (ha : Accounted m p) (hd : DistinctIds p)
    {r : Ref} (hr : r ∈ p.sched.waiting) : FreshId p r := by
  intro hk
  have hk' := (Dict.keys_perm ha.live).mem_iff.mp hk
  rw [liveEntries, List.map_map] at hk'
  obtain ⟨x, hx, he⟩ := List.mem_map.mp hk'
  have hxr := hd x r (h.submitted_of_mem (Or.inr hx)) (h.submitted_of_mem (Or.inl hr)) he
  exact h.placed.notMem_held_of_waiting hr (hxr ▸ hx)

/-- Under distinct ids the books are always right. -/
theorem booked_of_distinctIds (h : Good cfg m p) (hb : Booked m p) (hops : Ops env cfg adm p p')
    (hcov : Covering m p') (hd : DistinctIds p') : Booked m p' :=
  booked_ops h hb hops hcov fun _ _ hq hgood ha _ hr _ =>
    freshId_of_distinctIds hgood ha (hd.back hgood hq) hr

/-! ## Enough blocks -/

/-- No holder has more than its worst case. -/
def TablesFit (m : Manager) (p : Point σ) : Prop := ∀ r ∈ p.held,
  ((p.sched.heap r).blockTable.length : Int) ≤ m.worst (p.sched.heap r)

theorem Good.tablesFit (h : Good cfg m p) (hpos : Positive p) : TablesFit m p := by
  intro r hr
  have hout := (h.facts r).ending.output_le (hpos r (h.submitted_of_mem (Or.inr hr)))
  change ((p.sched.heap r).outputTokenIds.length : Int) ≤ (p.sched.heap r).maxNewTokens at hout
  refine ((h.facts r).table.le (h.holds_of_held hr)).trans (m.unitsNeeded_mono ?_)
  show (((p.sched.heap r).seqLen : Nat) : Int) ≤ _
  simp only [Request.seqLen]
  omega

/-- Free units and tables add up to the pool. -/
theorem Owned.length_sum (h : Owned p) :
    (p.sched.manager.freeUnits.length : Int) +
      (p.held.map fun r => ((p.sched.heap r).blockTable.length : Int)).sum
        = p.sched.manager.units := by
  have hlen := List.Perm.length_eq h
  rw [Point.units, owned, List.length_append, List.length_flatMap, List.length_range] at hlen
  have hcast : ((p.held.map fun r => (p.sched.heap r).blockTable.length).sum : Int)
      = (p.held.map fun r => ((p.sched.heap r).blockTable.length : Int)).sum := by
    rw [Nat.cast_list_sum, List.map_map]
    rfl
  omega

/-- Free units and the table of one holder fit into the pool. -/
theorem Good.table_le_units (h : Good cfg m p) {r : Ref} (hr : r ∈ p.held) :
    (p.sched.manager.freeUnits.length : Int) + (p.sched.heap r).blockTable.length ≤ m.units := by
  have hsum := h.owned.length_sum
  have hmem : ((p.sched.heap r).blockTable.length : Int) ≤
      (p.held.map fun r => ((p.sched.heap r).blockTable.length : Int)).sum := by
    refine List.single_le_sum (fun x hx => ?_) _
      (List.mem_map_of_mem (f := fun r => ((p.sched.heap r).blockTable.length : Int)) hr)
    obtain ⟨y, -, rfl⟩ := List.mem_map.mp hx
    exact Int.natCast_nonneg _
  rw [h.shape.units] at hsum
  omega

theorem tables_le_promised (hfit : TablesFit m p) {l : List Ref} (hl : ∀ r ∈ l, r ∈ p.held) :
    (l.map fun r => ((p.sched.heap r).blockTable.length : Int)).sum ≤
      (l.map fun r => m.worst (p.sched.heap r)).sum :=
  List.sum_le_sum fun r hr => hfit r (hl r hr)

/-- The blocks that are free cover what any one holder has been promised and not got yet. -/
theorem promised_le_free (h : Good cfg m p) (hfit : TablesFit m p)
    (hle : p.promised m ≤ m.units) {l : List Ref} {r : Ref} (hl : p.held.Perm (r :: l)) :
    m.worst (p.sched.heap r) ≤
      (p.sched.heap r).blockTable.length + p.sched.manager.freeUnits.length := by
  have hlen := h.owned.length_sum
  have hrest := tables_le_promised hfit (l := l) fun x hx =>
    hl.mem_iff.mpr (List.mem_cons_of_mem _ hx)
  have htabs := (hl.map fun x => ((p.sched.heap x).blockTable.length : Int)).sum_eq
  have hworst := (hl.map fun x => m.worst (p.sched.heap x)).sum_eq
  rw [List.map_cons, List.sum_cons] at htabs hworst
  rw [h.shape.units] at hlen
  unfold promised at hle
  omega

/-- An open request needs no more than its prompt or than its worst case. -/
theorem Ending.need_le {v : View} (h : Ending v) (hopen : v.req.finishReason = none) :
    m.unitsNeeded v.req.seqLen ≤
      max (m.unitsNeeded v.req.promptTokenIds.length) (m.worst v.req) := by
  rcases Request.lt_of_endReason_none (h.prefix_open hopen _ (List.prefix_refl _)) with hnil | hlt
  · rw [Request.seqLen, hnil]
    exact le_max_left _ _
  · refine (m.unitsNeeded_mono ?_).trans (le_max_right _ _)
    simp only [Request.seqLen]
    omega

theorem Good.need_le_worst (h : Good cfg m p) (hcov : Covering m p) {r : Ref} (hr : p.Submitted r)
    (hopen : (p.sched.heap r).finishReason = none) :
    m.unitsNeeded (p.sched.heap r).seqLen ≤ m.worst (p.sched.heap r) :=
  ((h.facts r).ending.need_le hopen).trans (max_le (hcov r hr) le_rfl)

/-- **`append_slot` finds the block an unfinished holder needs.** -/
theorem grow_succeeds (h : Good cfg m p) (hpos : Positive p) (hle : p.promised m ≤ m.units)
    {r : Ref} (hr : r ∈ p.held) (hopen : (p.sched.heap r).finishReason = none) :
    (p.sched.appendSlot r).1 = true := by
  rw [Scheduler.appendSlot_fst]
  refine Manager.appendSlot_isTrue ?_
  rw [h.shape.unitsNeeded]
  exact (h.need_le_worst hpos.covering (h.submitted_of_mem (Or.inr hr)) hopen).trans
    (promised_le_free h (h.tablesFit hpos) hle (List.perm_cons_erase hr))

/-- Admission by the worst case leaves the blocks the admitted request needs now. -/
theorem need_le_free (h : Good cfg m p) (ha : Accounted m p) (hcov : Covering m p)
    (hfit : TablesFit m p) (hres : m.reserves = true) {r : Ref} {headroom : Nat}
    (hr : r ∈ p.sched.waiting)
    (hcan : p.sched.manager.canAllocate (p.sched.heap r) headroom = true) :
    m.unitsNeeded (p.sched.heap r).seqLen ≤ p.sched.manager.freeUnits.length := by
  have hroom := (Manager.canAllocate_reserve_iff (h.shape.reserves.trans hres)).mp hcan
  rw [ha.sum_committed (Manager.reserves_paged hres), h.shape.worst, h.shape.units] at hroom
  have hneed := h.need_le_worst hcov (h.submitted_of_mem (Or.inl hr)) (h.waiting_open hr)
  have hlen := h.owned.length_sum
  have htabs := tables_le_promised hfit fun x (hx : x ∈ p.held) => hx
  rw [h.shape.units] at hlen
  unfold promised at hroom
  omega

/-- **`can_allocate` answers `true` only with room for `allocate`**, by the worst case or not. -/
theorem room_of_canAllocate (h : Good cfg m p)
    (hbooked : m.reserves = true → Accounted m p ∧ Covering m p ∧ TablesFit m p) {r : Ref}
    {headroom : Nat} (hr : r ∈ p.sched.waiting)
    (hcan : p.sched.manager.canAllocate (p.sched.heap r) headroom = true) :
    p.sched.manager.unitsNeeded (p.sched.heap r).seqLen ≤ p.sched.manager.freeUnits.length := by
  cases hp : p.sched.manager.paged with
  | false =>
    have hne := (Manager.canAllocate_slot_iff hp).mp hcan
    have := List.length_pos_iff.mpr hne
    rw [slot_unitsNeeded hp]
    omega
  | true =>
    cases hres : m.reserves with
    | false =>
      have := (Manager.canAllocate_iff hp (h.shape.reserves.trans hres)).mp hcan
      omega
    | true =>
      obtain ⟨ha, hcov, hfit⟩ := hbooked hres
      rw [h.shape.unitsNeeded]
      exact need_le_free h ha hcov hfit hres hr hcan

end LlmServe
