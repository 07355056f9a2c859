import LlmServe.Properties.Batches
import LlmServe.Properties.Workload

/-!
# Every step with open work produces a token

The methods are followed once more, this time for what they produce. `_retire` leaves only open
requests. If nothing runs, the head of the queue fits the empty pool and its prefill emits; if
something runs and nobody is admitted, the eviction loop stops before the last row, because that
row alone fits the pool (`ensureLoop_ne_nil`), and the decode step emits.
-/

namespace LlmServe

open Infra Point

variable {σ : Type} {env : Env σ} {cfg : EngineConfig} {m : Manager} {inbox : List Ref}

/-- A request that still wants tokens. -/
def Request.Open (q : Request) : Prop := q.finishReason = none ∧ q.cancelled = false

instance (q : Request) : Decidable q.Open := inferInstanceAs (Decidable (_ ∧ _))

/-- `r` has got a token between `s` and `s'`. -/
def Grows (s s' : Scheduler σ) (r : Ref) : Prop :=
  (s.heap r).outputTokenIds.length < (s'.heap r).outputTokenIds.length

/-! ## `_retire` -/

theorem markCancelled_finishReason {s : Scheduler σ} {x r : Ref}
    (h : (s.heap r).finishReason ≠ none) : ((s.markCancelled env x).heap r).finishReason ≠ none := by
  rcases Scheduler.markCancelled_cases env s x with he | ⟨-, -, -, now, ht⟩
  · rwa [he]
  · by_cases hx : r = x
    · rw [hx, ht.self]
      nofun
    · rwa [ht.other hx]

theorem markCancelled_closes {s : Scheduler σ} {r : Ref} (hc : (s.heap r).cancelled = true) :
    ((s.markCancelled env r).heap r).finishReason ≠ none := by
  unfold Scheduler.markCancelled
  split
  · simp [Scheduler.modify]
  · next hcond => exact Request.finished_iff.mp (by simpa [hc] using hcond)

theorem markCancelled_open {s : Scheduler σ} {x r : Ref} (h : (s.heap r).Open) :
    (s.markCancelled env x).heap r = s.heap r := by
  rcases Scheduler.markCancelled_cases env s x with he | ⟨hc, -, -, now, ht⟩
  · rw [he]
  · refine ht.other ?_
    rintro rfl
    exact absurd (h.2.symm.trans hc) nofun

theorem markCancelled_cancelled (s : Scheduler σ) (x r : Ref) :
    ((s.markCancelled env x).heap r).cancelled = (s.heap r).cancelled := by
  rcases Scheduler.markCancelled_cases env s x with he | ⟨-, -, -, now, ht⟩
  · rw [he]
  · exact cancelled_update ht.heap rfl r

theorem markAll_finishReason {r : Ref} : ∀ (l : List Ref) (s : Scheduler σ),
    (s.heap r).finishReason ≠ none →
    ((l.foldl (Scheduler.markCancelled env) s).heap r).finishReason ≠ none
  | [], _, h => h
  | _ :: l, _, h => markAll_finishReason l _ (markCancelled_finishReason h)

/-- The first loop of `_retire` closes every cancelled request. -/
theorem markAll_closes {r : Ref} : ∀ (l : List Ref) (s : Scheduler σ), r ∈ l →
    (s.heap r).cancelled = true →
    ((l.foldl (Scheduler.markCancelled env) s).heap r).finishReason ≠ none
  | x :: l, s, hr, hc => by
    rcases List.mem_cons.mp hr with rfl | hr
    · exact markAll_finishReason l _ (markCancelled_closes hc)
    · exact markAll_closes l _ hr (by rwa [markCancelled_cancelled])

/-- And touches nothing that is open. -/
theorem markAll_open {r : Ref} : ∀ (l : List Ref) (s : Scheduler σ), (s.heap r).Open →
    (l.foldl (Scheduler.markCancelled env) s).heap r = s.heap r
  | [], _, _ => rfl
  | x :: l, s, h => by
    have hx : (s.markCancelled env x).heap r = s.heap r := markCancelled_open h
    rw [List.foldl_cons, markAll_open l _ (hx ▸ h), hx]

theorem markAll_lists : ∀ (l : List Ref) (s : Scheduler σ),
    (l.foldl (Scheduler.markCancelled env) s).waiting = s.waiting ∧
      (l.foldl (Scheduler.markCancelled env) s).running = s.running
  | [], _ => ⟨rfl, rfl⟩
  | x :: l, s => by
    obtain ⟨hw, hr⟩ := markAll_lists l (s.markCancelled env x)
    rcases Scheduler.markCancelled_cases env s x with he | ⟨-, -, -, now, ht⟩
    · rw [List.foldl_cons, hw, hr, he]
      exact ⟨rfl, rfl⟩
    · exact ⟨hw.trans ht.waiting, hr.trans ht.running⟩

/-- The second loop keeps the unfinished requests, as they are. -/
theorem retireLoop_ok : ∀ {l keep : List Ref} {s : Scheduler σ} {b : List Ref × Scheduler σ},
    l.Nodup → Scheduler.retireLoop l keep s = .ok b →
    b.1 = keep ++ (l.filter fun r => !(s.heap r).finished) ∧ b.2.waiting = s.waiting ∧
      ∀ r, (s.heap r).finishReason = none → b.2.heap r = s.heap r
  | [], keep, s, b, _, h => by
    cases h
    exact ⟨(List.append_nil _).symm, rfl, fun _ _ => rfl⟩
  | x :: l, keep, s, b, hnd, h => by
    obtain ⟨hx, hnd⟩ := List.nodup_cons.mp hnd
    unfold Scheduler.retireLoop at h
    split at h
    · next hfin =>
      obtain ⟨s₁, hleave, h⟩ := exists_of_bind_ok h
      obtain ⟨q, -, ht⟩ := Scheduler.leave_ok hleave
      obtain ⟨hb, hw, hheap⟩ := retireLoop_ok hnd h
      have hl : (l.filter fun r => !(s₁.heap r).finished) =
          l.filter fun r => !(s.heap r).finished := by
        refine List.filter_congr fun r hr => ?_
        have hne : r ≠ x := by
          rintro rfl
          exact hx hr
        rw [ht.other hne]
      refine ⟨?_, hw.trans ht.waiting, fun r hopen => ?_⟩
      · rw [List.filter_cons_of_neg (by simp [hfin]), hb, hl]
      · have hne : r ≠ x := by
          rintro rfl
          exact absurd hopen (Request.finished_iff.mp hfin)
        rw [hheap r (by rwa [ht.other hne]), ht.other hne]
    · next hfin =>
      obtain ⟨hb, hw, hheap⟩ := retireLoop_ok hnd h
      refine ⟨?_, hw, hheap⟩
      rw [List.filter_cons_of_pos (by simpa using hfin), hb, List.append_assoc]
      rfl

/-- **After `_retire` the open requests are the ones that are left.** -/
structure Retired (s s' : Scheduler σ) : Prop where
  waiting : s'.waiting = s.waiting.filter fun r => !(s.heap r).cancelled
  running : ∀ r, r ∈ s'.running ↔ r ∈ s.running ∧ (s.heap r).Open
  heap : ∀ r, (s.heap r).Open → s'.heap r = s.heap r

theorem retire_ok {s s' : Scheduler σ} (hnd : s.running.Nodup) (h : s.retire env = .ok s') :
    Retired s s' := by
  obtain ⟨⟨keep, s₂⟩, hloop, he⟩ := exists_of_bind_ok h
  cases he
  generalize hs₁ : ({ s with waiting := s.waiting.filter fun r => !(s.heap r).cancelled } :
    Scheduler σ) = s₁ at hloop
  have hheap₁ : s₁.heap = s.heap := by rw [← hs₁]
  have hrun₁ : s₁.running = s.running := by rw [← hs₁]
  obtain ⟨hw, hr⟩ := @markAll_lists _ env s₁.running s₁
  rw [hr] at hloop
  obtain ⟨hkeep, hw₂, hheap⟩ := retireLoop_ok (hrun₁ ▸ hnd) hloop
  have hopen : ∀ r, (s.heap r).Open →
      (s₁.running.foldl (Scheduler.markCancelled env) s₁).heap r = s.heap r := fun r ho => by
    rw [markAll_open _ _ (hheap₁ ▸ ho), hheap₁]
  refine ⟨?_, fun r => ?_, fun r ho => ?_⟩
  · show s₂.waiting = _
    rw [hw₂, hw, ← hs₁]
  · show r ∈ keep ↔ _
    have hk : keep = _ := hkeep
    rw [hk, List.nil_append, List.mem_filter, ← hrun₁]
    refine and_congr_right fun hmem => ⟨fun hno => ?_, fun ho => ?_⟩
    · have hno := Request.not_finished_iff.mp (by simpa using hno)
      have hfin : (s.heap r).finishReason = none := by
        by_contra hne
        exact markAll_finishReason s₁.running s₁ (hheap₁ ▸ hne) hno
      refine ⟨hfin, ?_⟩
      by_contra hc
      exact markAll_closes s₁.running s₁ hmem (by rw [hheap₁]; simpa using hc) hno
    · rw [hopen r ho]
      simpa using Request.not_finished_iff.mpr ho.1
  · show s₂.heap r = _
    rw [hheap r (by rw [hopen r ho]; exact ho.1), hopen r ho]

/-! ## `_admit` -/

/-- `_pop_admissible` only adds to its batch, and takes the head of the queue if it can. -/
theorem popLoop_takes {limit : Nat} : ∀ {l batch : List Ref} {s : Scheduler σ}
    {b : List Ref × Scheduler σ}, Scheduler.popLoop limit l batch s = .ok b → batch <+: b.1
  | [], batch, s, b, h => by
    cases h
    exact List.prefix_refl _
  | r :: l, batch, s, b, h => by
    unfold Scheduler.popLoop at h
    split at h
    · obtain ⟨s₁, -, h⟩ := exists_of_bind_ok h
      exact (List.prefix_append _ _).trans (popLoop_takes h)
    · cases h
      exact List.prefix_refl _

theorem popLoop_head {limit : Nat} {r : Ref} {l : List Ref} {s : Scheduler σ}
    {b : List Ref × Scheduler σ} (h : Scheduler.popLoop limit (r :: l) [] s = .ok b)
    (hlimit : 0 < limit)
    (hcan : s.manager.canAllocate (s.heap r) s.running.length = true) : r ∈ b.1 := by
  unfold Scheduler.popLoop at h
  rw [if_pos ⟨hlimit, hcan⟩] at h
  obtain ⟨s₁, -, h⟩ := exists_of_bind_ok h
  exact (popLoop_takes h).subset (by simp)

/-- If it adds nothing it changes nothing. -/
theorem popLoop_same {limit : Nat} {l batch : List Ref} {s : Scheduler σ}
    {b : List Ref × Scheduler σ} (h : Scheduler.popLoop limit l batch s = .ok b)
    (hb : b.1 = batch) : b.2 = s := by
  cases l with
  | nil =>
    cases h
    rfl
  | cons r l =>
    unfold Scheduler.popLoop at h
    split at h
    · obtain ⟨s₁, -, h⟩ := exists_of_bind_ok h
      have hpre := (popLoop_takes h).length_le
      rw [hb, List.length_append, List.length_singleton] at hpre
      omega
    · cases h
      rfl

/-- Everybody who is admitted gets a token. -/
theorem AdmittedAll.grows {s s' : Scheduler σ} {batch : List Ref} (h : AdmittedAll s s' batch)
    {r : Ref} (hr : r ∈ batch) : r ∈ s.waiting ∧ Grows s s' r := by
  refine ⟨h.waiting.mem_iff.mpr (List.mem_append_left _ hr), ?_⟩
  obtain ⟨blocks, seq, st, now, tok, hq, -⟩ := h.admitted r hr
  rw [Grows, hq, Request.emit_outputTokenIds, List.length_append]
  exact Nat.lt_add_of_pos_right Nat.one_pos

/-- `_admit` prefills a waiting request, or leaves every request as and where it is. -/
theorem admit_cases {s s' : Scheduler σ} (hnd : s.waiting.Nodup)
    (h : s.admitWaiting env cfg = .ok s') :
    (∃ r ∈ s.waiting, Grows s s' r) ∨
      s.waiting.Perm s'.waiting ∧ s'.running = s.running ∧ s'.heap = s.heap := by
  rcases admit_batch hnd h with ⟨-, -, rfl⟩ | ⟨batch, -, -, -, -, hall⟩
  · exact Or.inr ⟨List.Perm.refl _, rfl, rfl⟩
  · by_cases hne : batch = []
    · subst hne
      exact Or.inr ⟨hall.waiting, hall.running.trans (List.append_nil _),
        funext fun r => hall.other r nofun⟩
    · obtain ⟨r, hr⟩ := List.exists_mem_of_ne_nil _ hne
      exact Or.inl ⟨r, hall.grows hr⟩

/-- With nothing running, the head of the queue is admitted if it fits. -/
theorem admit_idle {s s' : Scheduler σ} (hnd : s.waiting.Nodup)
    (h : s.admitWaiting env cfg = .ok s') (hrun : s.running = []) (hbatch : 1 ≤ cfg.maxBatch)
    (hne : s.waiting ≠ [])
    (hcan : ∀ r ∈ s.waiting, s.manager.canAllocate (s.heap r) 0 = true) :
    ∃ r ∈ s.waiting, Grows s s' r := by
  rcases admit_batch hnd h with ⟨hno, -, -⟩ | ⟨batch, s₁, hp, -, -, hall⟩
  · exact absurd hrun hno
  · have hperm : (Scheduler.sortWaiting s.heap s.waiting).Perm s.waiting := sortKey_perm _ _
    cases hq : Scheduler.sortWaiting s.heap s.waiting with
    | nil => exact absurd (List.perm_nil.mp (hq ▸ hperm).symm) hne
    | cons r l =>
      have hr : r ∈ s.waiting := hperm.mem_iff.mp (hq ▸ List.mem_cons_self)
      simp only [Scheduler.popAdmissible, hq] at hp
      have hfits : s.manager.canAllocate (s.heap r) s.running.length = true := by
        rw [hrun]
        exact hcan r hr
      have hlimit : 0 < admitLimit cfg s := by
        unfold admitLimit
        rw [hrun]
        split <;> exact hbatch
      exact ⟨r, hall.grows (popLoop_head hp hlimit hfits)⟩

/-! ## The head of the queue fits the empty pool -/

variable {p : Point σ}

theorem freeUnits_length (h : Good cfg m p) (hheld : p.held = []) :
    p.sched.manager.freeUnits.length = m.units := by
  have hlen := h.owned.length_sum
  rw [hheld, h.shape.units] at hlen
  simpa using hlen

theorem canAllocate_empty (h : Good cfg m p) (hl : Loaded m p) (hm : m.Serves cfg)
    (hheld : p.held = []) {r : Ref} (hr : p.Submitted r) :
    p.sched.manager.canAllocate (p.sched.heap r) 0 = true := by
  have hfree := freeUnits_length h hheld
  cases hp : m.paged with
  | false =>
    refine (Manager.canAllocate_slot_iff (h.shape.paged.trans hp)).mpr ?_
    have hunits := hm.slots hp
    exact List.ne_nil_of_length_pos (by omega)
  | true =>
    cases hres : m.reserves with
    | false =>
      refine (Manager.canAllocate_iff (h.shape.paged.trans hp) (h.shape.reserves.trans hres)).mpr ?_
      have hneed := hl.needed_le h hp hr
      rw [h.shape.unitsNeeded, hfree]
      simpa using hneed
    | true =>
      refine (Manager.canAllocate_reserve_iff (h.shape.reserves.trans hres)).mpr ?_
      have hworst : m.worst (p.sched.heap r) ≤ m.units :=
        Manager.worst_le_of_fitsEver hp (hl.fits r hr)
      rw [hl.booked.accounted.sum_committed hp, h.shape.worst, h.shape.units, promised, hheld]
      simpa using hworst

/-! ## The decode step -/

/-- `_ensure_capacity` keeps a row, if all of them together are what runs. -/
theorem ensureCapacity_ne_nil (env : Env σ) {s s' : Scheduler σ} {batch : List Ref}
    (hgood : Good cfg m (rest s inbox)) (hl : Loaded m (rest s inbox))
    (hfin : ∀ r ∈ s.running, (s.heap r).finished = false) (hne : s.running ≠ [])
    (h : s.ensureCapacity cfg s.running = .ok (batch, s')) : batch ≠ [] := by
  have hperm : (Scheduler.sortAdmitted s.heap s.running).Perm s.running := sortKey_perm _ _
  refine ensureLoop_ne_nil env hgood ?_ (fun x hx hxa => absurd (hperm.mem_iff.mpr hx) hxa)
    (fun hp x hx => ?_) ?_ h
  · exact .start hperm (fun r hr => hr) hfin hgood.placed.running_nodup
  · exact hl.needed_le hgood hp
      (hgood.submitted_of_mem (Or.inr (mem_held_of_running (hperm.mem_iff.mp hx))))
  · intro hnil
    exact hne (List.perm_nil.mp (hnil ▸ hperm).symm)

/-- With nobody admitted, the decode step gives somebody a token. -/
theorem decode_grows {s s' : Scheduler σ} (hgood : Good cfg m (rest s inbox))
    (hl : ∀ p, StepOps env cfg (fun _ _ => True) (rest s inbox) p → Loaded m p)
    (hfin : ∀ r ∈ s.running, (s.heap r).finished = false) (hne : s.running ≠ [])
    (h : s.decode env cfg = .ok s') : ∃ r ∈ s.running, Grows s s' r := by
  have hall : s.running.filter (fun r => !(s.heap r).finished) = s.running :=
    List.filter_eq_self.mpr fun r hr => by simp [hfin r hr]
  unfold Scheduler.decode at h
  rw [hall] at h
  simp only [if_neg hne] at h
  obtain ⟨⟨batch, s₁⟩, hens, h⟩ := exists_of_bind_ok h
  have hbatch := ensureCapacity_ne_nil env hgood (hl _ .refl) hfin hne hens
  replace h : s₁.decodeBatch env batch = .ok s' := by simpa [hbatch] using h
  obtain ⟨-, out, hensured⟩ := ensureCapacity_ensured env hgood hgood.placed.running_nodup
    (fun _ hr => hr) hfin hens
  obtain ⟨r, hr⟩ := List.exists_mem_of_ne_nil _ hbatch
  have hrun : r ∈ s.running := (mem_sortKey _).mp (hensured.sublist.subset hr)
  obtain ⟨blocks, hsame⟩ := hensured.grown r hr
  have hnd : batch.Nodup :=
    ((sortKey_perm _ _).nodup_iff.mpr hgood.placed.running_nodup).sublist hensured.sublist
  obtain ⟨st, now, tok, hq⟩ := (decodeBatch_fed hnd h).1.emitted r hr
  refine ⟨r, hrun, ?_⟩
  rw [Grows, hq, Request.emit_outputTokenIds, hsame, List.length_append]
  exact Nat.lt_add_of_pos_right Nat.one_pos

/-! ## The whole step -/

theorem retire_ops {s s' : Scheduler σ} (h : s.retire env = .ok s') :
    StepOps env cfg (fun _ _ => True) (rest s inbox) (rest s' inbox) := by
  have hout : Does env cfg (fun _ _ => True) (rest s inbox) _ _ := retire_outcome s inbox
  rw [h] at hout
  obtain ⟨p, hops, rfl⟩ := hout
  exact hops

theorem admit_ops {s s' : Scheduler σ} (hp : Placed cfg (rest s inbox))
    (h : s.admitWaiting env cfg = .ok s') :
    StepOps env cfg (fun _ _ => True) (rest s inbox) (rest s' inbox) := by
  have hout : Does env cfg (fun _ _ => True) (rest s inbox) _ _ :=
    admit_outcome s inbox hp (popKeeps_true ..)
  rw [h] at hout
  obtain ⟨p, hops, rfl⟩ := hout
  exact hops

theorem decode_ops {s s' : Scheduler σ} (hp : Placed cfg (rest s inbox))
    (h : s.decode env cfg = .ok s') :
    StepOps env cfg (fun _ _ => True) (rest s inbox) (rest s' inbox) := by
  have hout : Does env cfg (fun _ _ => True) (rest s inbox) _ _ := decode_outcome s inbox hp
  rw [h] at hout
  obtain ⟨p, hops, rfl⟩ := hout
  exact hops

/-- The three parts of a step, each in small steps. -/
theorem step_parts {s s' : Scheduler σ} (hgood : Good cfg m (rest s inbox))
    (h : s.step env cfg = .ok s') :
    ∃ s₁ s₂, Retired s s₁ ∧ s₁.admitWaiting env cfg = .ok s₂ ∧ s₂.decode env cfg = .ok s' ∧
      StepOps env cfg (fun _ _ => True) (rest s inbox) (rest s₁ inbox) ∧
      StepOps env cfg (fun _ _ => True) (rest s₁ inbox) (rest s₂ inbox) ∧
      StepOps env cfg (fun _ _ => True) (rest s₂ inbox) (rest s' inbox) := by
  obtain ⟨s₁, hretire, h⟩ := exists_of_bind_ok h
  obtain ⟨s₂, hadmits, hdecode⟩ := exists_of_bind_ok h
  have hops₁ : StepOps env cfg (fun _ _ => True) (rest s inbox) (rest s₁ inbox) := retire_ops hretire
  have hgood₁ := hgood.ops (ops_of_stepOps hops₁)
  have hops₂ := admit_ops hgood₁.placed hadmits
  have hgood₂ := hgood₁.ops (ops_of_stepOps hops₂)
  exact ⟨s₁, s₂, retire_ok hgood.placed.running_nodup hretire, hadmits, hdecode, hops₁, hops₂,
    decode_ops hgood₂.placed hdecode⟩

/-- A waiting request that nobody cancelled is open. -/
theorem Good.open_of_waiting {p : Point σ} (h : Good cfg m p) {r : Ref}
    (hr : r ∈ p.sched.waiting) (hc : (p.sched.heap r).cancelled = false) :
    (p.sched.heap r).Open := ⟨h.waiting_open hr, hc⟩

/-- Tokens are never taken back. -/
theorem Good.output_le {p p' : Point σ} (h : Good cfg m p)
    (hops : StepOps env cfg (fun _ _ => True) p p') {r : Ref} (hr : p.Submitted r) :
    (p.sched.heap r).outputTokenIds.length ≤ (p'.sched.heap r).outputTokenIds.length :=
  (h.evolves (ops_of_stepOps hops) hr).output.length_le

/-- **A step with open work gives an open request a token.** -/
theorem step_grows {s s' : Scheduler σ} (hm : m.Serves cfg) (hbatch : 1 ≤ cfg.maxBatch)
    (hgood : Good cfg m (rest s inbox))
    (hl : ∀ p, StepOps env cfg (fun _ _ => True) (rest s inbox) p → Loaded m p)
    (hwork : ∃ r, (r ∈ s.waiting ∨ r ∈ s.running) ∧ (s.heap r).Open)
    (h : s.step env cfg = .ok s') :
    ∃ r, (r ∈ s.waiting ∨ r ∈ s.running) ∧ (s.heap r).Open ∧ Grows s s' r := by
  obtain ⟨s₁, s₂, hret, hadmits, hdecode, hops₁, hops₂, hops₃⟩ := step_parts hgood h
  have hgood₁ := hgood.ops (ops_of_stepOps hops₁)
  have hgood₂ := hgood₁.ops (ops_of_stepOps hops₂)
  have hopen : ∀ r ∈ s₁.waiting, r ∈ s.waiting ∧ (s.heap r).Open := by
    intro r hr
    rw [hret.waiting, List.mem_filter] at hr
    have hc : (s.heap r).cancelled = false := by simpa using hr.2
    exact ⟨hr.1, hgood.open_of_waiting hr.1 hc⟩
  by_cases hadmitted : ∃ r ∈ s₁.waiting, Grows s₁ s₂ r
  · obtain ⟨r, hr, hgrows⟩ := hadmitted
    obtain ⟨hw, ho⟩ := hopen r hr
    have hsub := (hgood₁.submitted (ops_of_stepOps hops₂) (hgood₁.submitted_of_mem (Or.inl hr))).2
    have hkeep : (s₂.heap r).outputTokenIds.length ≤ (s'.heap r).outputTokenIds.length :=
      hgood₂.output_le hops₃ hsub
    refine ⟨r, Or.inl hw, ho, ?_⟩
    rw [Grows, hret.heap r ho] at hgrows
    exact hgrows.trans_le hkeep
  · have hrun : s₁.running ≠ [] := by
      -- with nothing running somebody would have been admitted
      intro hnil
      have hne : s₁.waiting ≠ [] := by
        obtain ⟨r, hr | hr, ho⟩ := hwork
        · refine List.ne_nil_of_mem (a := r) ?_
          rw [hret.waiting, List.mem_filter]
          exact ⟨hr, by simpa using ho.2⟩
        · have hmem := (hret.running r).mpr ⟨hr, ho⟩
          rw [hnil] at hmem
          cases hmem
      have hheld : (rest s₁ inbox).held = [] := hnil
      exact hadmitted (admit_idle hgood₁.placed.waiting_nodup hadmits hnil hbatch hne fun r hr =>
        canAllocate_empty hgood₁ (hl _ hops₁) hm hheld (hgood₁.submitted_of_mem (Or.inl hr)))
    obtain ⟨-, hsame, hheap⟩ :=
      (admit_cases hgood₁.placed.waiting_nodup hadmits).resolve_left hadmitted
    have hopen₂ : ∀ r ∈ s₂.running, (r ∈ s.running ∧ (s.heap r).Open) ∧ s₂.heap r = s.heap r := by
      intro r hr
      have ho := (hret.running r).mp (hsame ▸ hr)
      exact ⟨ho, (congrFun hheap r).trans (hret.heap r ho.2)⟩
    have hfin : ∀ r ∈ s₂.running, (s₂.heap r).finished = false := by
      intro r hr
      obtain ⟨⟨-, ho⟩, hq⟩ := hopen₂ r hr
      rw [hq]
      exact Request.not_finished_iff.mpr ho.1
    obtain ⟨r, hr, hgrows⟩ := decode_grows hgood₂
      (fun p hp => hl p (hops₁.trans (hops₂.trans hp))) hfin (hsame ▸ hrun) hdecode
    obtain ⟨⟨hmem, ho⟩, hq⟩ := hopen₂ r hr
    rw [Grows, hq] at hgrows
    exact ⟨r, Or.inr hmem, ho, hgrows⟩

/-! ## No step raises -/

theorem Row.Ends.within (h : Good cfg m p) (hl : Loaded m p) {row : Row} (hrow : row.Ends p) :
    row.tokens ≠ [] ∧ row.start + row.tokens.length ≤ maxContext := by
  obtain ⟨r, hr, hend, hnil⟩ := hrow
  have hsub := h.submitted_of_mem (Or.inr hr)
  have hpos := hl.seqLen_pos r hsub
  have hle := hl.seqLen_le h hsub
  have hcap := hl.context r hsub
  refine ⟨fun he => ?_, ?_⟩
  · have hzero := hnil he
    omega
  · rw [hend]
    omega

/-- **A step returns**, if the forward pass answers. -/
theorem step_isOk {s : Scheduler σ} (hm : m.Serves cfg) (henv : env.Answers)
    (hgood : Good cfg m (rest s inbox))
    (hl : ∀ p, StepOps env cfg (fun _ _ => True) (rest s inbox) p → Loaded m p) :
    ∃ s', s.step env cfg = .ok s' := by
  cases hs : s.step env cfg with
  | ok s' => exact ⟨s', rfl⟩
  | error e =>
    have hout := step_outcome env s inbox hgood.placed (stepKeeps_true env cfg inbox s)
    rw [hs] at hout
    obtain ⟨p, hops, hfault⟩ := hout
    have hp := hgood.ops (ops_of_stepOps hops)
    have hlp := hl p hops
    rcases fault_cases hp hlp.positive (fun _ => hlp.booked.accounted) hfault with
      ⟨w, rows, he, hrows⟩ | ⟨hpre, r, hr, hopen, hno⟩
    · obtain ⟨b, hb⟩ := henv w rows fun row hrow => (hrows row hrow).within hp hlp
      exact absurd (he.symm.trans hb) nofun
    · have hpaged : m.paged = true := by
        obtain ⟨blocks, -, -, -, -, -, -, -, -, hfalse⟩ :=
          p.sched.manager.appendSlot_spec (p.sched.heap r)
        exact hp.shape.paged.symm.trans (hfalse hno).1
      have hres : m.reserves = true := by rw [hm.reserves hpaged, hpre]; rfl
      have htrue := grow_succeeds hp hlp.positive (hlp.booked.promised hres)
        (mem_held_of_running hr) hopen
      exact absurd (htrue.symm.trans hno) nofun

/-! ## What is still to come -/

/-- How many tokens the request may still get. -/
def Request.remaining (q : Request) : Nat := (q.maxNewTokens - q.outputTokenIds.length).toNat

theorem Request.Evolves.remaining_le {q q' : Request} (h : q.Evolves q') :
    q'.remaining ≤ q.remaining := by
  have hlen := h.output.length_le
  simp only [Request.remaining, h.maxNewTokens]
  omega

theorem Request.Evolves.remaining_lt {q q' : Request} (h : q.Evolves q')
    (hgrows : q.outputTokenIds.length < q'.outputTokenIds.length)
    (hroom : (q.outputTokenIds.length : Int) < q.maxNewTokens) : q'.remaining < q.remaining := by
  simp only [Request.remaining, h.maxNewTokens]
  omega

/-- An open request has room for a token. -/
theorem Loaded.output_lt (hl : Loaded m p) (h : Good cfg m p) {r : Ref}
    (hr : p.Submitted r) (ho : (p.sched.heap r).Open) :
    ((p.sched.heap r).outputTokenIds.length : Int) < (p.sched.heap r).maxNewTokens :=
  (h.facts r).ending.output_lt (hl.positive r hr) ho.1

end LlmServe
