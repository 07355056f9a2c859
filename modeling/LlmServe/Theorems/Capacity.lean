import LlmServe.Engine.NextToken
import LlmServe.Properties.Batches
import LlmServe.Spec.Runs

/-!
# The capacity search is correct for every batch

`_decode` hands `_ensure_capacity` the unfinished rows of `running` and feeds one token to each row it
gets back. `FindsCapacity` is what it relies on: the rows it gets have room for their token, and
the others are back in the queue, once, with nothing left behind.
-/

namespace LlmServe

open Infra Point

variable {σ : Type} {env : Env σ} {cfg : EngineConfig} {m : Manager} {w : σ} {inbox : List Ref}

/-- A row that was sent back to the queue. -/
structure Evicted (s s' : Scheduler σ) (r : Ref) : Prop where
  running : r ∉ s'.running
  waiting : s'.waiting.count r = 1
  blockTable : (s'.heap r).blockTable = []
  preemptCount : (s'.heap r).preemptCount = (s.heap r).preemptCount + 1

/-- What `_ensure_capacity` must find for the rows of `batch`. -/
structure FindsCapacity (m : Manager) (s s' : Scheduler σ) (batch rows out : List Ref) : Prop where
  partition : batch.Perm (rows ++ out)
  running : ∀ r ∈ rows, r ∈ s'.running
  /-- The block of position `seq_len - 1` is there. -/
  room : ∀ b, s'.manager = .block b → ∀ r ∈ rows,
    (s'.heap r).seqLen ≤ (s'.heap r).blockTable.length * b.blockSize ∧
      ((s'.heap r).seqLen - 1) / b.blockSize < (s'.heap r).blockTable.length
  evicted : ∀ r ∈ out, Evicted s s' r
  sorted : rows.Pairwise fun a b => (s'.heap a).admitSeq < (s'.heap b).admitSeq
  keeps : batch.countP s.needsBlock ≤ s.manager.freeUnits.length → out = []
  ne_nil : (∀ r ∈ batch, m.fitsEver (s.heap r).promptTokenIds.length (s.heap r).maxNewTokens = true) →
    (∀ r ∈ s.running, (s.heap r).finished = true → (s.heap r).blockTable = []) → batch ≠ [] →
    rows ≠ []

variable {s s' : Scheduler σ} {rows out batch : List Ref}

/-- A covered row has the block of its newest token. -/
theorem room_of_covered {b : BlockManager} (hman : s.manager = .block b) {r : Ref}
    (hpos : 0 < (s.heap r).seqLen) (hcov : Covered s r) :
    (s.heap r).seqLen ≤ (s.heap r).blockTable.length * b.blockSize ∧
      ((s.heap r).seqLen - 1) / b.blockSize < (s.heap r).blockTable.length := by
  have hneed := hcov (by rw [hman]; rfl)
  rw [hman] at hneed
  change b.blocksNeeded (s.heap r).seqLen ≤ _ at hneed
  have hle : (s.heap r).seqLen ≤ (s.heap r).blockTable.length * b.blockSize := by
    exact_mod_cast (b.blocksNeeded_le_iff).mp hneed
  refine ⟨hle, (Nat.div_lt_iff_lt_mul b.blockSize_pos).mpr ?_⟩
  omega

/-- An open running row needs no more than a full reservation. -/
theorem Good.need_le_units (h : Good cfg m (rest s inbox)) (hp : m.paged = true) {r : Ref}
    (hr : r ∈ s.running) (hopen : (s.heap r).finished = false)
    (hfits : m.fitsEver (s.heap r).promptTokenIds.length (s.heap r).maxNewTokens = true) :
    m.unitsNeeded (s.heap r).seqLen ≤ m.units := by
  have hend := (h.facts r).ending
  have hnone := Request.not_finished_iff.mp hopen
  have hlt : ((s.heap r).outputTokenIds.length : Int) < (s.heap r).maxNewTokens :=
    (Request.lt_of_endReason_none (hend.prefix_open hnone _ (List.prefix_refl _))).resolve_left
      (h.output_ne_nil hr)
  refine (m.unitsNeeded_mono ?_).trans (Manager.worst_le_of_fitsEver hp hfits)
  simp only [Request.seqLen]
  omega

/-- The rows come back in the order of admission. -/
theorem Ensured.sorted (hgood : Good cfg m (rest s inbox)) (hrun : ∀ r ∈ batch, r ∈ s.running)
    (hnd : batch.Nodup) (h : Ensured s s' (Scheduler.sortAdmitted s.heap batch) rows out) :
    rows.Pairwise fun a b => (s'.heap a).admitSeq < (s'.heap b).admitSeq := by
  have hperm : (Scheduler.sortAdmitted s.heap batch).Perm batch := sortKey_perm _ _
  have hle : rows.Pairwise fun a b => (s.heap a).admitSeq ≤ (s.heap b).admitSeq :=
    (sortKey_sorted _ _).sublist h.sublist
  have hne : rows.Nodup := (hperm.nodup_iff.mpr hnd).sublist h.sublist
  refine (hle.and hne).imp_of_mem fun {a b} ha hb hab => ?_
  obtain ⟨blocks, hsame⟩ := h.grown a ha
  obtain ⟨blocks', hsame'⟩ := h.grown b hb
  rw [hsame, hsame']
  have hheld : ∀ x ∈ rows, x ∈ (rest s inbox).held := fun x hx =>
    mem_held_of_running (hrun x (hperm.mem_iff.mp (h.sublist.subset hx)))
  -- no two holders have one `admit_seq`
  exact hab.1.lt_of_ne fun he => hab.2 (hgood.placed.seq_inj a (hheld a ha) b (hheld b hb) he)

theorem Ensured.evictions (hgood' : Good cfg m (rest s' inbox))
    (h : Ensured s s' batch rows out) {r : Ref} (hr : r ∈ out) : Evicted s s' r := by
  have hw : r ∈ s'.waiting := h.waiting ▸ List.mem_append_right _ hr
  have hnd : s'.waiting.Nodup := hgood'.placed.waiting_nodup
  have hheld : r ∉ s'.running := fun hrun =>
    hgood'.placed.notMem_waiting_of_held (mem_held_of_running hrun) hw
  have hreq := h.evicted r hr
  exact ⟨hheld, List.count_eq_one_of_mem hnd hw, by rw [hreq]; rfl, by rw [hreq]; rfl⟩

/--
**The capacity search is correct for every batch.** At every point where the engine can call it,
with preemption on, `_ensure_capacity` returns, and what it returns is what `_decode` relies on.
-/
theorem capacity_search_correct (hm : m.Fresh) (hpre : cfg.preemption = true)
    (hreach : Reach env cfg (rest (.init cfg m w) []) (rest s inbox)) :
    ∃ rows s' out, s.ensureCapacity cfg s.openRows = .ok (rows, s') ∧
      FindsCapacity m s s' s.openRows rows out := by
  have hgood : Good cfg m (rest s inbox) := Good.ops (.init hm w) hreach
  have hrun : ∀ r ∈ s.openRows, r ∈ s.running := fun r hr => (mem_openRows.mp hr).1
  have hfin : ∀ r ∈ s.openRows, (s.heap r).finished = false := fun r hr => (mem_openRows.mp hr).2
  have hnd : s.openRows.Nodup := hgood.placed.running_nodup.filter _
  have hperm : (Scheduler.sortAdmitted s.heap s.openRows).Perm s.openRows := sortKey_perm _ _
  have hrows : Rows s (Scheduler.sortAdmitted s.heap s.openRows) 0 := .start hperm hrun hfin hnd
  obtain ⟨⟨rows, s'⟩, hens⟩ := ensureLoop_isOk env hpre hgood hrows
  obtain ⟨hgood', out, hout⟩ := ensureLoop_ensured env hgood hrows hens
  have hrun₁ := (hout.rows_running (hperm.nodup_iff.mpr hnd)
    fun r hr => hrun r (hperm.mem_iff.mp hr)).1
  refine ⟨rows, s', out, hens, ⟨hperm.symm.trans hout.perm, hrun₁, fun b hman r hr => ?_,
    fun r hr => hout.evictions hgood' hr, hout.sorted hgood hrun hnd,
    hout.kept_all env hgood hrows hperm hens, fun hfits hothers hne => ?_⟩⟩
  · have hrs := hrun r (hperm.mem_iff.mp (hout.sublist.subset hr))
    have hpos := List.length_pos_iff.mpr (hgood.output_ne_nil hrs)
    obtain ⟨blocks, hsame⟩ := hout.grown r hr
    refine room_of_covered hman ?_ (hout.covered r hr)
    rw [hsame]
    change 0 < (s.heap r).promptTokenIds.length + (s.heap r).outputTokenIds.length
    change 0 < (s.heap r).outputTokenIds.length at hpos
    omega
  · refine ensureLoop_ne_nil env hgood hrows (fun x hx hxa => ?_) (fun hp x hx => ?_) ?_ hens
    · refine hothers x hx ?_
      by_contra hno
      exact hxa (hperm.mem_iff.mpr (mem_openRows.mpr ⟨hx, by simpa using hno⟩))
    · have hx' := hperm.mem_iff.mp hx
      exact hgood.need_le_units hp (hrun x hx') (hfin x hx') (hfits x hx')
    · intro hnil
      exact hne (List.perm_nil.mp (hnil ▸ hperm).symm)

/-- Two rows and a full pool: the second row makes room for the first. -/
theorem capacity_search_correct_full :
    ∃ s, run (Scheduler.act (Env.ofNext fun toks => toks.length) { preemption := true })
        (.init { preemption := true } (.block (.new 4 1 Nat.one_pos false)) .start)
        [.submit { requestId := "a", promptTokenIds := [1], maxNewTokens := 3 },
          .submit { requestId := "b", promptTokenIds := [2], maxNewTokens := 3 }, .step] = .ok s ∧
      ∃ rows s' out, s.ensureCapacity { preemption := true } s.openRows = .ok (rows, s') ∧
        FindsCapacity (.block (.new 4 1 Nat.one_pos false)) s s' s.openRows rows out :=
  exists_ok_and (by decide +kernel) fun _ hs =>
    capacity_search_correct (Manager.fresh_block_new ..) rfl
      (run_reach (Manager.fresh_block_new ..) hs)

end LlmServe
