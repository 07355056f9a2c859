import LlmServe.Properties.Capacity

/-!
# What a call of `_admit` or `_decode` does to each request

The invariants of the small steps say what holds at every point of a call. Here the methods are
read as a whole, for what they do to the requests of their batch: `Fed` is a token for each of them,
`Popped` the memory and the number each gets from `_pop_admissible`, `AdmittedAll` the two together,
and `Decoded` one decode step with its evictions.
-/

namespace LlmServe

open Infra Point

variable {σ : Type} {env : Env σ} {cfg : EngineConfig} {m : Manager} {inbox : List Ref}
  {s s' s₁ : Scheduler σ} {batch : List Ref}

/-! ## A token for each row -/

/-- Each request of `batch` got a token. Of the rest only the counters, the world, the trace and
`running` can have changed. -/
structure Fed (s s' : Scheduler σ) (batch : List Ref) : Prop where
  manager : s'.manager = s.manager
  waiting : s'.waiting = s.waiting
  other : ∀ r, r ∉ batch → s'.heap r = s.heap r
  emitted : ∀ r ∈ batch, ∃ st now tok,
    s'.heap r = ({ s.heap r with state := st } : Request).emit now tok

theorem Fed.cons {r : Ref} (hr : r ∉ batch) (h : Fed s s₁ [r]) (h' : Fed s₁ s' batch) :
    Fed s s' (r :: batch) where
  manager := h'.manager.trans h.manager
  waiting := h'.waiting.trans h.waiting
  other := fun x hx => by
    obtain ⟨hxr, hxb⟩ : x ≠ r ∧ x ∉ batch := by simpa using hx
    rw [h'.other x hxb, h.other x (by simpa using hxr)]
  emitted := fun x hx => by
    rcases List.mem_cons.mp hx with rfl | hxb
    · rw [h'.other x hr]
      exact h.emitted x (List.mem_singleton_self x)
    · have hxr : x ∉ [r] := fun hmem => hr (List.mem_singleton.mp hmem ▸ hxb)
      have hemit := h'.emitted x hxb
      rwa [h.other x hxr] at hemit

theorem emit_fed (s : Scheduler σ) (r : Ref) (tok : Token) :
    Fed s (s.emit env r tok) [r] ∧ (s.emit env r tok).running = s.running := by
  obtain ⟨now, he⟩ := Scheduler.emit_ok env s r tok
  refine ⟨⟨he.manager, he.waiting, fun x hx => ?_, fun x hx => ?_⟩, he.running⟩
  · rw [he.heap, Function.update_of_ne (by simpa using hx)]
  · rw [List.mem_singleton.mp hx, he.heap, Function.update_self]
    exact ⟨(s.heap r).state, now, tok, rfl⟩

theorem prefillEmit_fed (s : Scheduler σ) (p : Ref × Token) :
    Fed s (s.prefillEmit env p) [p.1] ∧ (s.prefillEmit env p).running = s.running := by
  obtain ⟨now, he⟩ := Scheduler.emit_ok env
    (s.modify p.1 fun q => { q with state := .running }) p.1 p.2
  have hheap : (s.prefillEmit env p).heap = Function.update
      (Function.update s.heap p.1 { s.heap p.1 with state := .running }) p.1
      (({ s.heap p.1 with state := .running } : Request).emit now p.2) := by
    rw [Scheduler.prefillEmit, he.heap]
    simp [Scheduler.modify]
  refine ⟨⟨he.manager, he.waiting, fun x hx => ?_, fun x hx => ?_⟩, he.running⟩
  · have hx' : x ≠ p.1 := by simpa using hx
    rw [hheap, Function.update_of_ne hx', Function.update_of_ne hx']
  · rw [List.mem_singleton.mp hx, hheap, Function.update_self]
    exact ⟨_, now, p.2, rfl⟩

theorem prefillEmit_token (s : Scheduler σ) (p : Ref × Token) : ∃ st now,
    (s.prefillEmit env p).heap p.1 = ({ s.heap p.1 with state := st } : Request).emit now p.2 := by
  obtain ⟨now, he⟩ := Scheduler.emit_ok env
    (s.modify p.1 fun q => { q with state := .running }) p.1 p.2
  refine ⟨.running, now, ?_⟩
  rw [Scheduler.prefillEmit, he.heap]
  simp [Scheduler.modify]

/-- A loop of emissions, one for each row. -/
theorem emitAll_fed {f : Scheduler σ → Ref × Token → Scheduler σ}
    (hf : ∀ s p, Fed s (f s p) [p.1] ∧ (f s p).running = s.running) :
    ∀ (l : List (Ref × Token)) (s : Scheduler σ), (l.map Prod.fst).Nodup →
      Fed s (l.foldl f s) (l.map Prod.fst) ∧ (l.foldl f s).running = s.running
  | [], s, _ => ⟨⟨rfl, rfl, fun _ _ => rfl, nofun⟩, rfl⟩
  | p :: l, s, hnd => by
    obtain ⟨hp, hnd⟩ := List.nodup_cons.mp hnd
    obtain ⟨hfed, hrun⟩ := hf s p
    obtain ⟨hfed', hrun'⟩ := emitAll_fed hf l (f s p) hnd
    exact ⟨hfed.cons hp hfed', hrun'.trans hrun⟩

/-- There is a token for each row. -/
theorem prefill_refs {row : Ref → Row} {b : List Token × Scheduler σ}
    (h : s.stepTokens env (batch.map row) = .ok b) : (batch.zip b.1).map Prod.fst = batch := by
  obtain ⟨w, hw, -⟩ := Scheduler.stepTokens_ok h
  have hlen := env.stepTokens_length hw
  rw [List.length_map] at hlen
  exact List.map_fst_zip hlen.ge

theorem prefill_fed (hnd : batch.Nodup) (h : s.prefill env batch = .ok s') :
    Fed s s' batch ∧ s'.running = s.running ++ batch := by
  obtain ⟨dt, heq⟩ := prefill_eq env s batch
  rw [heq] at h
  obtain ⟨⟨nxt, s₁⟩, hf, he⟩ := exists_of_bind_ok h
  cases he
  have hfst := prefill_refs hf
  obtain ⟨w, -, rfl⟩ := Scheduler.stepTokens_ok hf
  obtain ⟨hfed, hrun⟩ := emitAll_fed (f := Scheduler.prefillEmit env) prefillEmit_fed
    (batch.zip nxt) _ (hfst.symm ▸ hnd)
  rw [hfst] at hfed
  exact ⟨⟨hfed.manager, hfed.waiting, hfed.other, hfed.emitted⟩, congrArg (· ++ batch) hrun⟩

/-- The token of each row is the one the loop has for it. -/
theorem emitAll_token {f : Scheduler σ → Ref × Token → Scheduler σ}
    (hf : ∀ s p, Fed s (f s p) [p.1] ∧ (f s p).running = s.running)
    (htok : ∀ s p, ∃ st now,
      (f s p).heap p.1 = ({ s.heap p.1 with state := st } : Request).emit now p.2) :
    ∀ (l : List (Ref × Token)) (s : Scheduler σ), (l.map Prod.fst).Nodup → ∀ p ∈ l, ∃ st now,
      (l.foldl f s).heap p.1 = ({ s.heap p.1 with state := st } : Request).emit now p.2
  | [], _, _, _, hp => nomatch hp
  | q :: l, s, hnd, p, hp => by
    obtain ⟨hq, hl⟩ := List.nodup_cons.mp hnd
    rcases List.mem_cons.mp hp with rfl | hp
    · -- the later rounds serve other requests
      obtain ⟨st, now, he⟩ := htok s p
      exact ⟨st, now, by rw [List.foldl_cons, (emitAll_fed hf l (f s p) hl).1.other p.1 hq, he]⟩
    · obtain ⟨st, now, he⟩ := emitAll_token hf htok l (f s q) hl p hp
      have hpq : p.1 ∉ [q.1] := fun hmem =>
        hq (List.mem_singleton.mp hmem ▸ List.mem_map_of_mem hp)
      rw [(hf s q).1.other p.1 hpq] at he
      exact ⟨st, now, he⟩

/-- A prefill hands each request the model's answer to its row. -/
theorem prefill_token (hnd : batch.Nodup) (h : s.prefill env batch = .ok s') :
    ∃ b, (s.perfCounter env).2.stepTokens env (batch.map s.prefillRow) = .ok b ∧
      (batch.zip b.1).map Prod.fst = batch ∧ ∀ p ∈ batch.zip b.1, ∃ st now,
        s'.heap p.1 = ({ s.heap p.1 with state := st } : Request).emit now p.2 := by
  obtain ⟨dt, heq⟩ := prefill_eq env s batch
  rw [heq] at h
  obtain ⟨⟨nxt, s₁⟩, hf, he⟩ := exists_of_bind_ok h
  cases he
  have hfst := prefill_refs hf
  obtain ⟨w, -, rfl⟩ := Scheduler.stepTokens_ok hf
  exact ⟨(nxt, _), hf, hfst, emitAll_token (f := Scheduler.prefillEmit env) prefillEmit_fed
    prefillEmit_token (batch.zip nxt) _ (hfst.symm ▸ hnd)⟩

theorem prefillEach_fed : ∀ {batch : List Ref} {s s' : Scheduler σ}, batch.Nodup →
    Scheduler.prefillEach env batch s = .ok s' →
    Fed s s' batch ∧ s'.running = s.running ++ batch
  | [], s, s', _, h => by
    cases h
    exact ⟨⟨rfl, rfl, fun _ _ => rfl, nofun⟩, (List.append_nil _).symm⟩
  | r :: batch, s, s', hnd, h => by
    obtain ⟨hr, hnd⟩ := List.nodup_cons.mp hnd
    obtain ⟨s₁, hs₁, h⟩ := exists_of_bind_ok h
    obtain ⟨hfed, hrun⟩ := prefill_fed (List.nodup_singleton r) hs₁
    obtain ⟨hfed', hrun'⟩ := prefillEach_fed hnd h
    refine ⟨hfed.cons hr hfed', ?_⟩
    rw [hrun', hrun, List.append_assoc]
    rfl

theorem decodeBatch_fed (hnd : batch.Nodup) (h : s.decodeBatch env batch = .ok s') :
    Fed s s' batch ∧ s'.running = s.running := by
  obtain ⟨dt, heq⟩ := decodeBatch_eq env s batch
  rw [heq _ rfl] at h
  obtain ⟨rows, hrows, h⟩ := exists_of_bind_ok h
  obtain ⟨⟨nxt, s₁⟩, hf, h⟩ := exists_of_bind_ok h
  obtain ⟨s₂, hrec, he⟩ := exists_of_bind_ok h
  cases he
  have hfst := Placed.decode_refs hrows hf
  obtain ⟨hfed, hrun⟩ := emitAll_fed (f := fun s p => s.emit env p.1 p.2)
    (fun s p => emit_fed s p.1 p.2) (batch.zip nxt) s₂ (hfst.symm ▸ hnd)
  rw [hfst] at hfed
  obtain ⟨w, -, rfl⟩ := Scheduler.stepTokens_ok hf
  rcases recordStep_cases env _ batch.length with ⟨-, he⟩ | ⟨met₂, he⟩
  · exact absurd (hrec.symm.trans he) nofun
  · cases hrec.symm.trans he
    exact ⟨⟨hfed.manager, hfed.waiting, hfed.other, hfed.emitted⟩, hrun⟩

/-! ## `_pop_admissible` -/

/-- The requests `new` left the queue from its front, with memory and a number. -/
structure Popped (s s' : Scheduler σ) (new : List Ref) : Prop where
  running : s'.running = s.running
  waiting : s.waiting = new ++ s'.waiting
  shape : s.manager.SameShape s'.manager
  other : ∀ r, r ∉ new → s'.heap r = s.heap r
  admitted : ∀ r ∈ new, ∃ blocks seq,
    s'.heap r = { s.heap r with blockTable := blocks, admitSeq := seq } ∧
      (blocks.length : Int) = s.manager.unitsNeeded (s.heap r).seqLen

theorem Popped.cons {r : Ref} {tail new : List Ref} {q : Request} (hr : r ∉ new)
    (hw : s.waiting = r :: tail) (hq : s.Admitted s₁ r tail q) (h : Popped s₁ s' new) :
    Popped s s' (r :: new) := by
  obtain ⟨blocks, rfl, -, hlen, hshape, -⟩ := Manager.allocate_ok hq.allocate
  have hother : ∀ x, x ≠ r → s₁.heap x = s.heap x := fun x hx => by
    rw [hq.heap, Function.update_of_ne hx]
  refine ⟨h.running.trans hq.running, ?_, hshape.trans h.shape, fun x hx => ?_, fun x hx => ?_⟩
  · rw [hw, ← hq.waiting, h.waiting]
    rfl
  · obtain ⟨hxr, hxn⟩ : x ≠ r ∧ x ∉ new := by simpa using hx
    rw [h.other x hxn, hother x hxr]
  · rcases List.mem_cons.mp hx with rfl | hxn
    · rw [h.other x hr, hq.heap, Function.update_self]
      exact ⟨blocks, _, rfl, hlen⟩
    · have hxr : x ≠ r := by
        rintro rfl
        exact hr hxn
      have hadm := h.admitted x hxn
      rwa [hother x hxr, hshape.unitsNeeded] at hadm

theorem popLoop_popped {limit : Nat} : ∀ {l batch : List Ref} {s : Scheduler σ}
    {b : List Ref × Scheduler σ}, s.waiting = l → l.Nodup →
    Scheduler.popLoop limit l batch s = .ok b → ∃ new, b.1 = batch ++ new ∧ Popped s b.2 new
  | [], batch, s, b, hw, _, h => by
    cases h
    exact ⟨[], (List.append_nil _).symm, rfl, rfl, .refl _, fun _ _ => rfl, nofun⟩
  | r :: l, batch, s, b, hw, hnd, h => by
    unfold Scheduler.popLoop at h
    split at h
    · obtain ⟨s₁, ha, h⟩ := exists_of_bind_ok h
      obtain ⟨q, hq⟩ := Scheduler.stampAdmit_admitted ha
      obtain ⟨hr, hnd⟩ := List.nodup_cons.mp hnd
      obtain ⟨new, hb, hpop⟩ := popLoop_popped hq.waiting hnd h
      -- `r` has left the queue, so no later round finds it
      have hwait := hpop.waiting
      rw [hq.waiting] at hwait
      have hrn : r ∉ new := fun hmem => hr (hwait ▸ List.mem_append_left _ hmem)
      exact ⟨r :: new, by simp [hb], hpop.cons hrn hw hq⟩
    · cases h
      exact ⟨[], (List.append_nil _).symm, rfl, rfl, .refl _, fun _ _ => rfl, nofun⟩

/-! ## `_admit` -/

/-- The requests of `batch` went from the queue to `running`: each has memory for the tokens it was
prefilled with, and one more token. -/
structure AdmittedAll (s s' : Scheduler σ) (batch : List Ref) : Prop where
  running : s'.running = s.running ++ batch
  waiting : s.waiting.Perm (batch ++ s'.waiting)
  shape : s.manager.SameShape s'.manager
  other : ∀ r, r ∉ batch → s'.heap r = s.heap r
  admitted : ∀ r ∈ batch, ∃ blocks seq st now tok, s'.heap r = ({ s.heap r with
      blockTable := blocks, admitSeq := seq, state := st } : Request).emit now tok ∧
    (blocks.length : Int) = s.manager.unitsNeeded (s.heap r).seqLen

theorem Popped.nodup {new : List Ref} (h : Popped s s' new) (hnd : s.waiting.Nodup) : new.Nodup :=
  (h.waiting ▸ hnd).of_append_left

theorem Popped.fed {new l : List Ref} (h : Popped { s with waiting := l } s₁ new)
    (hl : l.Perm s.waiting) (hfed : Fed s₁ s' new) (hrun : s'.running = s₁.running ++ new) :
    AdmittedAll s s' new where
  running := by rw [hrun, h.running]
  waiting := by
    have hw := h.waiting
    rw [← hfed.waiting] at hw
    exact hw ▸ hl.symm
  shape := hfed.manager ▸ h.shape
  other := fun r hr => (hfed.other r hr).trans (h.other r hr)
  admitted := fun r hr => by
    obtain ⟨st, now, tok, he⟩ := hfed.emitted r hr
    obtain ⟨blocks, seq, hq, hlen⟩ := h.admitted r hr
    rw [hq] at he
    exact ⟨blocks, seq, st, now, tok, he, hlen⟩

/-- **`_admit` in either mode**: it does nothing, or it pops a batch and prefills it. -/
theorem admit_batch (hnd : s.waiting.Nodup) (h : s.admitWaiting env cfg = .ok s') :
    s.running ≠ [] ∧ cfg.batching = .static ∧ s' = s ∨
      ∃ batch s₁, s.popAdmissible (admitLimit cfg s) = .ok (batch, s₁) ∧
        Popped { s with waiting := Scheduler.sortWaiting s.heap s.waiting } s₁ batch ∧
        Fed s₁ s' batch ∧ AdmittedAll s s' batch := by
  have hperm : (Scheduler.sortWaiting s.heap s.waiting).Perm s.waiting := sortKey_perm _ _
  have hnd' := hperm.nodup_iff.mpr hnd
  have hpop : ∀ {limit batch s₁}, s.popAdmissible limit = .ok (batch, s₁) →
      Popped { s with waiting := Scheduler.sortWaiting s.heap s.waiting } s₁ batch ∧
        batch.Nodup := by
    intro limit batch s₁ hp
    obtain ⟨new, hb, hpopped⟩ := popLoop_popped rfl hnd' hp
    cases hb
    exact ⟨hpopped, hpopped.nodup hnd'⟩
  unfold Scheduler.admitWaiting at h
  unfold admitLimit
  cases hb : cfg.batching with
  | static =>
    rw [hb] at h
    by_cases hrun : s.running = []
    · have hno : ¬s.running ≠ [] := by simpa using hrun
      simp only [if_neg hno] at h ⊢
      obtain ⟨⟨batch, s₁⟩, hp, h⟩ := exists_of_bind_ok h
      obtain ⟨hpopped, hbnd⟩ := hpop hp
      refine Or.inr ⟨batch, s₁, hp, hpopped, ?_⟩
      by_cases hne : batch = []
      · -- an empty batch is not prefilled
        subst hne
        cases h
        have hfed : Fed s₁ s₁ [] := ⟨rfl, rfl, fun _ _ => rfl, nofun⟩
        exact ⟨hfed, hpopped.fed hperm hfed (List.append_nil _).symm⟩
      · replace h : s₁.prefill env batch = .ok s' := by simpa [hne] using h
        obtain ⟨hfed, hrun'⟩ := prefill_fed hbnd h
        exact ⟨hfed, hpopped.fed hperm hfed hrun'⟩
    · -- a static batch runs to its end before the next is formed
      simp only [hrun, ne_eq, not_false_eq_true, if_true] at h
      cases h
      exact Or.inl ⟨hrun, rfl, rfl⟩
  | continuous =>
    rw [hb] at h
    obtain ⟨⟨batch, s₁⟩, hp, h⟩ := exists_of_bind_ok h
    obtain ⟨hpopped, hbnd⟩ := hpop hp
    obtain ⟨hfed, hrun'⟩ := prefillEach_fed hbnd h
    exact Or.inr ⟨batch, s₁, hp, hpopped, hfed, hpopped.fed hperm hfed hrun'⟩

/-! ## `_decode` -/

/-- The batch of `_decode`. -/
def Scheduler.openRows (s : Scheduler σ) : List Ref :=
  s.running.filter fun r => !(s.heap r).finished

theorem mem_openRows {r : Ref} : r ∈ s.openRows ↔ r ∈ s.running ∧ (s.heap r).finished = false := by
  simp [Scheduler.openRows]

/-- One decode step: `out` was evicted and each of `rows` got the room it needs and a token. -/
structure Decoded (s s' : Scheduler σ) (rows out : List Ref) : Prop where
  perm : s.openRows.Perm (rows ++ out)
  waiting : s'.waiting = s.waiting ++ out
  running : s.running.Perm (s'.running ++ out)
  shape : s.manager.SameShape s'.manager
  other : ∀ r, r ∉ s.openRows → s'.heap r = s.heap r
  evicted : ∀ r ∈ out, s'.heap r = (s.heap r).requeued
  served : ∀ r ∈ rows, ∃ blocks st now tok, s'.heap r = ({ s.heap r with
      blockTable := (s.heap r).blockTable ++ blocks, state := st } : Request).emit now tok ∧
    (s.manager.paged = true →
      (((s.heap r).blockTable ++ blocks).length : Int) = s.manager.unitsNeeded (s.heap r).seqLen)

/-- A covered holder has exactly the units of its tokens. -/
theorem Good.table_of_covered (h : Good cfg m (rest s inbox)) {r : Ref} (hr : r ∈ s.running)
    (hcov : Covered s r) (hp : s.manager.paged = true) :
    ((s.heap r).blockTable.length : Int) = s.manager.unitsNeeded (s.heap r).seqLen := by
  have hle := (h.facts r).table.le (h.holds_of_held (mem_held_of_running hr))
  change ((s.heap r).blockTable.length : Int) ≤ m.unitsNeeded (s.heap r).seqLen at hle
  rw [← h.shape.unitsNeeded] at hle
  exact hle.antisymm (hcov hp)

/-- What `_ensure_capacity` and the tokens of its rows come to. -/
theorem Ensured.fed {active rows out : List Ref} (hperm : active.Perm s.openRows)
    (hgood₁ : Good cfg m (rest s₁ inbox)) (hrun₁ : ∀ r ∈ rows, r ∈ s₁.running)
    (h : Ensured s s₁ active rows out) (hfed : Fed s₁ s' rows) (hrun : s'.running = s₁.running)
    (hdisj : ∀ r ∈ out, r ∉ rows) : Decoded s s' rows out where
  perm := hperm.symm.trans h.perm
  waiting := hfed.waiting.trans h.waiting
  running := hrun ▸ h.running
  shape := hfed.manager ▸ h.shape
  other := fun r hr => by
    have hra : r ∉ active := fun hmem => hr (hperm.mem_iff.mp hmem)
    rw [hfed.other r fun hmem => hra (h.sublist.subset hmem), h.kept r hra]
  evicted := fun r hr => (hfed.other r (hdisj r hr)).trans (h.evicted r hr)
  served := fun r hr => by
    obtain ⟨st, now, tok, he⟩ := hfed.emitted r hr
    obtain ⟨blocks, hq⟩ := h.grown r hr
    have htable := hgood₁.table_of_covered (hrun₁ r hr) (h.covered r hr)
    rw [hq] at he htable
    refine ⟨blocks, st, now, tok, he, fun hp => ?_⟩
    rw [← h.shape.unitsNeeded]
    exact htable (h.shape.paged.trans hp)

theorem Ensured.rows_running {active rows out : List Ref} (hnd : active.Nodup)
    (hrun : ∀ r ∈ active, r ∈ s.running) (h : Ensured s s' active rows out) :
    (∀ r ∈ rows, r ∈ s'.running) ∧ ∀ r ∈ out, r ∉ rows := by
  have hdisj := (List.nodup_append.mp (h.perm.nodup_iff.mp hnd)).2.2
  refine ⟨fun r hr => ?_, fun r hr hrow => hdisj r hrow r hr rfl⟩
  have hmem := h.running.mem_iff.mp (hrun r (h.sublist.subset hr))
  exact (List.mem_append.mp hmem).resolve_right fun hout => hdisj r hr r hout rfl

/-- With a block for every row that needs one, nobody is evicted. -/
theorem Ensured.kept_all (env : Env σ) {i : Nat} {batch active rows out : List Ref}
    (hgood : Good cfg m (rest s inbox)) (hrows : Rows s active i) (hperm : active.Perm batch)
    (h : Ensured s s' active rows out)
    (hens : Scheduler.ensureLoop cfg s active i = .ok (rows, s'))
    (hle : batch.countP s.needsBlock ≤ s.manager.freeUnits.length) : out = [] := by
  have hsame : rows = active := ensureLoop_keeps env hgood hrows (by rwa [hperm.countP_eq]) hens
  have hlen := h.perm.length_eq
  rw [hsame, List.length_append] at hlen
  exact List.length_eq_zero_iff.mp (by omega)

/-- **One call of `_decode`.** -/
theorem decode_rows (hgood : Good cfg m (rest s inbox)) (h : s.decode env cfg = .ok s') :
    ∃ rows out, Decoded s s' rows out ∧
      (s.openRows.countP s.needsBlock ≤ s.manager.freeUnits.length → out = []) := by
  have hrun : ∀ r ∈ s.openRows, r ∈ s.running := fun r hr => (mem_openRows.mp hr).1
  have hnd : s.openRows.Nodup := hgood.placed.running_nodup.filter _
  have hperm : (Scheduler.sortAdmitted s.heap s.openRows).Perm s.openRows := sortKey_perm _ _
  change (if s.openRows = [] then .ok s else s.ensureCapacity cfg s.openRows >>= fun b =>
    if b.1 = [] then .ok b.2 else b.2.decodeBatch env b.1) = .ok s' at h
  by_cases hnil : s.openRows = []
  · rw [if_pos hnil] at h
    cases h
    exact ⟨[], [], ⟨by rw [hnil]; exact List.Perm.refl _, by simp, by simp, .refl _, fun _ _ => rfl,
      nofun, nofun⟩, fun _ => rfl⟩
  · rw [if_neg hnil] at h
    obtain ⟨⟨rows, s₁⟩, hens, h⟩ := exists_of_bind_ok h
    obtain ⟨hgood₁, out, hout⟩ := ensureCapacity_ensured env hgood hnd hrun
      (fun r hr => (mem_openRows.mp hr).2) hens
    obtain ⟨hrun₁, hdisj⟩ := hout.rows_running (hperm.nodup_iff.mpr hnd)
      fun r hr => hrun r (hperm.mem_iff.mp hr)
    refine ⟨rows, out, ?_, hout.kept_all env hgood
      (.start hperm hrun (fun r hr => (mem_openRows.mp hr).2) hnd) hperm hens⟩
    by_cases hr : rows = []
    · subst hr
      cases h
      have hfed : Fed s₁ s₁ [] := ⟨rfl, rfl, fun _ _ => rfl, nofun⟩
      exact hout.fed hperm hgood₁ hrun₁ hfed rfl hdisj
    · replace h : s₁.decodeBatch env rows = .ok s' := by simpa [hr] using h
      have hrnd : rows.Nodup := (hperm.nodup_iff.mpr hnd).sublist hout.sublist
      obtain ⟨hfed, hrun'⟩ := decodeBatch_fed hrnd h
      exact hout.fed hperm hgood₁ hrun₁ hfed hrun' hdisj

end LlmServe
