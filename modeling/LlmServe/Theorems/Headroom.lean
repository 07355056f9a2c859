import LlmServe.Engine.NextToken
import LlmServe.Properties.Progress
import LlmServe.Properties.Batches

/-!
# What the headroom of admission covers

`_pop_admissible` asks `can_allocate` for one spare block for every running or just-admitted
request, so that "admitting into a completely full pool" does not force an immediate preemption.
The candidate itself is not among them. After `_admit` the pool has a block for every row but one
(`popLoop_room`); one is missing exactly when the last admission left none for its candidate and
every row, the candidate included, begins a new block with its next token (`LeavesRoom`). A request
that the model ends in its prefill needs no further token (`AdmitEos`).
-/

namespace LlmServe

open Infra Point

variable {σ : Type} {env : Env σ} {cfg : EngineConfig} {m : Manager} {w : σ}
  {s s' s₁ s₂ : Scheduler σ}

/-- The free blocks cover the next token of every open row. -/
def Scheduler.HasHeadroom (s : Scheduler σ) : Prop :=
  s.openRows.countP s.needsBlock ≤ s.manager.freeUnits.length

instance (s : Scheduler σ) : Decidable s.HasHeadroom := inferInstanceAs (Decidable (_ ≤ _))

/-- Nobody is sent back to the queue between `s` and `s'`. -/
structure NoEviction (s s' : Scheduler σ) : Prop where
  waiting : s'.waiting = s.waiting
  preemptCount : ∀ r, (s'.heap r).preemptCount = (s.heap r).preemptCount

/-- The next token of `q` reaches its limit. -/
def Request.LastToken (q : Request) : Prop := q.maxNewTokens ≤ q.outputTokenIds.length + 1

instance (q : Request) : Decidable q.LastToken := inferInstanceAs (Decidable (_ ≤ _))

/-- A request whose next token but one takes no new block: its tokens leave room in the last
block, or the token of its prefill is its last. -/
def Request.EndsInside (m : Manager) (q : Request) : Prop :=
  m.unitsNeeded (q.seqLen + 1) ≤ m.unitsNeeded q.seqLen ∨ q.LastToken

instance (m : Manager) (q : Request) : Decidable (q.EndsInside m) :=
  inferInstanceAs (Decidable (_ ∨ _))

/-- Admitting `r` next leaves a block for everybody, `r` included, or somebody will need none. -/
def LeavesRoom (p : Point σ) (r : Ref) : Prop :=
  p.sched.manager.canAllocate (p.sched.heap r)
      (p.sched.running.length + p.popped.length + 1) = true ∨
    (∃ x ∈ p.sched.running, p.sched.needsBlock x = false) ∨
    ∃ x ∈ p.popped ++ [r], (p.sched.heap x).EndsInside p.sched.manager

instance (p : Point σ) (r : Ref) : Decidable (LeavesRoom p r) := inferInstanceAs (Decidable (_ ∨ _))

/-! ## The blocks left by `_pop_admissible` -/

/-- `LeavesRoom` of the last admission, read off the state it left. -/
def RoomLeft (s : Scheduler σ) (batch : List Ref) : Prop :=
  s.running.length + batch.length ≤ s.manager.freeUnits.length ∨
    (∃ x ∈ s.running, s.needsBlock x = false) ∨
    ∃ x ∈ batch, (s.heap x).EndsInside s.manager

theorem canAllocate_free (hp : s.manager.paged = true) (hres : s.manager.reserves = false)
    {r : Ref} {tail : List Ref} {q : Request} (hq : s.Admitted s₁ r tail q) {n : Nat} :
    s.manager.canAllocate (s.heap r) n = true ↔ n ≤ s₁.manager.freeUnits.length := by
  obtain ⟨blocks, -, hfree, hlen, -⟩ := Manager.allocate_ok hq.allocate
  rw [Manager.canAllocate_iff hp hres, hfree, List.length_append, ← hlen]
  push_cast
  omega

/-- Requests keep their tokens and limits while the queue is popped. -/
theorem EndsInside.congr {q q' : Request} {m' : Manager} (hm : m.SameShape m')
    (hprompt : q'.promptTokenIds = q.promptTokenIds) (hout : q'.outputTokenIds = q.outputTokenIds)
    (hmax : q'.maxNewTokens = q.maxNewTokens) : q'.EndsInside m' ↔ q.EndsInside m := by
  unfold Request.EndsInside Request.LastToken Request.seqLen
  rw [hm.unitsNeeded, hprompt, hout, hmax]

/-- One admission, judged before and after. -/
theorem leavesRoom_iff (hp : s.manager.paged = true) (hres : s.manager.reserves = false)
    {inbox batch : List Ref} {r : Ref} {tail : List Ref} {q : Request} (hr : r ∉ s.running)
    (hq : s.Admitted s₁ r tail q) :
    LeavesRoom (admitting s inbox batch) r ↔ RoomLeft s₁ (batch ++ [r]) := by
  obtain ⟨blocks, rfl, -, -, hshape, -⟩ := Manager.allocate_ok hq.allocate
  have hneeds : ∀ x ∈ s.running, s₁.needsBlock x = s.needsBlock x := fun x hx => by
    have hxr : x ≠ r := by
      rintro rfl
      exact hr hx
    rw [Scheduler.needsBlock, hshape.paged, hshape.unitsNeeded, hq.heap, Function.update_of_ne hxr]
    rfl
  have hends : ∀ x, (s₁.heap x).EndsInside s₁.manager ↔ (s.heap x).EndsInside s.manager := by
    intro x
    rw [hq.heap]
    exact EndsInside.congr hshape (apply_update Request.promptTokenIds (by rfl) x)
      (apply_update Request.outputTokenIds (by rfl) x) (apply_update Request.maxNewTokens (by rfl) x)
  refine or_congr ?_ (or_congr ?_ ?_)
  · rw [hq.running, List.length_append, List.length_singleton]
    exact canAllocate_free hp hres hq
  · rw [hq.running]
    refine exists_congr fun x => and_congr_right fun hx => ?_
    rw [hneeds x hx]
    exact Iff.rfl
  · exact exists_congr fun x => and_congr_right fun _ => (hends x).symm

/-- A round that admits finds a free block for everyone who came before. -/
theorem popLoop_headroom (hp : s.manager.paged = true) (hres : s.manager.reserves = false)
    {limit : Nat} {l batch : List Ref} {b : List Ref × Scheduler σ}
    (h : Scheduler.popLoop limit l batch s = .ok b) (hne : b.1 ≠ batch) :
    s.running.length + batch.length ≤ s.manager.freeUnits.length := by
  cases l with
  | nil =>
    cases h
    exact absurd rfl hne
  | cons r l =>
    unfold Scheduler.popLoop at h
    split at h
    · next hcond =>
      have hcan := (Manager.canAllocate_iff hp hres).mp hcond.2
      have hnonneg := s.manager.unitsNeeded_nonneg (n := (s.heap r).seqLen) (by omega)
      push_cast at hcan
      omega
    · cases h
      exact absurd rfl hne

/--
**Only the last admission of a round can leave too little**: any before it left room for the next,
which counts the earlier candidates among its headroom.
-/
theorem popLoop_room (inbox : List Ref) {limit : Nat} : ∀ {l batch : List Ref} {s : Scheduler σ}
    {b : List Ref × Scheduler σ}, s.manager.paged = true → s.manager.reserves = false →
    (∀ x ∈ l, x ∉ s.running) → Scheduler.popLoop limit l batch s = .ok b →
    (PopKeeps LeavesRoom inbox limit l batch s ↔ b.1 = batch ∨ RoomLeft b.2 b.1) ∧
      (b.1 = batch ∨ b.2.running.length + b.1.length ≤ b.2.manager.freeUnits.length + 1)
  | [], batch, s, b, _, _, _, h => by
    cases h
    exact ⟨⟨fun _ => Or.inl rfl, fun _ => trivial⟩, Or.inl rfl⟩
  | r :: l, batch, s, b, hp, hres, hl, h => by
    unfold Scheduler.popLoop at h
    unfold PopKeeps
    by_cases hcond : batch.length < limit ∧
        s.manager.canAllocate (s.heap r) (s.running.length + batch.length) = true
    · rw [if_pos hcond] at h
      obtain ⟨s₁, ha, h⟩ := exists_of_bind_ok h
      obtain ⟨q, hq⟩ := Scheduler.stampAdmit_admitted ha
      have hshape := (Manager.allocate_ok hq.allocate).choose_spec.2.2.2.1
      obtain ⟨ih, hfree⟩ := popLoop_room inbox (hshape.paged.trans hp)
        (hshape.reserves.trans hres) (fun x hx => hq.running ▸ hl x (List.mem_cons_of_mem _ hx)) h
      have hne : b.1 ≠ batch := by
        have hlen := (popLoop_takes h).length_le
        rintro he
        rw [he, List.length_append, List.length_singleton] at hlen
        omega
      have hleaves : LeavesRoom (admitting s inbox batch) r ↔
          RoomLeft (s₁.stampAdmit r) (batch ++ [r]) :=
        leavesRoom_iff hp hres (hl r List.mem_cons_self) hq
      have hstart : (batch.length < limit ∧
          s.manager.canAllocate (s.heap r) (s.running.length + batch.length) = true →
          LeavesRoom (admitting s inbox batch) r ∧ ∀ s', { s with waiting := l }.allocate r = .ok s' →
            PopKeeps LeavesRoom inbox limit l (batch ++ [r]) (s'.stampAdmit r)) ↔
          RoomLeft (s₁.stampAdmit r) (batch ++ [r]) ∧
            (b.1 = batch ++ [r] ∨ RoomLeft b.2 b.1) := by
        rw [← ih, ← hleaves]
        refine ⟨fun hk => ⟨(hk hcond).1, (hk hcond).2 s₁ ha⟩, fun hk _ => ⟨hk.1, fun s' hs' => ?_⟩⟩
        cases ha.symm.trans hs'
        exact hk.2
      rw [hstart, or_iff_right hne, or_iff_right hne]
      have hnow := (canAllocate_free hp hres hq).mp hcond.2
      rw [← hq.running] at hnow
      by_cases hb : b.1 = batch ++ [r]
      · -- the last round: nobody after it asked for `r`'s block
        rw [popLoop_same h hb, hb, List.length_append, List.length_singleton]
        exact ⟨⟨And.left, fun hroom => ⟨hroom, Or.inl rfl⟩⟩, by omega⟩
      · have hnext := popLoop_headroom (hshape.paged.trans hp) (hshape.reserves.trans hres) h hb
        exact ⟨⟨fun hroom => hroom.2.resolve_left hb, fun hroom => ⟨Or.inl hnext, Or.inr hroom⟩⟩,
          hfree.resolve_left hb⟩
    · rw [if_neg hcond] at h
      cases h
      exact ⟨⟨fun _ => Or.inl rfl, fun _ hc => absurd hc hcond⟩, Or.inl rfl⟩

/-! ## The rows after `_admit` -/

/-- Without end-of-text only the limit ends a request that was open. -/
theorem Request.emit_finished_iff {now : Time} {tok : Token} {q : Request}
    (h : q.finishReason = none) : (q.emit now tok).finished = true ↔
      q.LastToken ∨ (q.emit now tok).finishReason = some .stop := by
  unfold Request.LastToken
  obtain ⟨_, -, -, ⟨hlen, he⟩ | ⟨hlen, -, -, he⟩ | ⟨hlen, -, he⟩⟩ := Request.emit_cases now tok q
  · rw [he]
    exact ⟨fun _ => Or.inl hlen, fun _ => rfl⟩
  · rw [he]
    exact ⟨fun _ => Or.inr rfl, fun _ => rfl⟩
  · rw [he, Request.finished_iff]
    refine ⟨fun hne => absurd h hne, fun hor => ?_⟩
    rcases hor with hle | hstop
    · omega
    · exact absurd (h.symm.trans hstop) nofun

/-- A prefilled request asks for a block unless its tokens end inside one or it is over. -/
theorem emitted_needs {q : Request} {now : Time} {tok : Token} (hopen : q.finishReason = none)
    (htable : (q.blockTable.length : Int) = m.unitsNeeded q.seqLen) :
    (q.emit now tok).finished = false ∧ ((q.emit now tok).blockTable.length : Int) <
        m.unitsNeeded ((q.emit now tok).seqLen : Nat) ↔
      ¬(q.EndsInside m ∨ (q.emit now tok).finishReason = some .stop) := by
  rw [Request.emit_blockTable, Request.emit_seqLen, htable, ← Bool.not_eq_true,
    Request.emit_finished_iff hopen, Request.EndsInside]
  push_cast
  constructor
  · rintro ⟨hgo, hlt⟩ ((hin | hlast) | hstop)
    · omega
    · exact hgo (Or.inl hlast)
    · exact hgo (Or.inr hstop)
  · intro hno
    exact ⟨fun hend => hno (hend.imp_left Or.inr), not_le.mp fun hle => hno (Or.inl (Or.inl hle))⟩

/-- A list all of whose members count is longer than what one member less would need. -/
theorem countP_le_iff {l : List Ref} {p : Ref → Bool} {n : Nat} (h : l.length ≤ n + 1) :
    l.countP p ≤ n ↔ l.length ≤ n ∨ ∃ x ∈ l, p x = false := by
  have hle := List.countP_le_length (p := p) (l := l)
  constructor
  · intro hn
    by_contra hno
    have hall : ∀ x ∈ l, p x = true := fun x hx => by
      by_contra hpx
      exact hno (Or.inr ⟨x, hx, by simpa using hpx⟩)
    have heq := List.countP_eq_length.mpr hall
    exact hno (Or.inl (by omega))
  · rintro (hn | ⟨x, hx, hpx⟩)
    · exact hle.trans hn
    · have hlt : l.countP p < l.length := by
        refine hle.lt_of_ne fun heq => ?_
        exact absurd (hpx.symm.trans (List.countP_eq_length.mp heq x hx)) nofun
      omega

/-- The need of a row admitted in this step, in terms of what `_pop_admissible` left. -/
theorem admitted_needs_iff {batch : List Ref}
    (hwaiting : ∀ r ∈ s₁.waiting, (s₁.heap r).finishReason = none) (hfed : Fed s s₂ batch) (hall : AdmittedAll s₁ s₂ batch) (hp : s.manager.paged = true)
    (hshape : s₁.manager.SameShape s.manager) {x : Ref} (hx : x ∈ batch) :
    (!(s₂.heap x).finished && s₂.needsBlock x) = true ↔
      ¬((s.heap x).EndsInside s.manager ∨ (s₂.heap x).finishReason = some .stop) := by
  have hw : x ∈ s₁.waiting := hall.waiting.mem_iff.mpr (List.mem_append_left _ hx)
  obtain ⟨q, now, tok, hq, hopenq, htable⟩ : ∃ q now tok, s₂.heap x = Request.emit now tok q ∧
      q.finishReason = none ∧ (q.blockTable.length : Int) = s.manager.unitsNeeded q.seqLen := by
    obtain ⟨blocks, seq, st, now, tok, hq, hblocks⟩ := hall.admitted x hx
    exact ⟨_, now, tok, hq, hwaiting x hw, by rw [hshape.unitsNeeded]; exact hblocks⟩
  obtain ⟨st', now', tok', hq'⟩ := hfed.emitted x hx
  have hfields := hq.symm.trans hq'
  -- `EndsInside` reads nothing that was written between the two
  have hsame : (s.heap x).EndsInside s.manager ↔ q.EndsInside s.manager := by
    have hprompt := congrArg Request.promptTokenIds hfields
    have hout := congrArg Request.outputTokenIds hfields
    have hmax := congrArg Request.maxNewTokens hfields
    simp only [Request.emit_promptTokenIds, Request.emit_outputTokenIds,
      Request.emit_maxNewTokens] at hprompt hout hmax
    exact EndsInside.congr (.refl _) hprompt.symm (List.append_inj_left' hout rfl).symm hmax.symm
  rw [hsame, hq, ← emitted_needs hopenq htable, ← hq]
  simp only [Scheduler.needsBlock, hfed.manager, hp, Bool.true_and, Bool.and_eq_true,
    Bool.not_eq_true', decide_eq_true_eq]

/-- **What is left after `_admit`**, when it admitted somebody. -/
theorem hasHeadroom_iff {batch : List Ref} (hopen : ∀ r ∈ s₁.running, (s₁.heap r).finished = false)
    (hwaiting : ∀ r ∈ s₁.waiting, (s₁.heap r).finishReason = none)
    (hdisj : ∀ r ∈ s₁.running, r ∉ batch) (hfed : Fed s s₂ batch) (hrun : s.running = s₁.running)
    (hall : AdmittedAll s₁ s₂ batch)
    (hfree : s.running.length + batch.length ≤ s.manager.freeUnits.length + 1)
    (hp : s.manager.paged = true) (hshape : s₁.manager.SameShape s.manager) :
    s₂.HasHeadroom ↔ RoomLeft s batch ∨ ∃ r ∈ batch, (s₂.heap r).finishReason = some .stop := by
  have hlen : s₂.running.length = s.running.length + batch.length := by
    rw [hall.running, List.length_append, hrun]
  -- a row of the previous steps
  have hold : ∀ x ∈ s₁.running,
      (!(s₂.heap x).finished && s₂.needsBlock x) = s.needsBlock x := by
    intro x hx
    rw [hall.other x (hdisj x hx), hopen x hx, Scheduler.needsBlock, hfed.manager,
      hfed.other x (hdisj x hx)]
    rfl
  have hnew : ∀ x ∈ batch, (!(s₂.heap x).finished && s₂.needsBlock x) = true ↔
      ¬((s.heap x).EndsInside s.manager ∨ (s₂.heap x).finishReason = some .stop) := fun x hx =>
    admitted_needs_iff hwaiting hfed hall hp hshape hx
  rw [Scheduler.HasHeadroom, Scheduler.openRows, List.countP_filter, hfed.manager,
    countP_le_iff (by omega), hlen, RoomLeft, or_assoc, or_assoc]
  refine or_congr_right ?_
  rw [hall.running]
  constructor
  · rintro ⟨x, hx, hno⟩
    rcases List.mem_append.mp hx with hx | hx
    · refine Or.inl ⟨x, hrun ▸ hx, ?_⟩
      rw [← hold x hx, Bool.and_comm]
      exact hno
    · have hends := (not_congr (hnew x hx)).mp (by rw [Bool.and_comm, hno]; decide)
      rcases not_not.mp hends with hin | hstop
      · exact Or.inr (Or.inl ⟨x, hx, hin⟩)
      · exact Or.inr (Or.inr ⟨x, hx, hstop⟩)
  · have hback : ∀ x ∈ batch, (s.heap x).EndsInside s.manager ∨
        (s₂.heap x).finishReason = some .stop → ∃ x ∈ s₁.running ++ batch,
          (s₂.needsBlock x && !(s₂.heap x).finished) = false := by
      intro x hx hor
      refine ⟨x, List.mem_append_right _ hx, ?_⟩
      rw [Bool.and_comm, ← Bool.not_eq_true]
      exact fun hno => (hnew x hx).mp hno hor
    rintro (⟨x, hx, hno⟩ | ⟨x, hx, hin⟩ | ⟨x, hx, hstop⟩)
    · rw [hrun] at hx
      refine ⟨x, List.mem_append_left _ hx, ?_⟩
      rw [Bool.and_comm, hold x hx]
      exact hno
    · exact hback x hx (Or.inl hin)
    · exact hback x hx (Or.inr hstop)

/-! ## End-of-text -/

/-- The model answers end-of-text to the prefill of a request of `batch` that heeds it. -/
def AnswersEos (env : Env σ) (s : Scheduler σ) (batch : List Ref) : Prop :=
  ∃ b, (s.perfCounter env).2.stepTokens env (batch.map s.prefillRow) = .ok b ∧
    ∃ p ∈ batch.zip b.1, p.2 = eosTokenId ∧ (s.heap p.1).ignoreEos = false

/-- The same for prefills of one request each. -/
def EachAnswersEos (env : Env σ) : List Ref → Scheduler σ → Prop
  | [], _ => False
  | r :: l, s => AnswersEos env s [r] ∨ ∃ s', s.prefill env [r] = .ok s' ∧ EachAnswersEos env l s'

/-- The model answers end-of-text to a prefill of `_admit`. -/
def AdmitEos (env : Env σ) (cfg : EngineConfig) (s : Scheduler σ) : Prop :=
  ∃ b, s.popAdmissible (admitLimit cfg s) = .ok b ∧
    match cfg.batching with
    | .static => AnswersEos env b.2 b.1
    | .continuous => EachAnswersEos env b.1 b.2

theorem emit_stop_iff {now : Time} {tok : Token} {q : Request} (hopen : q.finishReason = none) :
    q.LastToken ∨ (q.emit now tok).finishReason = some .stop ↔
      q.LastToken ∨ tok = eosTokenId ∧ q.ignoreEos = false := by
  refine or_congr_right' fun hlast => ?_
  unfold Request.LastToken at hlast
  obtain ⟨_, -, -, ⟨hlen, he⟩ | ⟨-, htok, hign, he⟩ | ⟨-, hno, he⟩⟩ := Request.emit_cases now tok q
  · exact absurd hlen hlast
  · rw [he]
    exact ⟨fun _ => ⟨htok, hign⟩, fun _ => rfl⟩
  · rw [he]
    exact ⟨fun hstop => absurd (hopen.symm.trans hstop) nofun, fun hor => absurd hor hno⟩

/-- Who ends in a prefill, but for those at their limit. -/
theorem prefill_stop_iff {batch : List Ref} (hnd : batch.Nodup)
    (hopen : ∀ r ∈ batch, (s.heap r).finishReason = none) (h : s.prefill env batch = .ok s') :
    (∃ r ∈ batch, (s.heap r).LastToken ∨ (s'.heap r).finishReason = some .stop) ↔
      (∃ r ∈ batch, (s.heap r).LastToken) ∨ AnswersEos env s batch := by
  obtain ⟨b, hb, hfst, htok⟩ := prefill_token hnd h
  have hrow : ∀ p ∈ batch.zip b.1,
      ((s.heap p.1).LastToken ∨ (s'.heap p.1).finishReason = some .stop ↔
        (s.heap p.1).LastToken ∨ p.2 = eosTokenId ∧ (s.heap p.1).ignoreEos = false) := by
    intro p hp
    obtain ⟨st, now, he⟩ := htok p hp
    rw [he]
    exact emit_stop_iff (q := { s.heap p.1 with state := st })
      (hopen p.1 (hfst ▸ List.mem_map_of_mem hp))
  have hmem : ∀ r ∈ batch, ∃ p ∈ batch.zip b.1, p.1 = r := fun r hr => by
    rw [← hfst] at hr
    exact List.mem_map.mp hr
  constructor
  · rintro ⟨r, hr, hor⟩
    obtain ⟨p, hp, rfl⟩ := hmem r hr
    rcases (hrow p hp).mp hor with hlast | heos
    · exact Or.inl ⟨p.1, hr, hlast⟩
    · exact Or.inr ⟨b, hb, p, hp, heos⟩
  · rintro (⟨r, hr, hlast⟩ | ⟨b', hb', p, hp, heos⟩)
    · exact ⟨r, hr, Or.inl hlast⟩
    · cases hb.symm.trans hb'
      exact ⟨p.1, hfst ▸ List.mem_map_of_mem hp, (hrow p hp).mpr (Or.inr heos)⟩

theorem prefillEach_stop_iff : ∀ {batch : List Ref} {s s' : Scheduler σ}, batch.Nodup →
    (∀ r ∈ batch, (s.heap r).finishReason = none) → Scheduler.prefillEach env batch s = .ok s' →
    ((∃ r ∈ batch, (s.heap r).LastToken ∨ (s'.heap r).finishReason = some .stop) ↔
      (∃ r ∈ batch, (s.heap r).LastToken) ∨ EachAnswersEos env batch s)
  | [], s, s', _, _, _ => by simp [EachAnswersEos]
  | r :: batch, s, s', hnd, hopen, h => by
    obtain ⟨hr, hnd⟩ := List.nodup_cons.mp hnd
    obtain ⟨s₁, hs₁, h⟩ := exists_of_bind_ok h
    have hfirst := prefill_stop_iff (List.nodup_singleton r)
      (fun x hx => hopen x (List.mem_singleton.mp hx ▸ List.mem_cons_self)) hs₁
    -- the prefill of `r` is not about the others, nor theirs about `r`
    have hkept : ∀ x ∈ batch, s₁.heap x = s.heap x := fun x hx =>
      (prefill_fed (List.nodup_singleton r) hs₁).1.other x fun hxr =>
        hr (List.mem_singleton.mp hxr ▸ hx)
    have hdone : s'.heap r = s₁.heap r := (prefillEach_fed hnd h).1.other r hr
    have hrest := prefillEach_stop_iff hnd (fun x hx => by
      rw [hkept x hx]
      exact hopen x (List.mem_cons_of_mem _ hx)) h
    have hlast : (∃ x ∈ batch, (s₁.heap x).LastToken) ↔ ∃ x ∈ batch, (s.heap x).LastToken :=
      exists_congr fun x => and_congr_right fun hx => by rw [hkept x hx]
    have hstop : (∃ x ∈ batch, (s₁.heap x).LastToken ∨ (s'.heap x).finishReason = some .stop) ↔
        ∃ x ∈ batch, (s.heap x).LastToken ∨ (s'.heap x).finishReason = some .stop :=
      exists_congr fun x => and_congr_right fun hx => by rw [hkept x hx]
    rw [hlast, hstop] at hrest
    simp only [List.mem_singleton, exists_eq_left] at hfirst
    have heach : (∃ s'', s.prefill env [r] = .ok s'' ∧ EachAnswersEos env batch s'') ↔
        EachAnswersEos env batch s₁ := by
      refine ⟨?_, fun he => ⟨s₁, hs₁, he⟩⟩
      rintro ⟨s'', hs'', he⟩
      cases hs₁.symm.trans hs''
      exact he
    simp only [List.exists_mem_cons_iff, EachAnswersEos]
    rw [hdone, hfirst, hrest, heach]
    exact or_or_or_comm

/-- A call of `_admit` that adds to `running` prefills what it popped. -/
theorem admit_prefills {batch : List Ref} (hsome : s'.running ≠ s.running) (hne : batch ≠ [])
    (hpop : s.popAdmissible (admitLimit cfg s) = .ok (batch, s₁))
    (h : s.admitWaiting env cfg = .ok s') :
    match cfg.batching with
    | .static => s₁.prefill env batch = .ok s'
    | .continuous => Scheduler.prefillEach env batch s₁ = .ok s' := by
  unfold Scheduler.admitWaiting at h
  unfold admitLimit at hpop
  cases hb : cfg.batching with
  | static =>
    simp only [hb] at h hpop ⊢
    by_cases hrun : s.running = []
    · have hno : ¬s.running ≠ [] := by simpa using hrun
      rw [if_neg hno] at h hpop
      obtain ⟨b, hb, h⟩ := exists_of_bind_ok h
      cases hpop.symm.trans hb
      simpa [hne] using h
    · rw [if_pos hrun] at h
      cases h
      exact absurd rfl hsome
  | continuous =>
    simp only [hb] at h hpop ⊢
    rw [hpop] at h
    exact h

/-- Apart from limits, a request just admitted ends with its first token if the model says so. -/
theorem admit_stop_iff {batch : List Ref} (hsome : s'.running ≠ s.running) (hne : batch ≠ [])
    (hnd : batch.Nodup) (hopen : ∀ r ∈ batch, (s₁.heap r).finishReason = none)
    (hpop : s.popAdmissible (admitLimit cfg s) = .ok (batch, s₁))
    (h : s.admitWaiting env cfg = .ok s') :
    (∃ r ∈ batch, (s₁.heap r).LastToken ∨ (s'.heap r).finishReason = some .stop) ↔
      (∃ r ∈ batch, (s₁.heap r).LastToken) ∨ AdmitEos env cfg s := by
  have hprefills := admit_prefills hsome hne hpop h
  have hadmits : AdmitEos env cfg s ↔ match cfg.batching with
      | .static => AnswersEos env s₁ batch
      | .continuous => EachAnswersEos env batch s₁ := by
    unfold AdmitEos
    simp only [hpop, Except.ok.injEq, exists_eq_left']
  rw [hadmits]
  cases hb : cfg.batching with
  | static =>
    rw [hb] at hprefills
    exact prefill_stop_iff hnd hopen hprefills
  | continuous =>
    rw [hb] at hprefills
    exact prefillEach_stop_iff hnd hopen hprefills

/-- A request at its limit is among those `RoomLeft` knows, so of the rest only the model matters. -/
theorem roomLeft_or_stop_iff {batch : List Ref} (hsome : s'.running ≠ s.running) (hne : batch ≠ [])
    (hnd : batch.Nodup) (hopen : ∀ r ∈ batch, (s₁.heap r).finishReason = none)
    (hpop : s.popAdmissible (admitLimit cfg s) = .ok (batch, s₁))
    (h : s.admitWaiting env cfg = .ok s') :
    (RoomLeft s₁ batch ∨ ∃ r ∈ batch, (s'.heap r).finishReason = some .stop) ↔
      RoomLeft s₁ batch ∨ AdmitEos env cfg s := by
  refine or_congr_right' fun hno => ?_
  have hlast : ∀ r ∈ batch, ¬(s₁.heap r).LastToken := fun r hr hl =>
    hno (Or.inr (Or.inr ⟨r, hr, Or.inr hl⟩))
  have hnone : ¬∃ r ∈ batch, (s₁.heap r).LastToken := by
    rintro ⟨r, hr, hl⟩
    exact hlast r hr hl
  calc (∃ r ∈ batch, (s'.heap r).finishReason = some .stop)
      ↔ ∃ r ∈ batch, (s₁.heap r).LastToken ∨ (s'.heap r).finishReason = some .stop :=
        exists_congr fun r => and_congr_right fun hr => (or_iff_right (hlast r hr)).symm
    _ ↔ (∃ r ∈ batch, (s₁.heap r).LastToken) ∨ AdmitEos env cfg s :=
        admit_stop_iff hsome hne hnd hopen hpop h
    _ ↔ AdmitEos env cfg s := or_iff_right hnone

/-! ## Nobody is evicted -/

/-- A decode step with room for every row sends nobody back. -/
theorem noEviction_of_hasHeadroom (hgood : Good cfg m (rest s [])) (hroom : s.HasHeadroom)
    (h : s.decode env cfg = .ok s') : NoEviction s s' := by
  obtain ⟨rows, out, hdec, hkeep⟩ := decode_rows hgood h
  have hnil := hkeep hroom
  subst hnil
  refine ⟨by rw [hdec.waiting, List.append_nil], fun r => ?_⟩
  by_cases hr : r ∈ s.openRows
  · have hrow : r ∈ rows := by
      have hmem := hdec.perm.mem_iff.mp hr
      rwa [List.append_nil] at hmem
    obtain ⟨blocks, st, now, tok, hq, -⟩ := hdec.served r hrow
    rw [hq, Request.emit_preemptCount]
  · rw [hdec.other r hr]

/--
**Admission headroom.** In every run of the paged engine with preemption, in every step that admits
somebody: the blocks left by `_admit` cover the next token of every open row, and nobody is evicted in
that step, if and only if each admission of the step leaves room (`LeavesRoom`) or the model answers
one of its prefills with end-of-text (`AdmitEos`).
-/
theorem headroom_prevents_eviction_iff (hm : m.Fresh) (hp : m.paged = true)
    (hres : m.reserves = false) {acts : List Action}
    (hrun : run (Scheduler.act env cfg) (.init cfg m w) acts = .ok s)
    (hretire : s.retire env = .ok s₁) (hadmits : s₁.admitWaiting env cfg = .ok s₂)
    (hsome : s₂.running ≠ s₁.running) :
    (s₂.HasHeadroom ∧ ∀ s', s₂.decode env cfg = .ok s' → NoEviction s₂ s') ↔
      StepKeeps LeavesRoom env cfg [] s ∨ AdmitEos env cfg s₁ := by
  have hgood := run_good hm hrun
  have hgood₁ := hgood.ops (ops_of_stepOps (retire_ops hretire))
  have hgood₂ := hgood₁.ops (ops_of_stepOps (admit_ops hgood₁.placed hadmits))
  have hretired := retire_ok hgood.placed.running_nodup hretire
  have hperm : (Scheduler.sortWaiting s₁.heap s₁.waiting).Perm s₁.waiting := sortKey_perm _ _
  rcases admit_batch hgood₁.placed.waiting_nodup hadmits with
    ⟨-, -, rfl⟩ | ⟨batch, t, hpop, hpopped, hfed, hall⟩
  · exact absurd rfl hsome
  have hne : batch ≠ [] := by
    rintro rfl
    exact hsome (hall.running.trans (List.append_nil _))
  obtain ⟨hkeeps, hfree⟩ := popLoop_room []
    (s := { s₁ with waiting := Scheduler.sortWaiting s₁.heap s₁.waiting })
    (hgood₁.shape.paged.trans hp) (hgood₁.shape.reserves.trans hres) (fun x hx hxr =>
      hgood₁.placed.notMem_waiting_of_held (mem_held_of_running hxr) (hperm.mem_iff.mp hx)) hpop
  have hstep : StepKeeps LeavesRoom env cfg [] s ↔ RoomLeft t batch := by
    refine Iff.trans ?_ (hkeeps.trans (or_iff_right hne))
    refine ⟨fun hk => hk s₁ hretire, fun hk s' hs' => ?_⟩
    cases hretire.symm.trans hs'
    exact hk
  have hdisj : ∀ r ∈ s₁.running, r ∉ batch := fun r hr hb =>
    hgood₁.placed.notMem_waiting_of_held (mem_held_of_running hr)
      (hall.waiting.mem_iff.mpr (List.mem_append_left _ hb))
  have hopen : ∀ r ∈ s₁.running, (s₁.heap r).finished = false := fun r hr => by
    obtain ⟨-, ho⟩ := (hretired.running r).mp hr
    rw [hretired.heap r ho]
    exact Request.not_finished_iff.mpr ho.1
  have hwaiting : ∀ r ∈ s₁.waiting, (s₁.heap r).finishReason = none := fun r hr =>
    hgood₁.waiting_open hr
  have hroom := hasHeadroom_iff hopen hwaiting hdisj hfed hpopped.running hall
    (hfree.resolve_left hne) (hpopped.shape.paged.trans (hgood₁.shape.paged.trans hp)) hpopped.shape
  have hbnd : batch.Nodup := hpopped.nodup (hperm.nodup_iff.mpr hgood₁.placed.waiting_nodup)
  have hbopen : ∀ r ∈ batch, (t.heap r).finishReason = none := fun r hr => by
    obtain ⟨blocks, seq, hq, -⟩ := hpopped.admitted r hr
    rw [hq]
    exact hwaiting r (hall.waiting.mem_iff.mpr (List.mem_append_left _ hr))
  have heos := roomLeft_or_stop_iff hsome hne hbnd hbopen hpop hadmits
  rw [hstep, ← heos, ← hroom]
  exact ⟨And.left, fun h => ⟨h, fun s' hs' => noEviction_of_hasHeadroom hgood₂ h hs'⟩⟩

/-- Two requests of two tokens each, for a pool of blocks of one token. -/
def twoPrompts : List Action :=
  [.submit { requestId := "a", promptTokenIds := [1], maxNewTokens := 2 },
    .submit { requestId := "b", promptTokenIds := [2], maxNewTokens := 2 }]

def onDemand : EngineConfig := { backend := .paged, blockSize := 1, preemption := true }

/-- With a fourth block the second request is not admitted into a full pool. -/
theorem headroom_prevents_eviction_iff_four :
    ∃ s, run (Scheduler.act (Env.ofNext fun toks => toks.length) onDemand)
        (.init onDemand (.block (.new 4 1 Nat.one_pos false)) .start) twoPrompts = .ok s ∧
      ∃ s₁, s.retire (Env.ofNext fun toks => toks.length) = .ok s₁ ∧
      ∃ s₂, s₁.admitWaiting (Env.ofNext fun toks => toks.length) onDemand = .ok s₂ ∧
        s₂.HasHeadroom ∧ ∀ s',
          s₂.decode (Env.ofNext fun toks => toks.length) onDemand = .ok s' → NoEviction s₂ s' := by
  obtain ⟨s, hs, s₁, hret, s₂, hadm, hsome, hkeeps⟩ :
      ∃ s, run (Scheduler.act (Env.ofNext fun toks => toks.length) onDemand)
          (.init onDemand (.block (.new 4 1 Nat.one_pos false)) .start) twoPrompts = .ok s ∧
        ∃ s₁, s.retire (Env.ofNext fun toks => toks.length) = .ok s₁ ∧
        ∃ s₂, s₁.admitWaiting (Env.ofNext fun toks => toks.length) onDemand = .ok s₂ ∧
          s₂.running ≠ s₁.running ∧
          StepKeeps LeavesRoom (Env.ofNext fun toks => toks.length) onDemand [] s := by
    decide +kernel
  exact ⟨s, hs, s₁, hret, s₂, hadm, (headroom_prevents_eviction_iff (Manager.fresh_block_new ..) rfl
    rfl hs hret hadm hsome).mpr (Or.inl hkeeps)⟩

/-- With three, the second request finds one block, gets it, and is evicted in the same step. -/
theorem headroom_misses_the_candidate :
    ∃ s, run (Scheduler.act (Env.ofNext fun toks => toks.length) onDemand)
        (.init onDemand (.block (.new 3 1 Nat.one_pos false)) .start) twoPrompts = .ok s ∧
      (∀ r < 2, (s.heap r).cancelled = false ∧ s.manager.fitsEver
        (s.heap r).promptTokenIds.length (s.heap r).maxNewTokens = true) ∧
      ∃ s₁, s.retire (Env.ofNext fun toks => toks.length) = .ok s₁ ∧
      ∃ s₂, s₁.admitWaiting (Env.ofNext fun toks => toks.length) onDemand = .ok s₂ ∧
        s₁.running = [] ∧ s₂.running = [0, 1] ∧ ¬s₂.HasHeadroom ∧
      ∃ s', s₂.decode (Env.ofNext fun toks => toks.length) onDemand = .ok s' ∧
        s'.waiting = [1] ∧ (s'.heap 1).outputTokenIds.length = 1 ∧
        (s'.heap 1).preemptCount = 1 := by
  decide +kernel

end LlmServe
