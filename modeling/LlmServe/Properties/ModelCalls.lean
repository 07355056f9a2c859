import LlmServe.Properties.AccessTotal
import LlmServe.Properties.Origin
import LlmServe.Properties.Progress
import LlmServe.Properties.Storage

/-!
# The forward pass never fails

`Call p batch rows` says what the scheduler hands to the forward pass at a point `p`. The pool has a
place for every position of such rows (`Call.fits`), so with the model as its world the scheduler
never sees an exception from below.

To use what is known of worlds that always answer, a world is completed (`Env.total`): where it
would raise it answers something. A step that only makes calls the world answers is the same step in
both (`step_total`).
-/

namespace LlmServe

open Infra Point

variable {σ : Type} {env : Env σ} {cfg : EngineConfig} {m : Manager} {s s' : Scheduler σ}
  {inbox : List Ref} {p : Point σ}

/-! ## What the scheduler asks for -/

/-- A forward pass for `batch`, about to run at `p`. -/
structure Call (p : Point σ) (batch : List Ref) (rows : List Row) : Prop where
  ne : batch ≠ []
  due : p.due = []
  row : List.Forall₂ (RowOf p) batch rows
  held : ∀ r ∈ batch, r ∈ p.held
  covered : ∀ r ∈ batch, Covered p.sched r

/-- The world answers every forward pass the scheduler can ask for at `p`. -/
def Env.AnswersAt (env : Env σ) (p : Point σ) : Prop :=
  ∀ batch rows, Call p batch rows → ∃ b, env.stepTokens p.sched.world rows = .ok b

/-- The row of a prefill feeds everything, from position 0. -/
theorem call_prefill {batch popped : List Ref}
    (hgood : Good cfg m (admitting s inbox (batch ++ popped))) (hne : batch ≠ []) :
    Call (admitting s inbox (batch ++ popped)) batch (batch.map s.prefillRow) where
  ne := hne
  due := rfl
  row := by
    rw [List.forall₂_map_right_iff, List.forall₂_same]
    exact fun r _ => ⟨rfl, rfl, rfl, by simp [Scheduler.prefillRow, admitting],
      by simp [Scheduler.prefillRow, admitting], Or.inl rfl⟩
  held := fun r hr => mem_held_of_popped (List.mem_append_left _ hr)
  covered := fun r hr _ => by
    rw [hgood.shape.unitsNeeded]
    exact (hgood.facts r).table.popped (phase_popped hgood.placed (List.mem_append_left _ hr))

theorem call_decode {batch : List Ref} {rows : List Row} (hgood : Good cfg m (rest s inbox))
    (hne : batch ≠ []) (hrows : Rows s batch batch.length)
    (h : batch.mapM s.decodeRow = .ok rows) : Call (rest s inbox) batch rows where
  ne := hne
  due := rfl
  row := by
    have hboth := (List.forall₂_and_left _ _).mpr ⟨hrows.running, forall₂_of_mapM_ok h⟩
    refine hboth.imp fun r row ⟨hr, hrow⟩ => ?_
    exact rowOf_decodeRow hgood (idle_rest ..) hr hrow
  held := fun r hr => mem_held_of_running (hrows.running r hr)
  covered := fun r hr => by
    obtain ⟨j, hj, rfl⟩ := List.getElem_of_mem hr
    exact hrows.covered j _ hj (List.getElem?_eq_getElem hj)

/-- **The pool has a place for every position of the rows.** -/
theorem Call.fits {batch : List Ref} {rows : List Row} (h : Call p batch rows)
    (hgood : Good cfg m p) (hl : Loaded m p) :
    ∀ row ∈ rows, row.tokens ≠ [] ∧ m.layout.Fits row := by
  intro row hrow
  obtain ⟨r, hr, hof⟩ := exists_of_forall₂ h.row.flip hrow
  have hheld := h.held r hr
  have hsub := hgood.submitted_of_mem (Or.inr hheld)
  have htotal : row.total = (p.sched.heap r).seqLen := hof.start
  have hunits : ∀ unit ∈ row.blockTable, unit < m.units := by
    intro unit hunit
    have hmem : unit ∈ p.units := by
      refine List.mem_append_right _ (List.mem_flatMap.mpr ⟨r, hheld, ?_⟩)
      rwa [hof.blockTable] at hunit
    have hlt := List.mem_range.mp (hgood.owned.mem_iff.mp hmem)
    rwa [hgood.shape.units] at hlt
  refine ⟨fun hnil => ?_, ?_⟩
  · have hzero := hof.seqLen_eq_zero h.due hnil
    have hpos := hl.seqLen_pos r hsub
    omega
  have hneed : m.unitsNeeded (p.sched.heap r).seqLen ≤ row.blockTable.length := by
    rw [hof.blockTable]
    cases hp : m.paged with
    | true =>
      have hcov := h.covered r hr (hgood.shape.paged.trans hp)
      rwa [hgood.shape.unitsNeeded] at hcov
    | false =>
      have hone := (hgood.facts r).table.slot hp (hgood.holds_of_held hheld)
      change (p.sched.heap r).blockTable.length = 1 at hone
      rw [slot_unitsNeeded hp, hone]
      rfl
  cases m with
  | slot m =>
    have hlen : 0 < row.blockTable.length := by
      change (1 : Int) ≤ row.blockTable.length at hneed
      omega
    refine ⟨?_, ?_⟩
    · cases htable : row.blockTable with
      | nil => simp [htable] at hlen
      | cons slot rest => exact ⟨slot, rest, rfl, hunits slot (by simp [htable])⟩
    · have hle := hl.seqLen_le hgood hsub
      have hcap := hl.context r hsub
      rw [htotal]
      show (p.sched.heap r).seqLen ≤ 1024
      simp only [maxContext] at hcap
      omega
  | block m =>
    refine ⟨fun j hj => ?_, hunits⟩
    have hpage := div_lt_pages m.blockSize_pos (htotal ▸ hj)
    change -(-((p.sched.heap r).seqLen : Int) / m.blockSize) ≤ row.blockTable.length at hneed
    show j / m.blockSize < row.blockTable.length
    omega

/-! ## The completed world -/

/-- The same world, where a forward pass that would raise answers something. -/
def Env.total (env : Env σ) : Env σ where
  perfCounter := env.perfCounter
  stepTokens w rows :=
    match env.stepTokens w rows with
    | .ok b => .ok b
    | .error _ => .ok (rows.map fun _ => 0, w)
  lastPadFrac := env.lastPadFrac
  stepTokens_length h := by
    split at h
    · next b hb =>
      cases h
      exact env.stepTokens_length hb
    · cases h
      rw [List.length_map]

theorem Env.total_answers (env : Env σ) : env.total.Answers := by
  intro w rows _
  unfold total
  dsimp only
  split
  · exact ⟨_, rfl⟩
  · exact ⟨_, rfl⟩

theorem stepTokens_total {rows : List Row} (h : ∃ b, env.stepTokens s.world rows = .ok b) :
    s.stepTokens env.total rows = s.stepTokens env rows := by
  obtain ⟨b, hb⟩ := h
  have htotal : env.total.stepTokens s.world rows = env.stepTokens s.world rows := by
    unfold Env.total
    dsimp only
    rw [hb]
  unfold Scheduler.stepTokens
  rw [htotal]

theorem prefill_total (batch popped : List Ref)
    (hgood : Good cfg m (admitting s inbox (batch ++ popped))) (hne : batch ≠ [])
    (hans : ∀ p, StepOps env.total cfg (fun _ _ => True) (admitting s inbox (batch ++ popped)) p →
      env.AnswersAt p) : s.prefill env.total batch = s.prefill env batch := by
  have hclock : StepOp env.total cfg (fun _ _ => True) (admitting s inbox (batch ++ popped))
      (admitting (s.perfCounter env).2 inbox (batch ++ popped)) := .clock _
  have hcall := call_prefill (hgood.op (.step hclock)) hne
  have heq : (s.perfCounter env).2.stepTokens env.total (batch.map (s.perfCounter env).2.prefillRow)
      = (s.perfCounter env).2.stepTokens env (batch.map (s.perfCounter env).2.prefillRow) :=
    stepTokens_total (hans _ (.single hclock) _ _ hcall)
  unfold Scheduler.prefill
  change ((s.perfCounter env).2.stepTokens env.total
    (batch.map (s.perfCounter env).2.prefillRow) >>= _) = _
  rw [heq]
  rfl

theorem prefillEach_total : ∀ {l : List Ref} {s : Scheduler σ},
    Good cfg m (admitting s inbox l) →
    (∀ p, StepOps env.total cfg (fun _ _ => True) (admitting s inbox l) p → env.AnswersAt p) →
    Scheduler.prefillEach env.total l s = Scheduler.prefillEach env l s
  | [], _, _, _ => rfl
  | r :: l, s, hgood, hans => by
    have hfirst := prefill_total [r] l hgood nofun hans
    unfold Scheduler.prefillEach
    rw [← hfirst]
    have hout := prefill_outcome env.total cfg (fun _ _ => True) s inbox [r] l
    cases hs₁ : s.prefill env.total [r] with
    | error e => rfl
    | ok s₁ =>
      rw [hs₁] at hout
      obtain ⟨p, hops, rfl⟩ := hout
      exact prefillEach_total (hgood.ops (ops_of_stepOps hops)) fun p hp => hans p (hops.trans hp)

theorem admitWaiting_total (hgood : Good cfg m (rest s inbox))
    (hans : ∀ p, StepOps env.total cfg (fun _ _ => True) (rest s inbox) p → env.AnswersAt p) :
    s.admitWaiting env.total cfg = s.admitWaiting env cfg := by
  unfold Scheduler.admitWaiting
  cases cfg.batching with
  | static =>
    by_cases hrun : s.running = []
    · simp only [if_neg (show ¬s.running ≠ [] by simpa using hrun)]
      have hout : Does env.total cfg (fun _ _ => True) (rest s inbox) (s.popAdmissible cfg.maxBatch) _ :=
        popAdmissible_outcome s inbox (by simp [hrun]) hgood.placed (popKeeps_true ..)
      cases hpop : s.popAdmissible cfg.maxBatch with
      | error e => rfl
      | ok b =>
        rw [hpop] at hout
        obtain ⟨p, hops, rfl⟩ := hout
        by_cases hb : b.1 = []
        · show (if b.1 ≠ [] then _ else _) = if b.1 ≠ [] then _ else _
          rw [if_neg (by simpa using hb), if_neg (by simpa using hb)]
        · have hbatch := prefill_total b.1 []
            (by rw [List.append_nil]; exact hgood.ops (ops_of_stepOps hops)) hb
            (by rw [List.append_nil]; exact fun p hp => hans p (hops.trans hp))
          show (if b.1 ≠ [] then _ else _) = if b.1 ≠ [] then _ else _
          rw [if_pos hb, if_pos hb, hbatch]
    · rw [if_pos hrun, if_pos hrun]
  | continuous =>
    have hlimit : ∀ n < cfg.maxBatch - s.running.length, s.running.length + n < cfg.maxBatch := by
      omega
    have hout : Does env.total cfg (fun _ _ => True) (rest s inbox)
        (s.popAdmissible (cfg.maxBatch - s.running.length)) _ :=
      popAdmissible_outcome s inbox hlimit hgood.placed (popKeeps_true ..)
    dsimp only
    cases hpop : s.popAdmissible (cfg.maxBatch - s.running.length) with
    | error e => rfl
    | ok b =>
      rw [hpop] at hout
      obtain ⟨p, hops, rfl⟩ := hout
      exact prefillEach_total (hgood.ops (ops_of_stepOps hops)) fun p hp => hans p (hops.trans hp)

theorem decodeBatch_total {batch : List Ref} (hgood : Good cfg m (rest s inbox)) (hne : batch ≠ [])
    (hrows : Rows s batch batch.length)
    (hans : ∀ p, StepOps env.total cfg (fun _ _ => True) (rest s inbox) p → env.AnswersAt p) :
    s.decodeBatch env.total batch = s.decodeBatch env batch := by
  obtain ⟨s₁, hs₁⟩ : ∃ t : Scheduler σ, t = { s with metrics :=
    { s.metrics with peakBatch := max s.metrics.peakBatch batch.length } } := ⟨_, rfl⟩
  have hcount : StepOp env.total cfg (fun _ _ => True) (rest s inbox) (rest s₁ inbox) := by
    rw [hs₁]
    exact .count _ _ _ (.line (.peakBatch batch.length) hrows.length_le)
  have hclock : StepOp env.total cfg (fun _ _ => True) (rest s₁ inbox)
      (rest (s₁.perfCounter env).2 inbox) := .clock _
  have hrows₁ : Rows (s₁.perfCounter env).2 batch batch.length := by
    rw [hs₁]
    exact ⟨hrows.nodup, hrows.running, hrows.unfinished, hrows.covered⟩
  have hgood₁ := (hgood.op (.step hcount)).op (.step hclock)
  -- both worlds run the same code around the forward pass
  obtain ⟨after, henv, htotal⟩ : ∃ after : List Token × Scheduler σ → Except PyError (Scheduler σ),
      s.decodeBatch env batch = (batch.mapM (s₁.perfCounter env).2.decodeRow >>= fun rows =>
        (s₁.perfCounter env).2.stepTokens env rows >>= after) ∧
      s.decodeBatch env.total batch = (batch.mapM (s₁.perfCounter env).2.decodeRow >>= fun rows =>
        (s₁.perfCounter env).2.stepTokens env.total rows >>= after) := by
    rw [hs₁]
    exact ⟨_, rfl, rfl⟩
  rw [henv, htotal]
  cases hmap : batch.mapM (s₁.perfCounter env).2.decodeRow with
  | error e => rfl
  | ok rows =>
    have hcall := call_decode hgood₁ hne hrows₁ hmap
    have heq := stepTokens_total (hans _ (.head hcount (.single hclock)) _ _ hcall)
    change ((s₁.perfCounter env).2.stepTokens env.total rows >>= after) = _
    rw [show (s₁.perfCounter env).2.stepTokens env.total rows = _ from heq]
    rfl

theorem decode_total (hgood : Good cfg m (rest s inbox))
    (hans : ∀ p, StepOps env.total cfg (fun _ _ => True) (rest s inbox) p → env.AnswersAt p) :
    s.decode env.total cfg = s.decode env cfg := by
  by_cases hnil : s.running.filter (fun r => !(s.heap r).finished) = []
  · rw [Scheduler.decode, Scheduler.decode, if_pos hnil, if_pos hnil]
  · rw [Scheduler.decode, Scheduler.decode, if_neg hnil, if_neg hnil]
    have hout : Does env.total cfg (fun _ _ => True) (rest s inbox) (s.ensureCapacity cfg s.openRows) _ :=
      ensureCapacity_outcome s inbox _ hgood.placed (hgood.placed.running_nodup.filter _)
        (fun r hr => (mem_openRows.mp hr).1) fun r hr => (mem_openRows.mp hr).2
    change (s.ensureCapacity cfg s.openRows >>= _) = (s.ensureCapacity cfg s.openRows >>= _)
    cases hens : s.ensureCapacity cfg s.openRows with
    | error e => rfl
    | ok b =>
      rw [hens] at hout
      obtain ⟨p, hops, rfl, hrows⟩ := hout
      show (if b.1 = [] then _ else _) = if b.1 = [] then _ else _
      by_cases hb : b.1 = []
      · rw [if_pos hb, if_pos hb]
      · rw [if_neg hb, if_neg hb]
        exact decodeBatch_total (hgood.ops (ops_of_stepOps hops)) hb hrows
          fun p hp => hans p (hops.trans hp)

/-- **A step whose calls are answered is the step of the completed world.** -/
theorem step_total (hgood : Good cfg m (rest s inbox))
    (hans : ∀ p, StepOps env.total cfg (fun _ _ => True) (rest s inbox) p → env.AnswersAt p) :
    s.step env.total cfg = s.step env cfg := by
  have hretire : s.retire env.total = s.retire env := rfl
  unfold Scheduler.step
  rw [hretire]
  cases hs₁ : s.retire env with
  | error e => rfl
  | ok s₁ =>
    have hops₁ : StepOps env.total cfg (fun _ _ => True) (rest s inbox) (rest s₁ inbox) :=
      retire_ops (hretire.trans hs₁)
    have hgood₁ := hgood.ops (ops_of_stepOps hops₁)
    have hadm := admitWaiting_total hgood₁ fun p hp => hans p (hops₁.trans hp)
    change (s₁.admitWaiting env.total cfg >>= _) = (s₁.admitWaiting env cfg >>= _)
    rw [hadm]
    cases hs₂ : s₁.admitWaiting env cfg with
    | error e => rfl
    | ok s₂ =>
      have hops₂ : StepOps env.total cfg (fun _ _ => True) (rest s₁ inbox) (rest s₂ inbox) :=
        admit_ops hgood₁.placed (hadm.trans hs₂)
      exact decode_total (hgood₁.ops (ops_of_stepOps hops₂))
        fun p hp => hans p (hops₁.trans (hops₂.trans hp))

/-! ## Worlds in which no step raises -/

/-- In the world `env`, started at `w`, no step of an engine that serves what it can serve raises. -/
def Env.NeverRaises (env : Env σ) (cfg : EngineConfig) (m : Manager) (w : σ) : Prop :=
  ∀ (src : Ref → NewRequest) (s : Scheduler σ) (inbox : List Ref),
    Reach env cfg (rest (.init cfg m w) []) (rest s inbox) → Sourced src (rest s inbox) →
    Serving m src s.next → ∃ s', s.step env cfg = .ok s'

/-- What neither the clock nor the forward pass changes about the world. -/
theorem world_const {β : Type} {f : σ → β} (hclock : ∀ w, f (env.perfCounter w).2 = f w)
    (hstep : ∀ w rows b, env.stepTokens w rows = .ok b → f b.2 = f w) {adm : Point σ → Ref → Prop}
    {p' : Point σ} (hgood : Good cfg m p) (hops : Ops env cfg adm p p') :
    f p'.sched.world = f p.sched.world := by
  have hop : ∀ x y, Op env cfg adm x y → Good cfg m x ∧ f x.sched.world = f p.sched.world →
      Good cfg m y ∧ f y.sched.world = f p.sched.world := by
    rintro x y hxy ⟨hx, he⟩
    refine ⟨hx.op hxy, ?_⟩
    rcases op_pass_or_quiet hxy hx with ⟨batch, rows, nxt, hpass⟩ | hq
    · exact (hstep _ _ _ hpass.answer).trans he
    · rcases hq.world with hw | hw <;> rw [hw]
      · exact he
      · exact (hclock _).trans he
  exact (reach_invariant hop hops ⟨hgood, rfl⟩).2

end LlmServe
