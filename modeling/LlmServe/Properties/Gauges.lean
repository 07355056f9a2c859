import LlmServe.Properties.Clock
import LlmServe.Properties.Counters
import LlmServe.Spec.Operator
import LlmServe.Theorems.KvEfficiency

/-!
# The sums behind the averages

`summary` divides sums over the decode steps by their number. Each step adds a fraction of the slots,
of the memory and of the width of the forward pass, so the sums stay below the number of steps
(`Gauged`), also between the lines of `record_step`, which counts the step first.
-/

namespace LlmServe

open Infra Point

variable {σ : Type} {env : Env σ} {cfg : EngineConfig} {adm : Point σ → Ref → Prop} {m : Manager}
  {p p' : Point σ} {s s' : Scheduler σ} {met met' : EngineMetrics}

/-- What the sums over decode steps come to, at most. -/
structure EngineMetrics.Gauged (cfg : EngineConfig) (met : EngineMetrics) : Prop where
  maxSlots : met.maxSlots = cfg.maxBatch
  occupied : met.occupiedSlotSteps ≤ met.steps * cfg.maxBatch
  kvUsed : 0 ≤ met.kvUsedSteps ∧ met.kvUsedSteps ≤ met.steps
  kvEff : 0 ≤ met.kvEffSteps
  padFrac : 0 ≤ met.padFracSteps ∧ met.padFracSteps ≤ met.steps
  peakBatch : met.peakBatch ≤ cfg.maxBatch

namespace EngineMetrics.Gauged

theorem init (cfg : EngineConfig) : Gauged cfg { maxSlots := cfg.maxBatch } := by
  constructor <;> simp

theorem reset (h : met.Gauged cfg) : met.reset.Gauged cfg := by
  rw [EngineMetrics.reset, h.maxSlots]
  exact init cfg

/-- The lines that write to no sum over decode steps. -/
theorem request (h : met.Gauged cfg) (r : RequestMetrics) :
    ((recordRequestLines r).foldl EngineMetrics.write met).Gauged cfg :=
  ⟨h.maxSlots, h.occupied, h.kvUsed, h.kvEff, h.padFrac, h.peakBatch⟩

theorem evict (h : met.Gauged cfg) : (met.write .preemptions).Gauged cfg :=
  ⟨h.maxSlots, h.occupied, h.kvUsed, h.kvEff, h.padFrac, h.peakBatch⟩

theorem prefill (h : met.Gauged cfg) (n : Nat) : (met.write (.prefills n)).Gauged cfg :=
  ⟨h.maxSlots, h.occupied, h.kvUsed, h.kvEff, h.padFrac, h.peakBatch⟩

theorem loose (h : met.Gauged cfg) {line : MetricsLine} {rows : Nat} (hline : line.Loose rows)
    (hrows : rows ≤ cfg.maxBatch) : (met.write line).Gauged cfg := by
  cases line with
  | peakBatch n =>
    exact ⟨h.maxSlots, h.occupied, h.kvUsed, h.kvEff, h.padFrac,
      max_le h.peakBatch (hline.trans hrows)⟩
  | prefillSeconds | decodeSeconds | rejected =>
    exact ⟨h.maxSlots, h.occupied, h.kvUsed, h.kvEff, h.padFrac, h.peakBatch⟩
  | _ => exact hline.elim

/-- One decode step more. -/
theorem record (h : met.Gauged cfg) {n queueDepth : Nat} {kvUsed kvEff padFrac : Rat}
    (hn : n ≤ cfg.maxBatch) (hused : 0 ≤ kvUsed ∧ kvUsed ≤ 1) (heff : 0 ≤ kvEff)
    (hpad : 0 ≤ padFrac ∧ padFrac ≤ 1) :
    (met.recordStep n queueDepth kvUsed kvEff padFrac).Gauged cfg := by
  obtain ⟨hu0, hu1⟩ := hused
  obtain ⟨hp0, hp1⟩ := hpad
  obtain ⟨hk0, hk1⟩ := h.kvUsed
  obtain ⟨hq0, hq1⟩ := h.padFrac
  refine ⟨h.maxSlots, ?_, ⟨add_nonneg hk0 hu0, ?_⟩, add_nonneg h.kvEff heff, ⟨add_nonneg hq0 hp0, ?_⟩,
    h.peakBatch⟩
  · have hocc := h.occupied
    simp only [recordStep, Nat.add_mul]
    omega
  · simp only [recordStep]
    push_cast
    linarith
  · simp only [recordStep]
    push_cast
    linarith

end EngineMetrics.Gauged

/-! ## What a decode step records -/

theorem Good.free_le (hgood : Good cfg m p) :
    p.sched.manager.freeUnits.length ≤ p.sched.manager.units := by
  have hsum := hgood.owned.length_sum
  have hnonneg : 0 ≤ (p.held.map fun r => ((p.sched.heap r).blockTable.length : Int)).sum :=
    List.sum_nonneg fun x hx => by
      obtain ⟨r, -, rfl⟩ := List.mem_map.mp hx
      exact Int.natCast_nonneg _
  omega

theorem Good.used_nonneg (hgood : Good cfg m p) : 0 ≤ p.stats.used := by
  have hle := hgood.free_le
  unfold Point.stats
  rw [stats_used]
  omega

theorem Good.utilisation_mem (hgood : Good cfg m p) :
    0 ≤ p.stats.utilisation ∧ p.stats.utilisation ≤ 1 := by
  have h0 : (0 : Rat) ≤ p.stats.used := by exact_mod_cast hgood.used_nonneg
  have h1 : (p.stats.used : Rat) ≤ p.stats.total := by exact_mod_cast p.used_le
  unfold Stats.utilisation
  exact ⟨div_nonneg h0 (h0.trans h1), div_le_one_of_le₀ h1 (h0.trans h1)⟩

theorem Good.capacityTokens_nonneg (hgood : Good cfg m p) : 0 ≤ p.stats.capacityTokens := by
  have hused := hgood.used_nonneg
  unfold Point.stats at hused ⊢
  rw [stats_capacityTokens]
  split
  · exact mul_nonneg hused (Int.natCast_nonneg _)
  · positivity

theorem Good.efficiency_nonneg (hgood : Good cfg m p) : 0 ≤ p.stats.efficiency := by
  have hlive : (0 : Rat) ≤ p.stats.liveTokens := by exact_mod_cast stats_liveTokens_nonneg ..
  have hcap : (0 : Rat) ≤ p.stats.capacityTokens := by exact_mod_cast hgood.capacityTokens_nonneg
  unfold Stats.efficiency
  split
  · exact div_nonneg hlive hcap
  · exact le_rfl

/-- Until a decode step is counted, `last_pad_frac` is that of a forward pass. -/
def Point.Padded (env : Env σ) (p : Point σ) : Prop :=
  p.owed ≠ [] → 0 ≤ env.lastPadFrac p.sched.world ∧ env.lastPadFrac p.sched.world ≤ 1

theorem padded_stepOp (henv : env.Steady) (hop : StepOp env cfg adm p p') (h : p.Padded env) :
    p'.Padded env := by
  have hsame : ∀ {q : Point σ}, q.owed = p.owed → q.sched.world = p.sched.world → q.Padded env :=
    fun howed hworld hne => hworld ▸ h (howed ▸ hne)
  have hclock : ∀ {q : Point σ}, q.owed = p.owed →
      q.sched.world = (env.perfCounter p.sched.world).2 → q.Padded env :=
    fun howed hworld hne => by
      rw [hworld, henv.padFrac_clock]
      exact h (howed ▸ hne)
  cases hop with
  | markCancelled r hidle hr =>
    by_cases hc : (p.sched.heap r).cancelled && !(p.sched.heap r).finished
    · exact hclock rfl (by simp only [Scheduler.markCancelled, if_pos hc]; rfl)
    · exact hsame rfl (by simp only [Scheduler.markCancelled, if_neg hc])
  | leave s' pre post r hidle hr hfin hl =>
    have hworld := Scheduler.leave_world hl
    exact hsame rfl hworld
  | admitHead s' r tail hbatch hdue hw hsorted hroom hcan hadm ha =>
    have hworld := Scheduler.allocate_world ha
    exact hsame rfl hworld
  | prefill s' batch rest nxt hbatch hdue hp hf =>
    obtain ⟨w, hw, rfl⟩ := Scheduler.stepTokens_ok hf
    exact fun _ => henv.padFrac _ _ _ hw
  | emit r tok due hdue => exact hclock rfl (Scheduler.emit_world ..)
  | preempt s' r hidle hr hfin hpre hp => exact hsame rfl (Scheduler.preempt_world hp)
  | decode s' batch rows nxt hidle hnd hrun hfin hcov hrows hf =>
    obtain ⟨w, hw, rfl⟩ := Scheduler.stepTokens_ok hf
    exact fun _ => henv.padFrac _ _ _ hw
  | clock => exact hclock rfl rfl
  | count met owed hcount =>
    cases hcount with
    | line line hline => exact hsame rfl rfl
    | prefills n owed howed => exact fun _ => h (by simp [howed])
    | recordStep n owed met howed hn hrec =>
      exact fun _ => h (by simp [howed])
  | _ => exact hsame rfl rfl

/-- **Every small step keeps the sums in bounds.** -/
theorem gauged_stepOp (hgood : Good cfg m p) (hfit : p.RowsFit cfg) (hpad : p.Padded env)
    (hop : StepOp env cfg adm p p') (h : p.sched.metrics.Gauged cfg) :
    p'.sched.metrics.Gauged cfg := by
  cases stepOp_writes hop with
  | same hmet => rwa [hmet]
  | request r hmet => exact hmet ▸ h.request r
  | preempt hmet => exact hmet ▸ h.evict
  | count owed hcount =>
    generalize p'.sched.metrics = met at hcount
    cases hcount with
    | line line hline =>
      have hrunning : p.sched.running.length ≤ p.held.length := by
        rw [held, List.length_append]
        exact Nat.le_add_left ..
      exact h.loose hline (hrunning.trans hgood.placed.room)
    | prefills n owed howed => exact h.prefill n
    | recordStep n owed met howed hn hrec =>
      obtain rfl : met = _ := Scheduler.recordStep_ok hrec
      exact h.record (hfit n (howed ▸ List.mem_cons_self)) hgood.utilisation_mem
        hgood.efficiency_nonneg (hpad (by simp [howed]))

/-! ## Between the lines -/

/-- What the sums are after each of the lines that are still to write. -/
def EngineMetrics.GaugedAlong (cfg : EngineConfig) (met : EngineMetrics)
    (lines : List MetricsLine) : Prop :=
  ∀ k, ((lines.take k).foldl write met).Gauged cfg

/-- The step is counted, and each sum has its summand or not. -/
theorem EngineMetrics.Gauged.between {x : EngineMetrics} (h : met.Gauged cfg) (h' : met'.Gauged cfg)
    (hmaxSlots : x.maxSlots = met'.maxSlots) (hsteps : x.steps = met'.steps)
    (hmore : met.steps ≤ met'.steps) (hoccupied : x.occupiedSlotSteps ≤ met'.occupiedSlotSteps)
    (hused : x.kvUsedSteps = met.kvUsedSteps ∨ x.kvUsedSteps = met'.kvUsedSteps)
    (heff : x.kvEffSteps = met.kvEffSteps ∨ x.kvEffSteps = met'.kvEffSteps)
    (hpad : x.padFracSteps = met.padFracSteps ∨ x.padFracSteps = met'.padFracSteps)
    (hpeak : x.peakBatch = met'.peakBatch) : x.Gauged cfg := by
  have hmore : (met.steps : Rat) ≤ met'.steps := by exact_mod_cast hmore
  refine ⟨hmaxSlots.trans h'.maxSlots, ?_, ?_, ?_, ?_, hpeak.trans_le h'.peakBatch⟩
  · rw [hsteps]
    exact hoccupied.trans h'.occupied
  · rw [hsteps]
    rcases hused with hu | hu <;> rw [hu]
    · exact ⟨h.kvUsed.1, h.kvUsed.2.trans hmore⟩
    · exact h'.kvUsed
  · rcases heff with he | he <;> rw [he]
    · exact h.kvEff
    · exact h'.kvEff
  · rw [hsteps]
    rcases hpad with hp | hp <;> rw [hp]
    · exact ⟨h.padFrac.1, h.padFrac.2.trans hmore⟩
    · exact h'.padFrac

theorem Statement.gaugedAlong (st : Statement) (h : met.Gauged cfg)
    (h' : (st.lines.foldl EngineMetrics.write met).Gauged cfg) : met.GaugedAlong cfg st.lines := by
  intro k
  cases st with
  | none => rwa [Statement.lines, List.take_nil]
  | line l =>
    cases k with
    | zero => exact h
    | succ k => simpa [Statement.lines] using h'
  | recordRequest r =>
    match k with
    | 0 => exact h
    | 1 => exact ⟨h.maxSlots, h.occupied, h.kvUsed, h.kvEff, h.padFrac, h.peakBatch⟩
    | k + 2 => simpa [Statement.lines, recordRequestLines] using h'
  | recordStep n queueDepth kvUsed kvEff padFrac =>
    match k with
    | 0 => exact h
    | 1 =>
      exact h.between h' rfl rfl (Nat.le_succ _) (Nat.le_add_right ..) (.inl rfl) (.inl rfl) (.inl rfl)
        rfl
    | 2 | 3 =>
      exact h.between h' rfl rfl (Nat.le_succ _) le_rfl (.inl rfl) (.inl rfl) (.inl rfl) rfl
    | 4 => exact h.between h' rfl rfl (Nat.le_succ _) le_rfl (.inr rfl) (.inl rfl) (.inl rfl) rfl
    | 5 => exact h.between h' rfl rfl (Nat.le_succ _) le_rfl (.inr rfl) (.inr rfl) (.inl rfl) rfl
    | k + 6 => simpa [Statement.lines, recordStepLines] using h'

theorem EngineMetrics.Gauged.along (h : met.Gauged cfg) : met.GaugedAlong cfg [] := fun k => by
  rwa [List.take_nil]

theorem EngineMetrics.GaugedAlong.tail {line : MetricsLine} {lines : List MetricsLine}
    (h : met.GaugedAlong cfg (line :: lines)) : (met.write line).GaugedAlong cfg lines :=
  fun k => h (k + 1)

theorem EngineMetrics.GaugedAlong.reject {lines : List MetricsLine}
    (h : met.GaugedAlong cfg lines) : (met.write .rejected).GaugedAlong cfg lines := fun k => by
  rw [foldl_write_rejected]
  exact (h k).loose trivial le_rfl

end LlmServe
