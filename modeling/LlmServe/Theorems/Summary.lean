import LlmServe.Properties.Gauges
import LlmServe.Properties.Latencies
import LlmServe.Properties.Recompute
import LlmServe.Theorems.Counters

/-!
# What `/stats` and `/metrics` report

With a clock that does not go back, `summary` does not raise and its latencies are in order, whatever
the other threads write between its lines (`Steadfast`). Its averages are what their names say if
nobody writes while it reads and no `reset` was torn apart (`Measured`).
-/

namespace LlmServe

open Infra Point

variable {σ : Type} {env : Env σ} {cfg : EngineConfig} {m : Manager} {w : σ}
  {encode : Text → List Token} {calls : ResetCalls} {v v' : Operated σ}

/-! ## Records -/

def MetricsLine.record : MetricsLine → Option RequestMetrics
  | .requests r => some r
  | _ => none

theorem foldl_write_requests (lines : List MetricsLine) (met : EngineMetrics) :
    (lines.foldl EngineMetrics.write met).requests =
      met.requests ++ lines.filterMap MetricsLine.record := by
  induction lines generalizing met with
  | nil => simp
  | cons line lines ih =>
    rw [List.foldl_cons, ih]
    cases line <;> simp [EngineMetrics.write, MetricsLine.record, List.filterMap_cons]

/-- Fewer records now are fewer records when what is left is written. -/
theorem foldl_write_subset (lines : List MetricsLine) {met met' : EngineMetrics}
    (h : met'.requests ⊆ met.requests) :
    (lines.foldl EngineMetrics.write met').requests ⊆
      (lines.foldl EngineMetrics.write met).requests := by
  rw [foldl_write_requests, foldl_write_requests]
  exact List.append_subset.mpr ⟨List.subset_append_of_subset_left _ h, List.subset_append_right ..⟩

/-- `reset` forgets records, and makes none. -/
theorem clear_requests (keep : Nat) (met : EngineMetrics) (field : MetricsField) :
    (met.clear keep field).requests ⊆ met.requests := by
  cases field <;> simp [EngineMetrics.clear]

theorem Timely.withMetrics {s : Scheduler σ} (h : Timely env s) {met : EngineMetrics}
    (hmet : met.requests ⊆ s.metrics.requests) : Timely env { s with metrics := met } :=
  ⟨h.requests, fun rec hrec => h.records rec (hmet hrec)⟩

/-- What is recorded so far is recorded when the engine thread has written what is left. -/
theorem Timely.now (h : Timely env v.settled.sched) : ∀ rec ∈ v.metrics.requests, rec.Ordered := by
  intro rec hrec
  refine h.records rec ?_
  show rec ∈ (v.lines.foldl EngineMetrics.write v.metrics).requests
  rw [foldl_write_requests]
  exact List.mem_append_left _ hrec

theorem generate_timely (h : Timely env v.settled.sched) (body : GenerateIn) (rid : String)
    {now : Time} (hnow : now ≤ env.now v.loop.sched.world) :
    Timely env ({ v with loop := (v.loop.generate encode cfg body rid now).2 } :
      Operated σ).settled.sched := by
  rcases generate_posts encode cfg v.loop body rid now with
    he | he | ⟨n, hn, he⟩
  · rw [he]
    exact h
  · rw [he]
    unfold Operated.settled at h ⊢
    dsimp only at h ⊢
    rw [foldl_write_rejected]
    exact h.withMetrics (List.Subset.refl _)
  · rw [he]
    exact h.create ⟨hn.trans_le hnow, nofun, nofun⟩

theorem advance_timely (h : Timely env v.settled.sched) {l : EngineLoop σ}
    (hpc : v.loop.pc = .work → v.loop.sched.hasWork = false)
    (hadv : v.loop.advance env cfg = .ok l) :
    Timely env ({ v with loop := l } : Operated σ).settled.sched := by
  unfold Operated.settled at h ⊢
  dsimp only at h ⊢
  rcases advance_outside hadv hpc with ⟨hsched, -⟩ | ⟨r, hsched, -⟩
  · rwa [hsched]
  · rw [hsched]
    exact h.quiet rfl le_rfl rfl (times_update rfl rfl rfl rfl rfl)

/-- **Every line of every thread keeps the times in order.** -/
theorem operation_timely (henv : env.Steady) (hvalid : v.Valid cfg m)
    (hop : Operation encode env cfg calls v v') (h : Timely env v.settled.sched) :
    Timely env v'.settled.sched := by
  cases hop with
  | generate body rid now hnow => exact generate_timely h body rid hnow
  | cancel r hr => exact h.quiet rfl le_rfl rfl (times_update rfl rfl rfl rfl rfl)
  | advance l hout hpc hadv => exact advance_timely h hpc hadv
  | small p st hin hlines hstep hmet =>
    rw [settled_small (stepOp_frame hstep).inbox hmet]
    rw [settled_eq hlines] at h
    exact timely_stepOp henv hvalid.point hstep h
  | line line lines hlines =>
    unfold Operated.settled at h ⊢
    rwa [hlines] at h
  | reset hcalls hlines => exact h.withMetrics (foldl_write_subset _ (List.nil_subset _))
  | resetLine pre post keep field fields hcalls hresets =>
    exact h.withMetrics (foldl_write_subset _ (clear_requests ..))
  | _ => exact h

/-! ## Whatever falls between the lines -/

/-- What every line leaves as it finds it. -/
structure Operated.Steadfast (env : Env σ) (cfg : EngineConfig) (m : Manager) (v : Operated σ) :
    Prop where
  valid : v.Valid cfg m
  timely : Timely env v.settled.sched
  maxSlots : v.metrics.maxSlots = cfg.maxBatch
  keeps : ∀ call ∈ v.resets, call.1 = cfg.maxBatch
  retiring : ∀ l, v.retiring = some l → l.length ≤ cfg.maxBatch

theorem Operated.Steadfast.init (hm : m.Fresh) (t₀ : Time) :
    (Operated.init cfg m w t₀).Steadfast env cfg m where
  valid := .init hm t₀
  timely := ⟨fun r hr => absurd hr (Nat.not_lt_zero r), nofun⟩
  maxSlots := rfl
  keeps := nofun
  retiring := nofun

theorem write_maxSlots (met : EngineMetrics) (line : MetricsLine) :
    (met.write line).maxSlots = met.maxSlots := by
  cases line <;> rfl

theorem clear_maxSlots {keep : Nat} {met : EngineMetrics} (h : met.maxSlots = keep)
    (field : MetricsField) : (met.clear keep field).maxSlots = keep := by
  cases field <;> simp [EngineMetrics.clear, h]

theorem generate_maxSlots (l : EngineLoop σ) (body : GenerateIn) (rid : String) (now : Time) :
    (l.generate encode cfg body rid now).2.sched.metrics.maxSlots = l.sched.metrics.maxSlots := by
  rcases generate_posts encode cfg l body rid now with he | he | ⟨n, -, he⟩ <;>
    rw [he]
  · exact write_maxSlots ..
  · rfl

/-- At most `max_batch` requests are running. -/
theorem Good.running_le {p : Point σ} (h : Good cfg m p) : p.sched.running.length ≤ cfg.maxBatch := by
  have hroom := h.placed.room
  rw [held, List.length_append] at hroom
  omega

theorem operation_steadfast (henv : env.Steady) (hop : Operation encode env cfg calls v v')
    (h : v.Steadfast env cfg m) : v'.Steadfast env cfg m := by
  suffices hrest : v'.metrics.maxSlots = cfg.maxBatch ∧
      (∀ call ∈ v'.resets, call.1 = cfg.maxBatch) ∧
      ∀ l, v'.retiring = some l → l.length ≤ cfg.maxBatch from
    ⟨operation_valid hop h.valid, operation_timely henv h.valid hop h.timely, hrest.1, hrest.2.1,
      hrest.2.2⟩
  have hreset : ∀ fields, ∀ call ∈ v.resets ++ [(v.metrics.maxSlots, fields)],
      call.1 = cfg.maxBatch := by
    intro fields call hcall
    rcases List.mem_append.mp hcall with hcall | hcall
    · exact h.keeps call hcall
    · rw [List.mem_singleton.mp hcall]
      exact h.maxSlots
  cases hop with
  | generate body rid now hnow =>
    exact ⟨(generate_maxSlots ..).trans h.maxSlots, h.keeps, h.retiring⟩
  | advance l hout hpc hadv =>
    refine ⟨?_, h.keeps, h.retiring⟩
    have hmet : l.sched.metrics = v.metrics := by
      rcases advance_outside hadv hpc with ⟨hsched, -⟩ | ⟨r, hsched, -⟩ <;> rw [hsched] <;> rfl
    exact (congrArg EngineMetrics.maxSlots hmet).trans h.maxSlots
  | line line lines hlines => exact ⟨(write_maxSlots ..).trans h.maxSlots, h.keeps, h.retiring⟩
  | retire hin =>
    refine ⟨h.maxSlots, h.keeps, fun l hl => ?_⟩
    obtain rfl : v.loop.sched.running = l := by injection hl
    exact h.valid.point.running_le
  | retired hin => exact ⟨h.maxSlots, h.keeps, nofun⟩
  | reset hcalls hlines => exact ⟨h.maxSlots, hreset [], h.retiring⟩
  | resetCalled hcalls => exact ⟨h.maxSlots, hreset _, h.retiring⟩
  | resetLine pre post keep field fields hcalls hresets =>
    obtain rfl : keep = cfg.maxBatch := h.keeps _ (hresets ▸ List.mem_append_right _ List.mem_cons_self)
    refine ⟨clear_maxSlots h.maxSlots field, fun call hcall => ?_, h.retiring⟩
    rcases List.mem_append.mp hcall with hcall | hcall
    · exact h.keeps call (hresets ▸ List.mem_append_left _ hcall)
    · rcases List.mem_cons.mp hcall with rfl | hcall
      · rfl
      · exact h.keeps call (hresets ▸ List.mem_append_right _ (List.mem_cons_of_mem _ hcall))
  | resetReturns pre post keep now hresets =>
    refine ⟨h.maxSlots, fun call hcall => h.keeps call (hresets ▸ ?_), h.retiring⟩
    rcases List.mem_append.mp hcall with hcall | hcall
    · exact List.mem_append_left _ hcall
    · exact List.mem_append_right _ (List.mem_cons_of_mem _ hcall)
  | _ => exact ⟨h.maxSlots, h.keeps, h.retiring⟩

theorem operations_steadfast (henv : env.Steady) (hops : Operations encode env cfg calls v v')
    (h : v.Steadfast env cfg m) : v'.Steadfast env cfg m := by
  have hstep : ∀ x y, Operation encode env cfg calls x y →
      x.Steadfast env cfg m → y.Steadfast env cfg m := fun _ _ => operation_steadfast henv
  exact reach_invariant hstep hops h

/-! ## Where no `reset` is torn -/

/-- What is summed up, and what is on its way into the sums. -/
structure Operated.Measured (env : Env σ) (cfg : EngineConfig) (v : Operated σ) : Prop where
  gauged : v.metrics.GaugedAlong cfg v.lines
  fit : v.point.RowsFit cfg
  padded : v.point.Padded env

theorem Operated.Measured.init (env : Env σ) (t₀ : Time) :
    (Operated.init cfg m w t₀).Measured env cfg where
  gauged := (EngineMetrics.Gauged.init cfg).along
  fit := nofun
  padded hne := absurd rfl hne

theorem generate_measured (h : v.Measured env cfg) (body : GenerateIn) (rid : String) (now : Time) :
    ({ v with loop := (v.loop.generate encode cfg body rid now).2 } : Operated σ).Measured
      env cfg := by
  rcases generate_posts encode cfg v.loop body rid now with
    he | he | ⟨n, hn, he⟩
  · rw [he]
    exact h
  · rw [he]
    exact ⟨h.gauged.reject, h.fit, h.padded⟩
  · rw [he]
    exact ⟨h.gauged, h.fit, h.padded⟩

theorem operation_measured (henv : env.Steady) (hop : Operation encode env cfg .whole v v')
    (hvalid : v.Valid cfg m) (h : v.Measured env cfg) : v'.Measured env cfg := by
  cases hop with
  | generate body rid now hnow => exact generate_measured h body rid now
  | advance l hout hpc hadv =>
    have hsame : l.sched.metrics = v.metrics ∧ l.sched.world = v.loop.sched.world := by
      rcases advance_outside hadv hpc with ⟨hsched, -⟩ | ⟨r, hsched, -⟩ <;> rw [hsched] <;>
        exact ⟨rfl, rfl⟩
    refine ⟨?_, h.fit, fun hne => ?_⟩
    · show l.sched.metrics.GaugedAlong cfg v.lines
      rw [hsame.1]
      exact h.gauged
    · show 0 ≤ env.lastPadFrac l.sched.world ∧ env.lastPadFrac l.sched.world ≤ 1
      rw [hsame.2]
      exact h.padded hne
  | small p st hin hlines hstep hmet =>
    have hbefore : v.metrics.Gauged cfg := h.gauged 0
    have hafter : p.sched.metrics.Gauged cfg :=
      gauged_stepOp hvalid.point h.fit h.padded hstep hbefore
    have hfit : p.RowsFit cfg := rowsFit_op hvalid.point (.step hstep) h.fit
    have hpadded : p.Padded env := padded_stepOp henv hstep h.padded
    exact ⟨st.gaugedAlong hbefore (hmet ▸ hafter), hfit, hpadded⟩
  | line line lines hlines =>
    have hgauged := h.gauged
    rw [hlines] at hgauged
    exact ⟨hgauged.tail, h.fit, h.padded⟩
  | reset hcalls hlines =>
    have hafter : v.metrics.reset.GaugedAlong cfg v.lines := by
      rw [hlines]
      exact (EngineMetrics.Gauged.reset (h.gauged 0)).along
    exact ⟨hafter, h.fit, h.padded⟩
  | resetCalled hcalls => cases hcalls
  | resetLine pre post keep field fields hcalls hresets => cases hcalls
  | _ => exact ⟨h.gauged, h.fit, h.padded⟩

theorem operations_measured (henv : env.Steady) (hops : Operations encode env cfg .whole v v')
    (hvalid : v.Valid cfg m) (h : v.Measured env cfg) : v'.Measured env cfg := by
  have hstep : ∀ x y, Operation encode env cfg .whole x y → x.Valid cfg m ∧ x.Measured env cfg →
      y.Valid cfg m ∧ y.Measured env cfg := fun _ _ hop hx =>
    ⟨operation_valid hop hx.1, operation_measured henv hop hx.1 hx.2⟩
  exact (reach_invariant hstep hops ⟨hvalid, h⟩).2

/-! ## What is reported -/

/-- Both percentiles are missing, or neither, and then they are in order and not negative. -/
def Quantiles {α : Type} [LE α] [Zero α] (p50 p99 : Option α) : Prop :=
  p50 = none ∧ p99 = none ∨ ∃ x y, p50 = some x ∧ p99 = some y ∧ 0 ≤ x ∧ x ≤ y

/-- The latencies of a summary are in order. -/
structure Summary.Ordered (sum : Summary) : Prop where
  ttft : Quantiles sum.ttftP50S sum.ttftP99S
  tpot : Quantiles sum.tpotP50S sum.tpotP99S
  e2e : Quantiles sum.e2eP50S (sum.e2eP99S.map Int.cast)

/-- The numbers of a summary are what their names say. -/
structure Summary.Sane (cfg : EngineConfig) (sum : Summary) : Prop where
  peakBatch : sum.peakBatch ≤ cfg.maxBatch
  throughput : 0 ≤ sum.throughputTokPerS
  slotUtilisation : 0 ≤ sum.slotUtilisation ∧ sum.slotUtilisation ≤ 1
  kvUtilisation : 0 ≤ sum.kvUtilisation ∧ sum.kvUtilisation ≤ 1
  kvTokenEfficiency : 0 ≤ sum.kvTokenEfficiency
  attnPaddingWaste : 0 ≤ sum.attnPaddingWaste ∧ sum.attnPaddingWaste ≤ 1
  noLatencies : sum.requests = 0 →
    sum.ttftP50S = none ∧ sum.ttftP99S = none ∧ sum.e2eP50S = none ∧ sum.e2eP99S = none
  latencies : sum.requests ≠ 0 → ∃ ttft50 ttft99 e2e50 e2e99,
    sum.ttftP50S = some ttft50 ∧ sum.ttftP99S = some ttft99 ∧
    sum.e2eP50S = some e2e50 ∧ sum.e2eP99S = some e2e99 ∧
    0 ≤ ttft50 ∧ ttft50 ≤ ttft99 ∧ ttft99 ≤ e2e99 ∧ 0 ≤ e2e50 ∧ e2e50 ≤ e2e99 ∧
    (sum.requests % 4 ≠ 0 → ttft50 ≤ e2e50)
  tpot : Quantiles sum.tpotP50S sum.tpotP99S

/-- The numbers of a scrape are. -/
structure Gauges.Sane (cfg : EngineConfig) (g : Gauges) : Prop where
  runningRequests : g.runningRequests ≤ cfg.maxBatch
  kvUnits : 0 ≤ g.kvUnitsUsed ∧ g.kvUnitsUsed ≤ g.kvUnitsTotal
  kvTokenEfficiency : 0 ≤ g.kvTokenEfficiency

theorem tpot_percentiles {recs : List RequestMetrics} (hrecs : ∀ rec ∈ recs, rec.Ordered) :
    ∃ p50 p99, percentile (recs.filterMap RequestMetrics.tpot) 50 = .ok p50 ∧
      percentile (recs.filterMap RequestMetrics.tpot) 99 = .ok p99 ∧ Quantiles p50 p99 := by
  by_cases hne : recs.filterMap RequestMetrics.tpot = []
  · exact ⟨none, none, by rw [hne]; rfl, by rw [hne]; rfl, Or.inl ⟨rfl, rfl⟩⟩
  · obtain ⟨x, y, hx, hy, hmem, hle⟩ := percentiles_le hne
    obtain ⟨rec, hrec, htpot⟩ := List.mem_filterMap.mp hmem
    exact ⟨some x, some y, hx, hy, Or.inr ⟨x, y, rfl, rfl, (hrecs rec hrec).tpot x htpot, hle⟩⟩

theorem ttft_percentiles {recs : List RequestMetrics} (hrecs : ∀ rec ∈ recs, rec.Ordered) :
    ∃ p50 p99, percentile (recs.map RequestMetrics.ttft) 50 = .ok p50 ∧
      percentile (recs.map RequestMetrics.ttft) 99 = .ok p99 ∧ Quantiles p50 p99 := by
  by_cases hne : recs = []
  · rw [hne]
    exact ⟨none, none, rfl, rfl, Or.inl ⟨rfl, rfl⟩⟩
  · obtain ⟨t50, t99, e50, e99, hlat⟩ := latencies_of_ordered hne hrecs
    exact ⟨_, _, hlat.ttftP50S, hlat.ttftP99S, Or.inr ⟨_, _, rfl, rfl, hlat.nonneg.1, hlat.ttft_le⟩⟩

theorem e2e_percentiles {recs : List RequestMetrics} (hrecs : ∀ rec ∈ recs, rec.Ordered) :
    recs.map RequestMetrics.e2e = [] ∨
      recs.map RequestMetrics.e2e ≠ [] ∧ ∃ x y,
        median ((recs.map RequestMetrics.e2e).map Int.cast) = .ok x ∧
        percentile (recs.map RequestMetrics.e2e) 99 = .ok (some y) ∧ 0 ≤ x ∧ x ≤ y := by
  by_cases hne : recs = []
  · exact Or.inl (by rw [hne]; rfl)
  · obtain ⟨t50, t99, e50, e99, hlat⟩ := latencies_of_ordered hne hrecs
    have he2es : recs.map RequestMetrics.e2e ≠ [] := by simpa using hne
    exact Or.inr ⟨he2es, e50, e99, hlat.e2eP50S, hlat.e2eP99S, hlat.nonneg.2, hlat.e2e_le⟩

/-- `summary` answers, whatever is written between its lines. -/
theorem summaryAt_ordered {met : SummaryLine → EngineMetrics}
    (hrecs : ∀ line, ∀ rec ∈ (met line).requests, rec.Ordered)
    (hslots : (met .slotUtilisation).maxSlots ≠ 0) (wallSeconds : Time) :
    ∃ sum, EngineMetrics.summaryAt met wallSeconds = .ok sum ∧ sum.Ordered := by
  obtain ⟨ttft50, ttft99, httft50, httft99, httft⟩ := ttft_percentiles (hrecs .ttfts)
  obtain ⟨tpot50, tpot99, htpot50, htpot99, htpot⟩ := tpot_percentiles (hrecs .tpots)
  have hdiv : max (met .s).steps 1 * (met .slotUtilisation).maxSlots ≠ 0 :=
    Nat.mul_ne_zero (by omega) hslots
  unfold EngineMetrics.summaryAt
  dsimp only
  rw [if_neg hdiv, httft50, httft99, htpot50, htpot99]
  rcases e2e_percentiles (hrecs .e2es) with hnil | ⟨hne, x, y, hx, hy, h0, hle⟩
  · rw [hnil]
    exact ⟨_, rfl, httft, htpot, Or.inl ⟨rfl, rfl⟩⟩
  · simp only [if_neg hne, hx, hy]
    exact ⟨_, rfl, httft, htpot, Or.inr ⟨x, y, rfl, rfl, h0, hle⟩⟩

/-- A sum of fractions, one for each step, over the number of steps. -/
theorem mean_mem {x : Rat} {n : Nat} (h0 : 0 ≤ x) (hle : x ≤ n) :
    0 ≤ x / (max n 1 : Nat) ∧ x / (max n 1 : Nat) ≤ 1 := by
  have hmax : (n : Rat) ≤ (max n 1 : Nat) := by exact_mod_cast le_max_left n 1
  exact ⟨div_nonneg h0 (Nat.cast_nonneg _), div_le_one_of_le₀ (hle.trans hmax) (Nat.cast_nonneg _)⟩

theorem slots_mem {occupied steps slots : Nat} (h : occupied ≤ steps * slots) :
    0 ≤ (occupied : Rat) / ((max steps 1 : Nat) * slots) ∧
      (occupied : Rat) / ((max steps 1 : Nat) * slots) ≤ 1 := by
  have hle : occupied ≤ max steps 1 * slots := h.trans (Nat.mul_le_mul_right _ (le_max_left ..))
  have hle : (occupied : Rat) ≤ (max steps 1 : Nat) * slots := by exact_mod_cast hle
  exact ⟨by positivity, div_le_one_of_le₀ hle (by positivity)⟩

theorem summary_sane {met : EngineMetrics} (hgauged : met.Gauged cfg)
    (hrecs : ∀ rec ∈ met.requests, rec.Ordered) (hbatch : 1 ≤ cfg.maxBatch) {wallSeconds : Time}
    (hwall : 0 ≤ wallSeconds) : ∃ sum, met.summary wallSeconds = .ok sum ∧ sum.Sane cfg := by
  have hslots : max met.steps 1 * met.maxSlots ≠ 0 := by
    rw [hgauged.maxSlots]
    exact Nat.mul_ne_zero (by omega) (by omega)
  obtain ⟨tpot50, tpot99, htpot50, htpot99, htpot⟩ := tpot_percentiles hrecs
  have hthroughput : 0 ≤ if wallSeconds ≠ 0 then (met.tokensOut : Rat) / wallSeconds else 0 := by
    have hwall : (0 : Rat) ≤ wallSeconds := by exact_mod_cast hwall
    split <;> positivity
  have hslot := slots_mem (hgauged.maxSlots ▸ hgauged.occupied)
  have hkv := mean_mem hgauged.kvUsed.1 hgauged.kvUsed.2
  have hpad := mean_mem hgauged.padFrac.1 hgauged.padFrac.2
  have heff : 0 ≤ met.kvEffSteps / (max met.steps 1 : Nat) :=
    div_nonneg hgauged.kvEff (Nat.cast_nonneg _)
  unfold EngineMetrics.summary EngineMetrics.summaryAt
  dsimp only
  rw [if_neg hslots, htpot50, htpot99]
  by_cases hne : met.requests = []
  · rw [hne]
    exact ⟨_, rfl, {
      peakBatch := hgauged.peakBatch
      throughput := hthroughput
      slotUtilisation := hslot
      kvUtilisation := hkv
      kvTokenEfficiency := heff
      attnPaddingWaste := hpad
      noLatencies := fun _ => ⟨rfl, rfl, rfl, rfl⟩
      latencies := fun hne => absurd rfl hne
      tpot := htpot }⟩
  · obtain ⟨t50, t99, e50, e99, hlat⟩ := latencies_of_ordered hne hrecs
    have he2es : met.requests.map RequestMetrics.e2e ≠ [] := by simpa using hne
    simp only [if_neg he2es, hlat.ttftP50S, hlat.ttftP99S, hlat.e2eP50S, hlat.e2eP99S]
    exact ⟨_, rfl, {
      peakBatch := hgauged.peakBatch
      throughput := hthroughput
      slotUtilisation := hslot
      kvUtilisation := hkv
      kvTokenEfficiency := heff
      attnPaddingWaste := hpad
      noLatencies := fun hnil => absurd (List.length_eq_zero_iff.mp hnil) hne
      latencies := fun _ => ⟨t50, t99, e50, e99, rfl, rfl, rfl, rfl, hlat.nonneg.1, hlat.ttft_le,
        hlat.le99, hlat.nonneg.2, hlat.e2e_le, hlat.le50⟩
      tpot := htpot }⟩

/-! ## The theorem -/

theorem collectAt_sane {v : CollectLine → Operated σ} (h : ∀ line, (v line).Steadfast env cfg m) :
    (ApiState.collectAt cfg fun line => (v line).api).Sane cfg where
  runningRequests := by
    show ((v .running).retiring.getD (v .running).loop.sched.running).length ≤ cfg.maxBatch
    cases hretiring : (v .running).retiring with
    | none => exact (h .running).valid.point.running_le
    | some l => exact (h .running).retiring l hretiring
  kvUnits := ⟨(h .used).valid.point.used_nonneg, (v .used).point.used_le⟩
  kvTokenEfficiency := by
    have hlive : (0 : Rat) ≤ (v .liveTokens).api.kv.liveTokens := by
      exact_mod_cast stats_liveTokens_nonneg ..
    have hcap : (0 : Rat) ≤ (v .capacityTokens).api.kv.capacityTokens := by
      exact_mod_cast (h .capacityTokens).valid.point.capacityTokens_nonneg
    show 0 ≤ ite _ _ _
    split
    · exact div_nonneg hlive hcap
    · exact le_rfl

variable {Hidden K V κ : Type} {M : Transformer Hidden K V} {clock : κ → Time × κ}
  {rs : RunnerState κ K V} {t₀ : Time}

/--
**What the operator sees makes sense.** Whatever the other threads do, resets included, between the
lines of a call: `/stats` answers, and of each latency both percentiles are none or `0 ≤ p50 ≤ p99`;
a scrape of `/metrics` shows no more than `max_batch` requests and no more units than there are.

If nobody writes to the metrics while `/stats` reads them or while a `reset` runs, and no `reset`
falls into a statement of the engine thread, then the utilisations are fractions too, the latencies
are none exactly as long as no request has been reported since the last reset, and otherwise TTFT is
at most E2E at the 99th percentile, and at the 50th unless the number of requests is a multiple of
four.
-/
theorem reports_sane (hm : m.Fresh) (hbatch : 1 ≤ cfg.maxBatch)
    (hclock : ∀ c, (clock c).1 ≤ (clock (clock c).2).1) :
    (∀ (v : SummaryLine → Operated (RunnerState κ K V)) (wallSeconds : Time),
      (∀ line, Operations encode (.ofRunner M clock) cfg .torn (.init cfg m rs t₀) (v line)) →
      ∃ sum, ApiState.statsAt (fun line => (v line).api) wallSeconds = .ok sum ∧ sum.Ordered) ∧
    (∀ v : CollectLine → Operated (RunnerState κ K V),
      (∀ line, Operations encode (.ofRunner M clock) cfg .torn (.init cfg m rs t₀) (v line)) →
      (ApiState.collectAt cfg fun line => (v line).api).Sane cfg) ∧
    ∀ (v : Operated (RunnerState κ K V)) (now : Time),
      Operations encode (.ofRunner M clock) cfg .whole (.init cfg m rs t₀) v → v.tReset ≤ now →
      ∃ sum, v.api.stats now = .ok sum ∧ sum.Sane cfg := by
  have henv : (Env.ofRunner M clock).Steady := ofRunner_steady hclock
  refine ⟨fun v wallSeconds hv => ?_, fun v hv => ?_, fun v now hv hnow => ?_⟩
  · have hsteadfast := fun line => operations_steadfast henv (hv line) (.init hm t₀)
    refine summaryAt_ordered (fun line => (hsteadfast line).timely.now) ?_ wallSeconds
    have hmax : (v .slotUtilisation).metrics.maxSlots = cfg.maxBatch :=
      (hsteadfast .slotUtilisation).maxSlots
    show (v .slotUtilisation).metrics.maxSlots ≠ 0
    omega
  · exact collectAt_sane fun line => operations_steadfast henv (hv line) (.init hm t₀)
  · have hsteadfast := operations_steadfast henv hv (.init hm t₀)
    have hmeasured := operations_measured henv hv (.init hm t₀) (.init _ t₀)
    exact summary_sane (hmeasured.gauged 0) hsteadfast.timely.now hbatch (sub_nonneg.mpr hnow)

/-- A `reset` between the first two lines of `record_step` takes the step away and leaves its slots. -/
example : ∃ sum, ((MetricsLine.occupied 1 :: recordStepLines 1 0 0 0 0).foldl EngineMetrics.write
    { maxSlots := 1 }).summary 0 = .ok sum ∧ sum.slotUtilisation = (2 : Rat) := by decide +kernel

/-- The first line finds the server earlier than the others. -/
theorem operations_ite {u v₁ v₂ : Operated σ} (h₁ : Operations encode env cfg .whole u v₁)
    (h₂ : Operations encode env cfg .whole v₁ v₂) (line : SummaryLine) :
    Operations encode env cfg .torn u (if line = .s then v₁ else v₂) := by
  split
  · exact operations_torn h₁
  · exact operations_torn (h₁.trans h₂)

/-- Two clients in a pool too small for both; the counters are cleared before the first step. The first
summary counts the steps when there are none, and reads the rest at the end. -/
theorem reports_sane_crowded :
    ∃ v₁ v₂ : Operated (RunnerState Nat Int Int),
      Operations (fun _ => []) (Env.ofRunner tiny tinyClock) { preemption := true } .whole
        (.init { preemption := true } (.block (.new 4 1 Nat.one_pos false))
          (tinyWorld (.block (.new 4 1 Nat.one_pos false))) 0) v₁ ∧
      Operations (fun _ => []) (Env.ofRunner tiny tinyClock) { preemption := true } .whole v₁ v₂ ∧
      v₂.metrics.requests.length = 2 ∧
      (∃ sum, ApiState.statsAt (fun line => (if line = .s then v₁ else v₂).api) 40 = .ok sum ∧
        sum.Ordered) ∧
      (ApiState.collectAt { preemption := true } fun _ => v₂.api).Sane { preemption := true } ∧
      ∃ sum, v₂.api.stats 40 = .ok sum ∧ sum.Sane { preemption := true } := by
  have hm : (Manager.block (.new 4 1 Nat.one_pos false)).Fresh := Manager.fresh_block_new ..
  have hruns : ∃ l,
      run (EngineLoop.serve (fun _ => []) (Env.ofRunner tiny tinyClock) { preemption := true })
        (.init { preemption := true } (.block (.new 4 1 Nat.one_pos false))
          (tinyWorld (.block (.new 4 1 Nat.one_pos false))))
        [.generate { promptTokenIds := some [1], maxNewTokens := 3 } "a" 0,
          .generate { promptTokenIds := some [2, 0], maxNewTokens := 2 } "b" 0] = .ok l ∧
      PunctualRun (fun _ => []) (Env.ofRunner tiny tinyClock) { preemption := true }
        (.init { preemption := true } (.block (.new 4 1 Nat.one_pos false))
          (tinyWorld (.block (.new 4 1 Nat.one_pos false))))
        [.generate { promptTokenIds := some [1], maxNewTokens := 3 } "a" 0,
          .generate { promptTokenIds := some [2, 0], maxNewTokens := 2 } "b" 0] ∧
      PunctualRun (fun _ => []) (Env.ofRunner tiny tinyClock) { preemption := true }
        { l with sched := { l.sched with metrics := l.sched.metrics.reset } }
        (List.replicate 24 .advance) ∧
      ∃ l', run (EngineLoop.serve (fun _ => []) (Env.ofRunner tiny tinyClock) { preemption := true })
          { l with sched := { l.sched with metrics := l.sched.metrics.reset } }
          (List.replicate 24 .advance) = .ok l' ∧ l'.sched.metrics.requests.length = 2 := by
    decide +kernel
  obtain ⟨l, hl, hpunctual, hpunctual', l', hl', htwo⟩ := hruns
  have hfirst : Operations (fun _ => []) (Env.ofRunner tiny tinyClock) { preemption := true } .whole
      (.init _ _ _ 0)
      { loop := { l with sched := { l.sched with metrics := l.sched.metrics.reset } }, tReset := 3 } :=
    serveRun_reset hm hpunctual hl
  have hgood := (operations_valid hfirst (.init hm 0)).point
  have hsecond : Operations (fun _ => []) (Env.ofRunner tiny tinyClock) { preemption := true } .whole
      _ { loop := l', tReset := 3 } :=
    serveRun_operations rfl rfl ⟨rfl, rfl, rfl, rfl, rfl⟩ hgood hpunctual' hl'
  have hclock : ∀ c, (tinyClock c).1 ≤ (tinyClock (tinyClock c).2).1 := by
    intro c
    simp [tinyClock]
  have hnow : (3 : Time) ≤ 40 := by decide
  refine ⟨_, { loop := l', tReset := 3 }, hfirst, hsecond, htwo, ?_, ?_, ?_⟩
  · exact (reports_sane hm (by decide) hclock).1 _ 40 (operations_ite hfirst hsecond)
  · exact (reports_sane hm (by decide) hclock).2.1 _ fun _ => operations_torn (hfirst.trans hsecond)
  · exact (reports_sane hm (by decide) hclock).2.2 _ 40 (hfirst.trans hsecond) hnow

end LlmServe
