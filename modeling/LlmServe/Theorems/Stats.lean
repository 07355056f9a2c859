import LlmServe.Engine.NextToken
import LlmServe.Properties.Books
import LlmServe.Properties.NaiveLines
import LlmServe.Spec.Runs
import LlmServe.Theorems.NaiveBackend

/-!
# What `/stats` counts

`engine.sched.metrics` of a batched engine has one record for each request that a token finished
(`Books`), once nothing is left to do. The naive scheduler has such an object too, but `run` writes
to the runner's: its own stays empty, and is right only if nobody was served.
-/

namespace LlmServe

open Infra Point

/-- The records are those of the requests that a token finished, each once. -/
def Tallied (heap : Ref → Request) (next : Ref) (met : EngineMetrics) : Prop :=
  ∃ served : List Ref, served.Nodup ∧ (∀ r, r ∈ served ↔ r < next ∧ (heap r).Served) ∧
    served.map (fun r => requestMetrics (heap r)) = met.requests.map .ok ∧
    met.tokensOut = (served.map fun r => (heap r).outputTokenIds.length).sum

variable {σ τ : Type} {env : Env σ} {cfg : EngineConfig} {m : Manager} {w : σ}
  {runner : Runner τ} {w' : τ}

/-! ## The batched engines -/

/-- With `waiting` and `running` empty, a request that a token finished has left. -/
theorem tallied_batched (hm : m.Fresh) {s : Scheduler σ} {inbox : List Ref}
    (hs : Reach env cfg (rest (.init cfg m w) []) (rest s inbox)) (hidle : s.hasWork = false) :
    Tallied s.heap s.next s.metrics := by
  have hstart : Good cfg m (rest (.init cfg m w) []) := .init hm w
  have hgood := hstart.ops hs
  obtain ⟨served, -, hbooks⟩ := books_ops hs hstart (books_init cfg m w)
  refine ⟨served, hbooks.nodup, fun r => (hbooks.mem r).trans ?_, hbooks.records, hbooks.tokens⟩
  constructor
  · rintro ⟨hg, hserved⟩
    have hlt := mem_of_phase (rest s inbox) r
    rw [hg] at hlt
    exact ⟨hlt, hserved⟩
  · rintro ⟨hlt, hserved⟩
    refine ⟨phase_gone ?_ hlt, hserved⟩
    simp only [Scheduler.hasWork, Bool.or_eq_false_iff, Bool.not_eq_false',
      List.isEmpty_iff] at hidle
    simp only [placed, held, rest, hidle.1, hidle.2, List.append_nil]
    intro hin
    -- nobody in the inbox is finished
    have hph : ((rest s inbox).view r).phase = .inbox := phase_inbox hin
    have hnone := (hgood.facts r).ending.early_open (by simp [hph]) (by simp [hph]) (by simp [hph])
    change (s.heap r).finishReason = none at hnone
    rcases hserved with h | h <;> cases hnone.symm.trans h

/-! ## The naive engine -/

namespace NaiveThread

variable {t t' : NaiveThread τ} {r : Ref}

/-- Whenever the engine thread comes to the end of a service, the client has left. -/
def EachCancelled (runner : Runner τ) : NaiveThread τ → List NaiveAction → Prop
  | _, [] => True
  | t, a :: as => (a = .advance → ∀ r, t.pc = .close r → (t.sched.heap r).cancelled = true) ∧
      ∀ t', t.act runner a = .ok t' → EachCancelled runner t' as

instance decidableClosing {P : Ref → Prop} [DecidablePred P] :
    ∀ pc : NaivePc, Decidable (∀ r, pc = .close r → P r)
  | .close r => decidable_of_iff (P r) ⟨fun h x hx => by cases hx; exact h, fun h => h r rfl⟩
  | .idle | .loop _ | .stamp _ _ | .callback _ _ | .finish _ | .name _ => isTrue nofun

instance decidableEachCancelled :
    ∀ (t : NaiveThread τ) (acts : List NaiveAction), Decidable (EachCancelled runner t acts)
  | _, [] => isTrue trivial
  | t, a :: as =>
    have := fun t' => decidableEachCancelled t' as
    inferInstanceAs (Decidable ((a = .advance →
      ∀ r, t.pc = .close r → (t.sched.heap r).cancelled = true) ∧
      ∀ t', t.act runner a = .ok t' → EachCancelled runner t' as))

/-- A token finished `r`, or is just about to be recorded as the reason. -/
def Finishing (r : Ref) (t : NaiveThread τ) : Prop :=
  (t.sched.heap r).Served ∨ t.pc = .name r ∧ (t.sched.heap r).finishReason = none

/-- A line makes its own request `Finishing` at `if req.cancelled`, and nowhere else. -/
theorem Line.finishing_iff {pc pc' : NaivePc} {q q' : Request} {events : List Event}
    (h : Line r pc q q' events pc')
    (hopen : q.finishReason = none ∨ pc = .name r ∧ q.finishReason = some .cancelled) :
    q'.Served ∨ pc' = .name r ∧ q'.finishReason = none ↔
      (q.Served ∨ pc = .name r ∧ q.finishReason = none) ∨ pc = .close r ∧ q.cancelled = false := by
  cases h with
  | cancelled _ hcan =>
    have hnone : q.finishReason = none := hopen.resolve_right (by simp)
    simp [Request.Served, hnone, hcan]
  | record _ hlive =>
    have hnone : q.finishReason = none := hopen.resolve_right (by simp)
    simp [Request.Served, hnone, hlive]
  | name =>
    rcases hopen with hnone | ⟨-, hcan⟩
    · simp [Request.Served, hnone]
    · simp [Request.Served, hcan]
  | callback =>
    have hnone : q.finishReason = none := hopen.resolve_right (by simp)
    split <;> simp [Request.Served, hnone]
  | append | leave | stamp | finish =>
    have hnone : q.finishReason = none := hopen.resolve_right (by simp)
    simp [Request.Served, hnone]

theorem finishing_line {x : Ref} {q : Request} {events : List Event} (hp : NaivePlaced t)
    (hserving : t.serving = [x]) (hline : Line x t.pc (t.sched.heap x) q events t'.pc)
    (hw : Writes t.sched t'.sched x q events) :
    Finishing r t' ↔ Finishing r t ∨ t.pc = .close r ∧ (t.sched.heap r).cancelled = false := by
  by_cases hrx : r = x
  · subst hrx
    unfold Finishing
    rw [hw.self]
    exact hline.finishing_iff (hp.opens r (by simp [placed, hserving]))
  · -- neither line is one of the service of `r`
    have hpc : t.pc ≠ .name r := fun h => hrx (by simpa [serving, h] using hserving)
    have hclose : t.pc ≠ .close r := fun h => hrx (by simpa [serving, h] using hserving)
    have hpc' : t'.pc ≠ .name r := fun h => by
      rcases hline.serving with ⟨hidle, -⟩ | hs
      · cases hidle.symm.trans h
      · exact hrx (by simpa [serving, h] using hs)
    simp [Finishing, hw.other hrx, hpc, hpc', hclose]

/-- A step that writes to no reason, and is no line of a service. -/
theorem finishing_congr
    (hreason : (t'.sched.heap r).finishReason = (t.sched.heap r).finishReason)
    (hpc : t'.pc = .name r ↔ t.pc = .name r) : Finishing r t' ↔ Finishing r t := by
  simp only [Finishing, Request.Served, hreason, hpc]

theorem enter_reason (t : NaiveThread τ) (r : Ref) :
    (t.enter.sched.heap r).finishReason = (t.sched.heap r).finishReason := by
  unfold enter
  cases t.sched.waiting.filter fun r => !(t.sched.heap r).cancelled with
  | nil => rfl
  | cons x rest => exact apply_update Request.finishReason (by rfl) r

theorem enter_pc (hpc : t.pc = .idle) : t.enter.pc ≠ .name r := by
  unfold enter
  cases t.sched.waiting.filter fun r => !(t.sched.heap r).cancelled with
  | nil => exact fun h => nomatch hpc.symm.trans h
  | cons x rest => exact nofun

/-- **Where a request comes to be `Finishing`.** -/
theorem finishing_act {a : NaiveAction} (hp : NaivePlaced t) (h : t.act runner a = .ok t') :
    Finishing r t' ↔ Finishing r t ∨
      a = .advance ∧ t.pc = .close r ∧ (t.sched.heap r).cancelled = false := by
  cases a with
  | create n =>
    cases h
    refine Iff.trans ?_ (or_iff_left nofun).symm
    refine finishing_congr ?_ Iff.rfl
    show (Function.update t.sched.heap t.sched.next n.toRequest r).finishReason = _
    by_cases hr : r = t.sched.next
    · rw [hr, Function.update_self, hp.blank _ (Nat.le_refl _)]
      rfl
    · rw [Function.update_of_ne hr]
  | cancel x =>
    cases h
    refine Iff.trans ?_ (or_iff_left nofun).symm
    split
    · exact finishing_congr (apply_update Request.finishReason (by rfl) r) Iff.rfl
    · rfl
  | submit =>
    cases h
    refine Iff.trans ?_ (or_iff_left nofun).symm
    unfold submit
    split
    · exact finishing_congr (apply_update Request.finishReason (by rfl) r) Iff.rfl
    · rfl
  | advance =>
    rcases advance_cases h with ⟨hpc, rfl⟩ | ⟨x, q, events, hserving, hline, hw, -⟩
    · refine (finishing_congr (enter_reason t r) ?_).trans (by simp [hpc])
      simp [enter_pc hpc, hpc]
    · simpa using finishing_line hp hserving hline hw

/-- Among clients somebody gets `Finishing` if somebody's client is there at the end. -/
theorem finishing_run : ∀ {acts : List NaiveAction} {t : NaiveThread τ}, NaivePlaced t →
    run (act runner) t acts = .ok t' →
      ((∃ r, Finishing r t') ↔ (∃ r, Finishing r t) ∨ ¬EachCancelled runner t acts)
  | [], t, _, h => by
    cases h
    simp [EachCancelled]
  | a :: acts, t, hp, h => by
    obtain ⟨u, ha, hacts⟩ := exists_of_bind_ok h
    have hstep : (∃ r, Finishing r u) ↔ (∃ r, Finishing r t) ∨
        ∃ r, a = .advance ∧ t.pc = .close r ∧ (t.sched.heap r).cancelled = false := by
      rw [← exists_or]
      exact exists_congr fun r => finishing_act hp ha
    have hcan : EachCancelled runner t (a :: acts) ↔
        ¬(∃ r, a = .advance ∧ t.pc = .close r ∧ (t.sched.heap r).cancelled = false) ∧
          EachCancelled runner u acts := by
      refine and_congr ?_ ?_
      · simp only [not_exists, not_and, Bool.not_eq_false]
        exact ⟨fun h r ha hr => h ha r hr, fun h ha r hr => h r ha hr⟩
      · exact ⟨fun h => h u ha, fun h u' hu' => Except.ok.inj (ha.symm.trans hu') ▸ h⟩
    rw [finishing_run (naivePlaced_act hp ha) hacts, hstep, hcan, or_assoc, not_and_or, not_not]

/-- Nobody writes to the metrics of the scheduler. -/
theorem act_metrics {a : NaiveAction} (h : t.act runner a = .ok t') :
    t'.sched.metrics = t.sched.metrics := by
  cases a with
  | create n =>
    cases h
    rfl
  | cancel x =>
    cases h
    split <;> rfl
  | submit =>
    cases h
    unfold submit
    split <;> rfl
  | advance =>
    rcases advance_cases h with ⟨-, rfl⟩ | ⟨x, q, events, -, -, hw, -⟩
    · unfold enter
      cases t.sched.waiting.filter fun r => !(t.sched.heap r).cancelled <;> rfl
    · exact hw.metrics

theorem run_facts {acts : List NaiveAction} (h : run (act runner) (.init w') acts = .ok t) :
    NaivePlaced t ∧ t.sched.metrics.requests = [] ∧ t.sched.metrics.tokensOut = 0 := by
  refine run_invariant
    (P := fun _ t => NaivePlaced t ∧ t.sched.metrics.requests = [] ∧ t.sched.metrics.tokensOut = 0)
    (Q := fun _ => True) (fun _ _ _ => trivial) ⟨naivePlaced_init, rfl, rfl⟩
    (fun as a u u' _ _ hu ha => ?_) trivial h
  rw [act_metrics ha]
  exact ⟨naivePlaced_act hu.1 ha, hu.2⟩

end NaiveThread

/-- Empty books are right if no token finished anybody. -/
theorem tallied_empty_iff {heap : Ref → Request} {next : Ref} {met : EngineMetrics}
    (hreq : met.requests = []) (hout : met.tokensOut = 0) :
    Tallied heap next met ↔ ∀ r < next, ¬(heap r).Served := by
  constructor
  · rintro ⟨served, -, hmem, hrec, -⟩ r hr hs
    have hnil : served = [] := by simpa [hreq] using hrec
    have hin : r ∈ served := (hmem r).mpr ⟨hr, hs⟩
    rw [hnil] at hin
    cases hin
  · intro h
    refine ⟨[], List.nodup_nil, fun r => ?_, by rw [hreq]; rfl, hout⟩
    exact ⟨nofun, fun hr => absurd hr.2 (h r hr.1)⟩

/-- When the naive engine is between two calls. -/
theorem tallied_naive_iff {acts : List NaiveAction} {t : NaiveThread τ}
    (hrun : run (NaiveThread.act runner) (.init w') acts = .ok t) (hpc : t.pc = .idle) :
    Tallied t.sched.heap t.sched.next t.sched.metrics ↔
      NaiveThread.EachCancelled runner (.init w') acts := by
  obtain ⟨hp, hreq, hout⟩ := NaiveThread.run_facts hrun
  have hend : ∀ r, NaiveThread.Finishing r t ↔ (t.sched.heap r).Served := fun r =>
    or_iff_left fun h => nomatch hpc.symm.trans h.1
  have hstart : ¬∃ r, NaiveThread.Finishing r (.init w' : NaiveThread τ) := by
    rintro ⟨r, (h | h) | h⟩
    · exact nomatch h
    · exact nomatch h
    · exact nomatch h.1
  have hsome := NaiveThread.finishing_run NaiveThread.naivePlaced_init hrun
  rw [or_iff_right hstart] at hsome
  rw [tallied_empty_iff hreq hout, ← not_iff_not, ← hsome]
  push Not
  constructor
  · rintro ⟨r, -, h⟩
    exact ⟨r, (hend r).mpr h⟩
  · rintro ⟨r, h⟩
    have hs := (hend r).mp h
    refine ⟨r, Nat.lt_of_not_le fun hle => ?_, hs⟩
    have hnone := hp.blank r hle
    rcases hs with h | h <;> cases hnone.symm.trans h

/--
**The records of a batched engine are those of the requests that a token finished; the naive engine
has none.** In every run of a batched engine that has come to rest with nothing left to do,
`engine.sched.metrics` has one record for each request with finish reason `length` or `stop`, no
other, and counts their tokens. For the naive engine this holds exactly for the runs in which every
request it served had been cancelled when its service ended.
-/
theorem served_requests_counted_iff (env : Env σ) (cfg : EngineConfig) (w : σ) (runner : Runner τ)
    (w' : τ) (hm : m.Fresh) :
    (∀ (s : Scheduler σ) (inbox : List Ref),
      Reach env cfg (rest (.init cfg m w) []) (rest s inbox) → s.hasWork = false →
      Tallied s.heap s.next s.metrics) ∧
    ∀ (acts : List NaiveAction) (t : NaiveThread τ),
      run (NaiveThread.act runner) (.init w') acts = .ok t → t.pc = .idle →
      t.sched.hasWork = false →
      (Tallied t.sched.heap t.sched.next t.sched.metrics ↔
        NaiveThread.EachCancelled runner (.init w') acts) :=
  ⟨fun _ _ hs hidle => tallied_batched hm hs hidle, fun _ _ hrun hpc _ => tallied_naive_iff hrun hpc⟩

/-- Of two requests in a batched engine one is cancelled; the only request of a naive engine is
cancelled in its loop. -/
theorem served_requests_counted_iff_cancelled :
    (∃ s, run (Scheduler.act (Env.ofNext fun toks => toks.length) {})
        (.init {} (.slot (.new 1)) .start)
        [.submit { requestId := "a", promptTokenIds := [1], maxNewTokens := 2 },
          .submit { requestId := "b", promptTokenIds := [2], maxNewTokens := 2 }, .step,
          .cancel 1, .step, .step] = .ok s ∧
      (s.heap 0).Served ∧ ¬(s.heap 1).Served ∧ Tallied s.heap s.next s.metrics) ∧
    ∃ t, run (NaiveThread.act countingRunner) (.init 0)
        [.create { requestId := "a", promptTokenIds := [1], maxNewTokens := 2 }, .submit,
          .advance, .advance, .advance, .cancel 0, .advance, .advance, .advance, .advance,
          .advance] = .ok t ∧
      (t.sched.heap 0).outputTokenIds = [1] ∧ Tallied t.sched.heap t.sched.next t.sched.metrics := by
  have hbatch : ∃ s, run (Scheduler.act (Env.ofNext fun toks => toks.length) {})
      (.init {} (.slot (.new 1)) .start)
      [.submit { requestId := "a", promptTokenIds := [1], maxNewTokens := 2 },
        .submit { requestId := "b", promptTokenIds := [2], maxNewTokens := 2 }, .step,
        .cancel 1, .step, .step] = .ok s ∧
      (s.heap 0).Served ∧ ¬(s.heap 1).Served ∧ s.hasWork = false := by
    decide +kernel
  have hnaive : ∃ t, run (NaiveThread.act countingRunner) (.init 0)
      [.create { requestId := "a", promptTokenIds := [1], maxNewTokens := 2 }, .submit,
        .advance, .advance, .advance, .cancel 0, .advance, .advance, .advance, .advance,
        .advance] = .ok t ∧
      (t.sched.heap 0).outputTokenIds = [1] ∧ t.pc = .idle ∧ t.sched.hasWork = false := by
    decide +kernel
  obtain ⟨s, hs, hserved, hcan, hdone⟩ := hbatch
  obtain ⟨t, ht, hout, hpc, hidle⟩ := hnaive
  have hm : (Manager.slot (.new 1)).Fresh := Manager.fresh_slot_new 1
  have h := served_requests_counted_iff (Env.ofNext fun toks => toks.length) {} .start
    countingRunner 0 hm
  refine ⟨⟨s, hs, hserved, hcan, h.1 s [] (run_reach hm hs) hdone⟩, t, ht, hout, ?_⟩
  exact (h.2 _ t ht hpc hidle).mpr (by decide +kernel)

/-- **The naive engine serves a request and `/stats` has no record of it.** -/
theorem naive_stats_stay_empty :
    ∃ t, run (NaiveThread.act countingRunner) (.init 0)
        [.create { requestId := "a", promptTokenIds := [1], maxNewTokens := 1 }, .submit,
          .advance, .advance, .advance, .advance, .advance, .advance, .advance, .advance] = .ok t ∧
      t.pc = .idle ∧ t.inbox = [] ∧ t.sched.hasWork = false ∧
      (t.sched.heap 0).finishReason = some .length ∧
      ¬Tallied t.sched.heap t.sched.next t.sched.metrics := by
  have hrun : ∃ t, run (NaiveThread.act countingRunner) (.init 0)
      [.create { requestId := "a", promptTokenIds := [1], maxNewTokens := 1 }, .submit,
        .advance, .advance, .advance, .advance, .advance, .advance, .advance, .advance] = .ok t ∧
      t.pc = .idle ∧ t.inbox = [] ∧ t.sched.hasWork = false ∧
      (t.sched.heap 0).finishReason = some .length ∧ 0 < t.sched.next := by
    decide +kernel
  obtain ⟨t, ht, hpc, hin, hidle, hreason, hnext⟩ := hrun
  obtain ⟨-, hreq, hout⟩ := NaiveThread.run_facts ht
  refine ⟨t, ht, hpc, hin, hidle, hreason, fun h => ?_⟩
  exact (tallied_empty_iff hreq hout).mp h 0 hnext (Or.inl hreason)

end LlmServe
