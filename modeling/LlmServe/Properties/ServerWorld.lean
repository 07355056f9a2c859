import LlmServe.Properties.ModelCalls
import LlmServe.Theorems.Vocabulary

/-!
# The world of the server never raises

`Env.ofRunner` is `step_tokens` as it is: the lookup in the embedding table, then the model. It does
nothing the model alone would not do (`reach_of_withLookup`), so what is known of the model holds
behind the table as well; and for requests the engine can serve it always answers
(`ofRunner_neverRaises`).
-/

namespace LlmServe

open Infra Point

variable {σ : Type} {env : Env σ} {cfg : EngineConfig} {m : Manager} {s : Scheduler σ} {p : Point σ}

/-! ## The lookup -/

/-- Every lookup of such a forward pass is in the table. -/
theorem Call.inVocab {batch : List Ref} {rows : List Row} (h : Call p batch rows)
    (hgood : Good cfg m p) (hgen : Generated p) (hprompts : PromptsInVocab p.sched) :
    ∀ toks ∈ rows.map Row.tokens, ∀ tok ∈ toks, InVocab tok := by
  intro toks htoks tok htok
  obtain ⟨row, hrow, rfl⟩ := List.mem_map.mp htoks
  obtain ⟨r, hr, hof⟩ := exists_of_forall₂ h.row.flip hrow
  have hmem : tok ∈ (p.sched.heap r).tokens := by
    rw [hof.tokens]
    exact List.mem_append_right _ htok
  rcases List.mem_append.mp hmem with hin | hout
  · have hlt := hgood.placed.lt_next r (mem_placed_of_held (h.held r hr))
    exact hprompts r hlt tok hin
  · exact hgen.output r tok hout

theorem answersAt_withLookup (h : env.AnswersAt p) (hgood : Good cfg m p) (hgen : Generated p)
    (hprompts : PromptsInVocab p.sched) : env.withLookup.AnswersAt p := by
  intro batch rows hcall
  show ∃ b, (embedRows (rows.map Row.tokens) >>= fun _ => env.stepTokens p.sched.world rows) = .ok b
  rw [embedRows_ok (hcall.inVocab hgood hgen hprompts)]
  exact h batch rows hcall

/-- The completed world answers 0 where the other raises. -/
theorem Env.AnswersInVocab.total (h : env.AnswersInVocab) : env.total.AnswersInVocab := by
  intro w rows nxt w' hstep tok htok
  unfold Env.total at hstep
  dsimp only at hstep
  split at hstep
  · next b hb =>
    cases hstep
    exact h _ _ _ _ hb tok htok
  · cases hstep
    obtain ⟨row, -, rfl⟩ := List.mem_map.mp htok
    decide

/-- A call that the lookup lets through is a call of the model. -/
theorem withLookup_ok {w : σ} {rows : List Row} {b : List Token × σ}
    (h : env.withLookup.stepTokens w rows = .ok b) : env.stepTokens w rows = .ok b := by
  obtain ⟨_, -, h⟩ := exists_of_bind_ok h
  exact h

theorem stepTokens_withLookup {rows : List Row} {b : List Token × Scheduler σ}
    (h : s.stepTokens env.withLookup rows = .ok b) : s.stepTokens env rows = .ok b := by
  obtain ⟨⟨nxt, w⟩, hw, he⟩ := exists_of_bind_ok h
  cases he
  unfold Scheduler.stepTokens
  rw [withLookup_ok hw]
  rfl

/-- The lookup counts nothing. -/
theorem Counts.ofWithLookup {met : EngineMetrics} {owed : List Owed}
    (h : Counts env.withLookup p met owed) : Counts env p met owed := by
  cases h with
  | line line hline => exact .line line hline
  | prefills n owed howed => exact .prefills n owed howed
  | recordStep n owed met howed hn h => exact .recordStep n owed met howed hn h

/-- Behind its embedding table the model does nothing it would not do without. -/
theorem reach_of_withLookup {p p' : Point σ} (h : Reach env.withLookup cfg p p') :
    Reach env cfg p p' := by
  refine Relation.ReflTransGen.mono (fun x y hop => ?_) _ _ h
  cases hop with
  | step hop =>
    refine .step ?_
    cases hop with
    | prefill s' batch rest nxt hbatch hdue hp h =>
      exact .prefill _ s' batch rest nxt hbatch hdue hp (stepTokens_withLookup h)
    | decode s' batch rows nxt hidle hnd hrun hfin hcov hrows h =>
      exact .decode _ s' batch rows nxt hidle hnd hrun hfin hcov hrows (stepTokens_withLookup h)
    | dropCancelled hidle => exact .dropCancelled _ hidle
    | markCancelled r hidle hr => exact .markCancelled _ r hidle hr
    | leave s' pre post r hidle hr hfin h => exact .leave _ s' pre post r hidle hr hfin h
    | sort hidle => exact .sort _ hidle
    | admitHead s' r tail hbatch hdue hw hsorted hroom hcan hadm h =>
      exact .admitHead _ s' r tail hbatch hdue hw hsorted hroom hcan hadm h
    | setRunning r hr => exact .setRunning _ r hr
    | emit r tok due hdue => exact .emit _ r tok due hdue
    | join hdue => exact .join _ hdue
    | grow r hidle hr hfin => exact .grow _ r hidle hr hfin
    | preempt s' r hidle hr hfin hpre h => exact .preempt _ s' r hidle hr hfin hpre h
    | clock => exact .clock _
    | count met owed hcount => exact .count _ met owed hcount.ofWithLookup
  | cancel r hr => exact .cancel _ r hr
  | create n => exact .create _ n
  | submit pre post r hidle hin => exact .submit _ pre post r hidle hin

/-! ## The model -/

variable {Hidden K V κ : Type} {M : Transformer Hidden K V} {clock : κ → Time × κ}

/-- **The model runs whatever a loaded scheduler asks of it.** -/
theorem ofModel_answersAt {p : Point (RunnerState κ K V)} (hgood : Good cfg m p) (hl : Loaded m p)
    (hlay : p.sched.world.pool.layout = m.layout) : (Env.ofModel M clock).AnswersAt p := by
  intro batch rows hcall
  have hrows := hcall.fits hgood hl
  have hne : rows ≠ [] := by
    rintro rfl
    exact hcall.ne (List.length_eq_zero_iff.mp hcall.row.length_eq)
  obtain ⟨⟨nxt, pool, pad⟩, hb⟩ := M.stepTokens_isOk p.sched.world.pool hne
    (fun row hr => (hrows row hr).1) fun row hr => hlay ▸ (hrows row hr).2
  refine ⟨(nxt, { p.sched.world with pool, lastPadFrac := pad }), ?_⟩
  show M.stepTokens p.sched.world.pool rows >>= _ = _
  rw [hb]
  rfl

theorem Transformer.InVocab.answers (h : M.InVocab) : (Env.ofModel M clock).AnswersInVocab := by
  intro w rows nxt w' hstep tok htok
  obtain ⟨⟨out, pool, pad⟩, hmodel, he⟩ := exists_of_bind_ok hstep
  cases he
  obtain ⟨acc, -, rfl, -⟩ := Transformer.stepTokens_ok hmodel
  obtain ⟨i, -, rfl⟩ := List.mem_map.mp htok
  exact h _

/-- **The server's forward pass never raises.** -/
theorem ofRunner_neverRaises (hm : m.Serves cfg) (hM : M.InVocab) {w : RunnerState κ K V}
    (hpool : w.pool.layout = m.layout) : (Env.ofRunner M clock).NeverRaises cfg m w := by
  intro src s inbox hreach hsrc hserve
  have hgood := Good.ops (.init hm.fresh w) hreach
  have hl := hsrc.loaded_reach hm.fresh hreach hserve
  have hanswers : (Env.ofRunner M clock).AnswersInVocab := hM.answers.withLookup
  have hgen : Generated (rest s inbox) :=
    generated_ops hanswers (.init hm.fresh w) (.init cfg m w) hreach
  have hkeeps : ∀ w rows b, (Env.ofModel M clock).stepTokens w rows = .ok b →
      b.2.pool.layout = w.pool.layout := by
    intro w rows b hb
    obtain ⟨⟨nxt, pool, pad⟩, hstep, hb⟩ := exists_of_bind_ok hb
    cases hb
    obtain ⟨acc, -, -, hpool⟩ := Transformer.stepTokens_ok hstep
    rw [hpool]
  have hkeeps' : ∀ w rows b, (Env.ofRunner M clock).total.stepTokens w rows = .ok b →
      b.2.pool.layout = w.pool.layout := by
    intro w rows b hb
    unfold Env.total at hb
    dsimp only at hb
    split at hb
    · next b' hb' =>
      cases hb
      exact hkeeps w rows _ (withLookup_ok hb')
    · cases hb
      rfl
  have hlay : s.world.pool.layout = m.layout :=
    (world_const (f := fun w => w.pool.layout) (fun _ => rfl) hkeeps (.init hm.fresh w)
      (reach_of_withLookup hreach)).trans hpool
  have hans : ∀ p, StepOps (Env.ofRunner M clock).total cfg (fun _ _ => True) (rest s inbox) p →
      (Env.ofRunner M clock).AnswersAt p := by
    intro p hp
    have hops := ops_of_stepOps hp
    have hgood' := hgood.ops hops
    have hnext : p.sched.next = s.next := (stepOps_frame hp).next
    have hlp := hsrc.loaded_stepOps hgood hl.booked hserve p hp
    have hconst := world_const (f := fun w => w.pool.layout) (fun _ => rfl) hkeeps' hgood hops
    have hprompts := (hsrc.ops hgood hops hnext).promptsInVocab (hnext ▸ hserve.inVocab)
    exact answersAt_withLookup (ofModel_answersAt hgood' hlp (hconst.trans hlay)) hgood'
      (generated_ops hanswers.total hgood hgen hops) hprompts
  obtain ⟨s', hs'⟩ := step_isOk hm (Env.ofRunner M clock).total_answers hgood
    (hsrc.loaded_stepOps hgood hl.booked hserve)
  exact ⟨s', (step_total hgood hans).symm.trans hs'⟩

theorem tiny_inVocab : tiny.InVocab := fun h =>
  ⟨Int.emod_nonneg h (by decide), (Int.emod_lt_of_pos h (by decide)).trans (by decide)⟩

end LlmServe
