import LlmServe.Engine.Generate
import LlmServe.Engine.ModelRunner
import LlmServe.Engine.NextToken
import LlmServe.Spec.ForwardPass
import LlmServe.Theorems.NoLostRequest

/-!
# The ids that reach the embedding table

`step_tokens` is given the prompt and the output of a request, or the last token of its output.
Outputs are answers of the model (`generated_ops`), and a prompt is what `/generate` let in
(`serve_run`). The handler does not look at the ids of a body, so the lookups are right in the runs
whose bodies have only ids of the vocabulary.
-/

namespace LlmServe

open Infra Point

variable {σ : Type} {env : Env σ} {cfg : EngineConfig} {m : Manager} {w : σ} {p p' : Point σ}

/-- The rows that `_prefill` or `_decode` hands to `step_tokens` at `p`. -/
inductive StepTokensCall (p : Point σ) : List Row → Prop
  | prefill (batch rest : List Ref) (hp : p.popped = batch ++ rest) :
      StepTokensCall p (batch.map p.sched.prefillRow)
  | decode (batch : List Ref) (rows : List Row) (hrun : ∀ r ∈ batch, r ∈ p.sched.running)
      (hrows : batch.mapM p.sched.decodeRow = .ok rows) : StepTokensCall p rows

/-- The `argmax` of the logits is the number of a row. -/
def Env.AnswersInVocab (env : Env σ) : Prop :=
  ∀ w rows nxt w', env.stepTokens w rows = .ok (nxt, w') → ∀ tok ∈ nxt, InVocab tok

theorem Env.AnswersInVocab.withLookup (h : env.AnswersInVocab) :
    env.withLookup.AnswersInVocab := by
  intro w rows nxt w' hstep
  obtain ⟨_, -, hstep⟩ := exists_of_bind_ok hstep
  exact h w rows nxt w' hstep

/-! ## Outputs -/

/-- What the model has answered so far. -/
structure Generated (p : Point σ) : Prop where
  output : ∀ r, ∀ tok ∈ (p.sched.heap r).outputTokenIds, InVocab tok
  due : ∀ x ∈ p.due, InVocab x.2

theorem Generated.init (cfg : EngineConfig) (m : Manager) (w : σ) :
    Generated (rest (.init cfg m w) []) := ⟨nofun, nofun⟩

theorem generated_op (henv : env.AnswersInVocab) (hop : Op env cfg (fun _ _ => True) p p')
    (hgood : Good cfg m p) (h : Generated p) : Generated p' := by
  rcases op_pass_or_quiet hop hgood with ⟨batch, rows, nxt, hpass⟩ | hq
  · refine ⟨fun r => ?_, fun x hx => ?_⟩
    · rw [hpass.heap]
      exact h.output r
    · rw [hpass.due'] at hx
      exact henv _ _ _ _ hpass.answer x.2 (List.of_mem_zip hx).2
  · rcases hq.due with hdue | ⟨r, tok, now, hdue, hheap⟩
    · refine ⟨fun x => ?_, fun x hx => h.due x (hdue ▸ hx)⟩
      rw [hq.output hdue x]
      exact h.output x
    · refine ⟨fun x => ?_, fun x hx => h.due x (hdue ▸ List.mem_cons_of_mem _ hx)⟩
      rw [hheap]
      by_cases hx : x = r
      · -- the token that was due
        subst hx
        intro t ht
        rw [Function.update_self, Request.emit_outputTokenIds] at ht
        rcases List.mem_append.mp ht with ht | ht
        · exact h.output x t ht
        · rw [List.mem_singleton.mp ht]
          exact h.due (x, tok) (hdue ▸ List.mem_cons_self)
      · rw [Function.update_of_ne hx]
        exact h.output x

/-- **Outputs stay in the vocabulary**, also those that are fed again after an eviction. -/
theorem generated_ops (henv : env.AnswersInVocab) (hgood : Good cfg m p) (h : Generated p)
    (hops : Reach env cfg p p') : Generated p' := by
  have hstep : ∀ x y, Op env cfg (fun _ _ => True) x y → Good cfg m x ∧ Generated x →
      Good cfg m y ∧ Generated y := fun x y hop hx =>
    ⟨hx.1.op hop, generated_op henv hop hx.1 hx.2⟩
  exact (reach_invariant hstep hops ⟨hgood, h⟩).2

/-- With prompts of the vocabulary, every id of a call is in it. -/
theorem Generated.call (h : Generated p) (hgood : Good cfg m p)
    (hprompt : ∀ r < p.sched.next, ∀ tok ∈ (p.sched.heap r).promptTokenIds, InVocab tok)
    {rows : List Row} (hcall : StepTokensCall p rows) :
    ∀ row ∈ rows, ∀ tok ∈ row.tokens, InVocab tok := by
  intro row hrow tok htok
  cases hcall with
  | prefill batch rest hp =>
    obtain ⟨r, hr, rfl⟩ := List.mem_map.mp hrow
    have hpop : r ∈ p.popped := hp ▸ List.mem_append_left _ hr
    rcases List.mem_append.mp htok with ht | ht
    · exact hprompt r (hgood.placed.lt_next r (mem_placed_of_held (mem_held_of_popped hpop))) tok ht
    · exact h.output r tok ht
  | decode batch rows hrun hrows =>
    obtain ⟨r, -, hdec⟩ := exists_of_forall₂ (forall₂_of_mapM_ok hrows).flip hrow
    obtain ⟨last, hlast, rfl⟩ := decodeRow_ok hdec
    rw [List.mem_singleton.mp htok]
    exact h.output r last (List.mem_of_getLast? hlast)

/-- Then the lookups add no exception to those of the world. -/
theorem fault_of_withLookup {e : PyError}
    (hcall : ∀ rows, StepTokensCall p rows → ∀ row ∈ rows, ∀ tok ∈ row.tokens, InVocab tok)
    (h : Fault env.withLookup cfg p e) : Fault env cfg p e := by
  have hlookup : ∀ rows, StepTokensCall p rows →
      env.withLookup.stepTokens p.sched.world rows = env.stepTokens p.sched.world rows := by
    intro rows hrows
    have hok : ∀ toks ∈ rows.map Row.tokens, ∀ tok ∈ toks, InVocab tok := by
      intro toks htoks
      obtain ⟨row, hrow, rfl⟩ := List.mem_map.mp htoks
      exact hcall rows hrows row hrow
    show (embedRows _ >>= _) = _
    rw [embedRows_ok hok]
    rfl
  cases h with
  | leave r _ hidle hr hfin h => exact .leave p r e hidle hr hfin h
  | admitHead r tail _ hbatch hw hcan h => exact .admitHead p r tail e hbatch hw hcan h
  | prefill batch rest _ hp h =>
    rw [hlookup _ (.prefill batch rest hp)] at h
    exact .prefill p batch rest e hp h
  | decode batch rows _ hrun hrows h =>
    rw [hlookup _ (.decode batch rows hrun hrows)] at h
    exact .decode p batch rows e hrun hrows h
  | capacity r hidle hr hfin hpre h => exact .capacity p r hidle hr hfin hpre h
  | preempt r _ hidle hr hpre h => exact .preempt p r e hidle hr hpre h
  | decodeRow r _ hidle hr h => exact .decodeRow p r e hidle hr h
  | recordStep r hr hdue h => exact .recordStep p r hr hdue h

/-! ## Prompts -/

/-- A prompt stays as it is from the moment the object is built. -/
theorem prompt_moves {r : Ref} {v v' : View} (hmvs : Moves cfg m r v v') (h : v.phase ≠ .absent) :
    v'.phase ≠ .absent ∧ v'.req.promptTokenIds = v.req.promptTokenIds := by
  induction hmvs with
  | refl => exact ⟨h, rfl⟩
  | @tail x y _ hmv ih =>
    rw [← ih.2]
    have hx : x.phase ≠ .absent := ih.1
    cases hmv with
    | create n hphase => exact absurd hphase hx
    | emit now tok hdue => exact ⟨hx, Request.emit_promptTokenIds ..⟩
    | stay | cancel | abort | setRunning | grow | decode => exact ⟨hx, rfl⟩
    | submit | drop | leave | admitHead | prefill | join | preempt => exact ⟨by simp, rfl⟩

/-- All prompts are in the vocabulary. -/
def PromptsInVocab (s : Scheduler σ) : Prop :=
  ∀ r < s.next, ∀ tok ∈ (s.heap r).promptTokenIds, InVocab tok

/-- Small steps keep the prompts they find; what comes later has to be in the vocabulary too. -/
theorem promptsInVocab_reach (hgood : Good cfg m p) (hops : Reach env cfg p p')
    (h : PromptsInVocab p.sched) (hnew : ∀ r < p'.sched.next, p.sched.next ≤ r →
      ∀ tok ∈ (p'.sched.heap r).promptTokenIds, InVocab tok) : PromptsInVocab p'.sched := by
  intro r hr
  by_cases hold : r < p.sched.next
  · have hbuilt : (p.view r).phase ≠ .absent := by
      intro ha
      have hmem := mem_of_phase p r
      rw [show p.phase r = .absent from ha] at hmem
      exact hmem hold
    have hsame := (prompt_moves (hgood.moves hops r) hbuilt).2
    rw [show (p'.sched.heap r).promptTokenIds = (p.sched.heap r).promptTokenIds from hsame]
    exact h r hold
  · exact hnew r hr (Nat.le_of_not_lt hold)

theorem advance_next {l l' : EngineLoop σ} (hp : Placed cfg l.point)
    (h : l.advance env cfg = .ok l') : l'.sched.next = l.sched.next := by
  unfold EngineLoop.advance at h
  split at h
  · cases h
    rfl
  · split at h <;> cases h <;> rfl
  · cases h
    rfl
  · split at h
    · obtain ⟨s', hs', he⟩ := exists_of_bind_ok h
      cases he
      have hout := step_outcome env l.sched _ hp (stepKeeps_true env cfg _ l.sched)
      rw [hs'] at hout
      obtain ⟨p, hops, rfl⟩ := hout
      exact (stepOps_frame hops).next
    · cases h
      rfl
  · cases h
    rfl
  · cases h
    rfl

/-! ## Runs of the server -/

variable {encode : Text → List Token}

/-- The ids that come with the body are in the vocabulary. -/
def GenerateIn.HasVocab (body : GenerateIn) : Prop :=
  ∀ tok ∈ body.promptTokenIds.getD [], InVocab tok

/-- If the action is a body that is let in, its ids are in the vocabulary. -/
def EngineLoop.LetsInVocab (encode : Text → List Token) (cfg : EngineConfig) (l : EngineLoop σ) :
    ServerAction → Prop
  | .generate body rid now => (l.generate encode cfg body rid now).1 = .ok () → body.HasVocab
  | .cancel _ | .stop | .advance => True

/-- The same for every action of a run. -/
def RunInVocab (encode : Text → List Token) (env : Env σ) (cfg : EngineConfig) :
    EngineLoop σ → List ServerAction → Prop
  | _, [] => True
  | l, a :: as => l.LetsInVocab encode cfg a ∧
      ∀ l', l.serve encode env cfg a = .ok l' → RunInVocab encode env cfg l' as

/-- Whatever the handler answers. -/
theorem runInVocab_of_bodies : ∀ {acts : List ServerAction} {l : EngineLoop σ},
    (∀ body rid now, .generate body rid now ∈ acts → body.HasVocab) →
      RunInVocab encode env cfg l acts
  | [], _, _ => trivial
  | a :: acts, l, h => by
    refine ⟨?_, fun l' _ => runInVocab_of_bodies fun body rid now hin =>
      h body rid now (List.mem_cons_of_mem _ hin)⟩
    cases a with
    | generate body rid now => exact fun _ => h body rid now List.mem_cons_self
    | cancel | stop | advance => exact trivial

/-- An action of the server is one of the engine loop, or a body that is turned away. -/
theorem serve_cases {l l' : EngineLoop σ} {a : ServerAction}
    (h : l.serve encode env cfg a = .ok l') : l' = l ∨ ∃ b, l.act env cfg b = .ok l' := by
  cases a with
  | generate body rid now =>
    cases h
    unfold EngineLoop.generate
    cases body.toRequest encode l.sched.manager rid now l.sched.next with
    | error e => exact Or.inl rfl
    | ok n =>
      refine Or.inr ⟨.submit n, ?_⟩
      show Except.ok (l.submit cfg n).2 = _
      dsimp only
      split <;> rfl
  | cancel r => exact Or.inr ⟨.cancel r, h⟩
  | stop => exact Or.inr ⟨.stop, h⟩
  | advance => exact Or.inr ⟨.advance, h⟩

theorem serve_reach {l l' : EngineLoop σ} {a : ServerAction} (hp : Placed cfg l.point)
    (h : l.serve encode env cfg a = .ok l') : Reach env cfg l.point l'.point := by
  rcases serve_cases h with rfl | ⟨b, hb⟩
  · exact .refl
  · exact loopAct_reach hp hb

/-- A prompt comes from the body or from the tokenizer. -/
theorem toRequest_inVocab (hencode : ∀ text, ∀ tok ∈ encode text, InVocab tok) {m : Manager}
    {body : GenerateIn} {rid : String} {now : Time} {sink : Nat} {n : NewRequest}
    (h : body.toRequest encode m rid now sink = .ok n)
    (hids : body.HasVocab) : ∀ tok ∈ n.promptTokenIds, InVocab tok := by
  have hbody := (GenerateIn.toRequest_ok h).1
  unfold GenerateIn.ids at hbody
  split at hbody
  · next ids hsome =>
    rw [← Except.ok.inj hbody]
    unfold GenerateIn.HasVocab at hids
    rwa [hsome] at hids
  · rw [← Except.ok.inj hbody]
    exact hencode _
  · cases hbody

/-- **What one action puts into the engine.** -/
theorem serve_prompts (hencode : ∀ text, ∀ tok ∈ encode text, InVocab tok) {l l' : EngineLoop σ}
    {a : ServerAction} (hgood : Good cfg m l.point) (h : l.serve encode env cfg a = .ok l')
    (hids : l.LetsInVocab encode cfg a) (hin : PromptsInVocab l.sched) :
    PromptsInVocab l'.sched := by
  refine promptsInVocab_reach hgood (serve_reach hgood.placed h) hin fun r hr hnew => ?_
  have hno : l'.sched.next = l.sched.next → False := fun he =>
    absurd hr (Nat.not_lt.mpr (he ▸ hnew))
  cases a with
  | generate body rid now =>
    cases h
    rcases l.generate_cases encode cfg body rid now with ⟨-, -, hnext⟩ | ⟨n, hn, hok, hs⟩
    · exact (hno hnext).elim
    · change r < (l.generate encode cfg body rid now).2.sched.next at hr
      change l.sched.next ≤ r at hnew
      show ∀ tok ∈ ((l.generate encode cfg body rid now).2.sched.heap r).promptTokenIds, InVocab tok
      rw [hs] at hr ⊢
      obtain rfl : r = l.sched.next := Nat.le_antisymm (Nat.le_of_lt_succ hr) hnew
      have hcell : (l.sched.create n.toRequest).heap l.sched.next = n.toRequest :=
        Function.update_self ..
      rw [hcell]
      exact toRequest_inVocab hencode hn (hids hok)
  | cancel x =>
    cases h
    exact (hno (by split <;> rfl)).elim
  | stop =>
    cases h
    exact (hno rfl).elim
  | advance => exact (hno (advance_next hgood.placed h)).elim

theorem serve_run (hencode : ∀ text, ∀ tok ∈ encode text, InVocab tok) :
    ∀ {acts : List ServerAction} {l l' : EngineLoop σ}, Good cfg m l.point →
      PromptsInVocab l.sched → RunInVocab encode env cfg l acts →
      run (EngineLoop.serve encode env cfg) l acts = .ok l' →
      Reach env cfg l.point l'.point ∧ PromptsInVocab l'.sched
  | [], l, l', _, hin, _, h => by
    cases h
    exact ⟨.refl, hin⟩
  | a :: acts, l, l', hgood, hin, hids, h => by
    obtain ⟨l₁, ha, h⟩ := exists_of_bind_ok h
    have hreach := serve_reach hgood.placed ha
    have hprompts := serve_prompts hencode hgood ha hids.1 hin
    obtain ⟨hlater, hprompts'⟩ :=
      serve_run hencode (hgood.ops hreach) hprompts (hids.2 l₁ ha) h
    exact ⟨hreach.trans hlater, hprompts'⟩

/--
**In a run whose bodies are in the vocabulary, every lookup is.** The ids of every body that was let
in are in the vocabulary, and so are those of the clients that came since, while a step was under
way. Then, at any moment inside or between steps, every id of a call of `step_tokens` has a row of
its own and is looked up there, the padding included; and whatever the engine thread raises, it
would raise without the lookups.
-/
theorem lookups_in_vocab (hm : m.Fresh) (henv : env.AnswersInVocab)
    (hencode : ∀ text, ∀ tok ∈ encode text, InVocab tok) {acts : List ServerAction}
    {l : EngineLoop σ}
    (hrun : run (EngineLoop.serve encode env.withLookup cfg) (.init cfg m w) acts = .ok l)
    (hids : RunInVocab encode env.withLookup cfg (.init cfg m w) acts)
    (hp : Reach env.withLookup cfg l.point p)
    (hnew : ∀ r < p.sched.next, l.sched.next ≤ r →
      ∀ tok ∈ (p.sched.heap r).promptTokenIds, InVocab tok) :
    (∀ rows, StepTokensCall p rows →
      (∀ row ∈ rows, ∀ tok ∈ row.tokens, InVocab tok) ∧
      embedRows (rows.map Row.tokens) =
        .ok ((padded (rows.map Row.tokens)).map fun row => row.map Int.toNat)) ∧
    ∀ e, Fault env.withLookup cfg p e → Fault env cfg p e := by
  have hstart : Good cfg m (EngineLoop.point (.init cfg m w)) := .init hm w
  obtain ⟨hreach, hprompts⟩ := serve_run hencode hstart nofun hids hrun
  have hgood := hstart.ops hreach
  have hgen := generated_ops henv.withLookup hstart (.init cfg m w) (hreach.trans hp)
  have hcall : ∀ rows, StepTokensCall p rows → ∀ row ∈ rows, ∀ tok ∈ row.tokens, InVocab tok :=
    fun rows => hgen.call (hgood.ops hp) (promptsInVocab_reach hgood hp hprompts hnew)
  refine ⟨fun rows hrows => ⟨hcall rows hrows, embedRows_ok fun toks htoks => ?_⟩,
    fun e => fault_of_withLookup hcall⟩
  obtain ⟨row, hrow, rfl⟩ := List.mem_map.mp htoks
  exact hcall rows hrows row hrow

/-- A model that always answers 5. -/
theorem answersInVocab_five : (Env.ofNext fun _ => 5).AnswersInVocab := by
  intro w rows nxt w' h tok htok
  cases h
  obtain ⟨row, -, rfl⟩ := List.mem_map.mp htok
  show InVocab 5
  decide

/-- One prompt as ids, one as text. -/
def helloBodies : List ServerAction :=
  [.generate { promptTokenIds := some [262, 3139] } "a" 0,
    .generate { prompt := some "hello".toList } "b" 1,
    .advance, .advance, .advance, .advance, .advance, .advance, .advance]

/-- Both are in the batch, whose next lookups are the tokens the model has answered with. -/
theorem lookups_in_vocab_hello :
    ∃ l rows, run (EngineLoop.serve (fun _ => [31373]) (Env.ofNext fun _ => 5).withLookup {})
        (.init {} (.slot (.new 2)) .start) helloBodies = .ok l ∧
      StepTokensCall l.point rows ∧ embedRows (rows.map Row.tokens) = .ok [[5], [5]] := by
  have hrun : ∃ l, run (EngineLoop.serve (fun _ => [31373]) (Env.ofNext fun _ => 5).withLookup {})
      (.init {} (.slot (.new 2)) .start) helloBodies = .ok l ∧
      l.point.sched.running = [0, 1] ∧
      ∃ rows, [0, 1].mapM l.point.sched.decodeRow = .ok rows ∧
        (padded (rows.map Row.tokens)).map (fun row => row.map Int.toNat) = [[5], [5]] := by
    decide +kernel
  obtain ⟨l, hl, hrunning, rows, hrows, hpad⟩ := hrun
  have hencode : ∀ text : Text, ∀ tok ∈ [31373], InVocab tok := fun _ => by decide
  have hm : (Manager.slot (.new 2)).Fresh := Manager.fresh_slot_new 2
  have hcall : StepTokensCall l.point rows := .decode [0, 1] rows (by rw [hrunning]; simp) hrows
  have hvocab := lookups_in_vocab hm answersInVocab_five hencode hl (runInVocab_of_bodies ?_) .refl
    fun r hr hnew => absurd hr (Nat.not_lt.mpr hnew)
  · refine ⟨l, rows, hl, hcall, ?_⟩
    rw [← hpad]
    exact (hvocab.1 rows hcall).2
  · intro body rid now hin
    simp only [helloBodies, List.mem_cons, ServerAction.generate.injEq, reduceCtorEq, List.not_mem_nil,
      or_false] at hin
    rcases hin with ⟨rfl, -, -⟩ | ⟨rfl, -, -⟩ <;> simp [GenerateIn.HasVocab, InVocab, vocabSize]

/-- **The handler lets an id in that has no row**, and the engine thread raises; an id of -1 is
looked up as the last row. -/
theorem lookup_out_of_vocab :
    run (EngineLoop.serve (fun _ => [31373]) (Env.ofNext fun _ => 5).withLookup {})
        (.init {} (.slot (.new 2)) .start)
        [.generate { promptTokenIds := some [50257] } "a" 0,
          .advance, .advance, .advance, .advance, .advance] =
      .error (.indexError "index 50257 is out of bounds for dimension 0 with size 50257") ∧
    (∃ l, run (EngineLoop.serve (fun _ => [31373]) (Env.ofNext fun _ => 5).withLookup {})
        (.init {} (.slot (.new 2)) .start)
        [.generate { promptTokenIds := some [-1] } "a" 0,
          .advance, .advance, .advance, .advance, .advance] = .ok l ∧
      .fed 0 0 [-1] ∈ l.sched.trace) ∧
    embedRows [[-1]] = .ok [[50256]] := by
  refine ⟨?_, ?_, ?_⟩ <;> decide +kernel

end LlmServe
