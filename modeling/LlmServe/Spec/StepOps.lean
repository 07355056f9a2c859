import LlmServe.Properties.Placement

/-!
# `step` takes small steps

Each method of the scheduler is a sequence of small steps (`StepOp`), and when it raises, it does so at
a point some small steps lead to (`Fault`). There is one lemma for each method, in the order of
the source; `step_outcome` composes them.

`running` is rebuilt at the end of `_retire`, while the small steps take each request out as it
leaves; `retireLoop_outcome` is where the two are matched.
-/

namespace LlmServe

open Infra Point

variable {σ : Type} {env : Env σ} {cfg : EngineConfig} {adm : Point σ → Ref → Prop}

abbrev Does (env : Env σ) (cfg : EngineConfig) (adm : Point σ → Ref → Prop) {β : Type}
    (p : Point σ) (c : Except PyError β) (Q : β → Point σ → Prop) : Prop :=
  Outcome (StepOp env cfg adm) (Fault env cfg) p c Q

theorem op_one {p p' : Point σ} (h : StepOp env cfg adm p p') : StepOps env cfg adm p p' := .single h

/-! ## `_retire` -/

theorem markCancelled_running (s : Scheduler σ) (r : Ref) :
    (s.markCancelled env r).running = s.running := by
  rcases Scheduler.markCancelled_cases env s r with he | ⟨-, -, -, now, ht⟩
  · rw [he]
  · exact ht.running

theorem markCancelled_ops (inbox : List Ref) : ∀ (l : List Ref) (s : Scheduler σ),
    (∀ r ∈ l, r ∈ s.running) →
    StepOps env cfg adm (rest s inbox) (rest (l.foldl (Scheduler.markCancelled env) s) inbox)
  | [], _, _ => .refl
  | r :: l, s, hl => by
    have hop : StepOp env cfg adm (rest s inbox) (rest (s.markCancelled env r) inbox) :=
      .markCancelled _ r (idle_rest s inbox) (hl r List.mem_cons_self)
    refine .head hop (markCancelled_ops inbox l _ fun x hx => ?_)
    rw [markCancelled_running]
    exact hl x (List.mem_cons_of_mem _ hx)

theorem free_withRunning (s : Scheduler σ) (r : Ref) (l : List Ref) :
    { s with running := l }.free r = (s.free r).map fun s' => { s' with running := l } := by
  unfold Scheduler.free
  dsimp only
  cases s.manager.free (s.heap r) <;> rfl

theorem recordRequest_withRunning (s : Scheduler σ) (r : Ref) (l : List Ref) :
    { s with running := l }.recordRequest r =
      (s.recordRequest r).map fun s' => { s' with running := l } := by
  unfold Scheduler.recordRequest
  dsimp only
  cases s.metrics.recordRequest (s.heap r) <;> rfl

/-- `leave` neither reads nor changes `running`. -/
theorem leave_withRunning (s : Scheduler σ) (r : Ref) (l : List Ref) :
    { s with running := l }.leave r = (s.leave r).map fun s' => { s' with running := l } := by
  let f : Request → Request := fun q => { q with state := .finished }
  have hleave : ∀ t : Scheduler σ, t.leave r = (t.modify r f).free r >>= fun t =>
      if (t.heap r).finishReason ≠ some .cancelled then t.recordRequest r else .ok t :=
    fun _ => rfl
  have hmodify : { s with running := l }.modify r f = { s.modify r f with running := l } := rfl
  rw [hleave, hleave, hmodify, free_withRunning]
  cases (s.modify r f).free r with
  | error e => rfl
  | ok s' =>
    change (if (s'.heap r).finishReason ≠ some .cancelled then
        ({ s' with running := l } : Scheduler σ).recordRequest r else .ok { s' with running := l })
      = Except.map _ (if (s'.heap r).finishReason ≠ some .cancelled then s'.recordRequest r
        else .ok s')
    split
    · exact recordRequest_withRunning s' r l
    · rfl

theorem retireLoop_outcome (inbox : List Ref) : ∀ (l keep : List Ref) (s : Scheduler σ),
    Does env cfg adm (rest { s with running := keep ++ l } inbox) (Scheduler.retireLoop l keep s)
      fun b p => p = rest { b.2 with running := b.1 } inbox
  | [], keep, s => by
    rw [List.append_nil]
    exact .pure .refl rfl
  | r :: l, keep, s => by
    unfold Scheduler.retireLoop
    split
    · next hfin =>
      have hleave := leave_withRunning s r (keep ++ r :: l)
      cases hs : s.leave r with
      | error e =>
        rw [hs] at hleave
        exact .raise .refl (.leave _ r e (idle_rest ..) (by simp [rest]) hfin hleave)
      | ok s' =>
        rw [hs] at hleave
        have hop : StepOp env cfg adm (rest { s with running := keep ++ r :: l } inbox)
            (rest { s' with running := keep ++ l } inbox) :=
          .leave _ { s' with running := keep ++ r :: l } keep l r (idle_rest ..) rfl hfin hleave
        exact (retireLoop_outcome inbox l keep s').after (op_one hop)
    · have h := retireLoop_outcome inbox l (keep ++ [r]) s
      rwa [List.append_assoc, List.singleton_append] at h

theorem retire_outcome (s : Scheduler σ) (inbox : List Ref) :
    Does env cfg adm (rest s inbox) (s.retire env) fun s' p => p = rest s' inbox := by
  have hdrop : StepOp env cfg adm (rest s inbox) (rest { s with
      waiting := s.waiting.filter fun r => !(s.heap r).cancelled } inbox) :=
    .dropCancelled _ (idle_rest ..)
  refine .after (op_one hdrop) (.after (markCancelled_ops inbox _ _ fun _ h => h) ?_)
  unfold Scheduler.retire
  refine (retireLoop_outcome inbox _ [] _).bind fun b p _ _ hb => ?_
  exact .pure .refl hb

/-! ## `_prefill` -/

theorem prefillEmit_ops (inbox popped batch : List Ref) :
    ∀ (due : List (Ref × Token)) (s : Scheduler σ), (∀ x ∈ due, x.1 ∈ batch) →
    StepOps env cfg adm { sched := s, inbox, popped, batch, due }
      { sched := due.foldl (Scheduler.prefillEmit env) s, inbox, popped, batch }
  | [], _, _ => .refl
  | (r, tok) :: due, s, hb => by
    let s₁ := s.modify r fun q => { q with state := .running }
    have hrun : StepOp env cfg adm { sched := s, inbox, popped, batch, due := (r, tok) :: due }
        { sched := s₁, inbox, popped, batch, due := (r, tok) :: due } :=
      .setRunning _ r (hb _ List.mem_cons_self)
    have hemit : StepOp env cfg adm { sched := s₁, inbox, popped, batch, due := (r, tok) :: due }
        { sched := s₁.emit env r tok, inbox, popped, batch, due } := .emit _ r tok due rfl
    exact .head hrun (.head hemit (prefillEmit_ops inbox popped batch due _
      fun x hx => hb x (List.mem_cons_of_mem _ hx)))

/-- `_prefill`, with the reading of its clock left open. -/
theorem prefill_eq (env : Env σ) (s : Scheduler σ) (batch : List Ref) :
    ∃ dt : List Token × Scheduler σ → Time, s.prefill env batch =
      ((s.perfCounter env).2.stepTokens env
        (batch.map (s.perfCounter env).2.prefillRow) >>= fun b =>
      let s₁ := { (b.2.perfCounter env).2 with
        metrics := (b.2.metrics.write (.prefills batch.length)).write (.prefillSeconds (dt b)) }
      let s₂ := (batch.zip b.1).foldl (Scheduler.prefillEmit env) s₁
      .ok { s₂ with running := s₂.running ++ batch }) :=
  ⟨_, rfl⟩

theorem prefill_outcome (env : Env σ) (cfg : EngineConfig) (adm : Point σ → Ref → Prop)
    (s : Scheduler σ) (inbox batch rest : List Ref) :
    Does env cfg adm (admitting s inbox (batch ++ rest)) (s.prefill env batch)
      fun s' p => p = admitting s' inbox rest := by
  obtain ⟨dt, heq⟩ := prefill_eq env s batch
  rw [heq]
  refine .after (op_one (.clock _)) ?_
  refine Outcome.bind (Q := fun b p =>
    p = { sched := b.2, inbox, popped := rest, batch, due := batch.zip b.1
          owed := [.prefills batch.length] }) ?_ ?_
  · cases hf : (s.perfCounter env).2.stepTokens env
        (batch.map (s.perfCounter env).2.prefillRow) with
    | error e => exact .raise .refl (.prefill _ batch rest e rfl (Scheduler.stepTokens_error hf))
    | ok b => exact .pure (op_one (.prefill _ b.2 batch rest b.1 rfl rfl rfl hf)) rfl
  · rintro b p - - rfl
    let met := b.2.metrics.write (.prefills batch.length)
    have hcount : StepOps env cfg adm
        { sched := b.2, inbox, popped := rest, batch, due := batch.zip b.1
          owed := [.prefills batch.length] }
        { sched := { b.2 with metrics := met }, inbox, popped := rest, batch
          due := batch.zip b.1 } := op_one (.count _ met [] (.prefills _ _ rfl))
    have htime : StepOps env cfg adm
        { sched := { b.2 with metrics := met }, inbox, popped := rest, batch, due := batch.zip b.1 }
        { sched := { (b.2.perfCounter env).2 with metrics := met.write (.prefillSeconds (dt b)) }
          inbox, popped := rest, batch, due := batch.zip b.1 } :=
      .head (.clock _) (op_one (.count _ _ _ (.line _ trivial)))
    have hmem : ∀ x ∈ batch.zip b.1, x.1 ∈ batch := fun x hx => (List.of_mem_zip hx).1
    exact .pure (.trans (hcount.trans htime)
      (.tail (prefillEmit_ops inbox rest batch (batch.zip b.1) _ hmem) (.join _ rfl))) rfl

theorem prefillEach_outcome (inbox : List Ref) : ∀ (l : List Ref) (s : Scheduler σ),
    Does env cfg adm (admitting s inbox l) (Scheduler.prefillEach env l s)
      fun s' p => p = rest s' inbox
  | [], _ => .pure .refl rfl
  | r :: l, s => by
    refine (prefill_outcome env cfg adm s inbox [r] l).bind ?_
    rintro s' p - - rfl
    exact prefillEach_outcome inbox l s'

/-! ## `_pop_admissible` and `_admit` -/

/-- Every round of `_pop_admissible` that admits a request keeps the promise `adm`. -/
def PopKeeps (adm : Point σ → Ref → Prop) (inbox : List Ref) (limit : Nat) :
    List Ref → List Ref → Scheduler σ → Prop
  | [], _, _ => True
  | r :: rest, batch, s =>
    batch.length < limit ∧
        s.manager.canAllocate (s.heap r) (s.running.length + batch.length) = true →
      adm (admitting s inbox batch) r ∧ ∀ s', { s with waiting := rest }.allocate r = .ok s' →
        PopKeeps adm inbox limit rest (batch ++ [r]) (s'.stampAdmit r)

/-- How many requests `_admit` may pop. -/
def admitLimit (cfg : EngineConfig) (s : Scheduler σ) : Nat :=
  match cfg.batching with
  | .static => if s.running ≠ [] then 0 else cfg.maxBatch
  | .continuous => cfg.maxBatch - s.running.length

/-- The call of `step` keeps the promise `adm` at each admission. -/
def StepKeeps (adm : Point σ → Ref → Prop) (env : Env σ) (cfg : EngineConfig) (inbox : List Ref)
    (s : Scheduler σ) : Prop :=
  ∀ s₁, s.retire env = .ok s₁ →
    PopKeeps adm inbox (admitLimit cfg s₁) (Scheduler.sortWaiting s₁.heap s₁.waiting) []
      { s₁ with waiting := Scheduler.sortWaiting s₁.heap s₁.waiting }

instance decidablePopKeeps [∀ p r, Decidable (adm p r)] (inbox : List Ref) (limit : Nat) :
    ∀ (l batch : List Ref) (s : Scheduler σ), Decidable (PopKeeps adm inbox limit l batch s)
  | [], _, _ => isTrue trivial
  | r :: rest, batch, s =>
    have := fun s' : Scheduler σ =>
      decidablePopKeeps inbox limit rest (batch ++ [r]) (s'.stampAdmit r)
    inferInstanceAs (Decidable (batch.length < limit ∧
        s.manager.canAllocate (s.heap r) (s.running.length + batch.length) = true →
      adm (admitting s inbox batch) r ∧ ∀ s', { s with waiting := rest }.allocate r = .ok s' →
        PopKeeps adm inbox limit rest (batch ++ [r]) (s'.stampAdmit r)))

instance [∀ p r, Decidable (adm p r)] (inbox : List Ref) (s : Scheduler σ) :
    Decidable (StepKeeps adm env cfg inbox s) :=
  inferInstanceAs (Decidable (∀ s₁, s.retire env = .ok s₁ → _))

theorem popKeeps_true (inbox : List Ref) (limit : Nat) : ∀ (l batch : List Ref) (s : Scheduler σ),
    PopKeeps (fun _ _ => True) inbox limit l batch s
  | [], _, _ => trivial
  | _ :: l, _, _ => fun _ => ⟨trivial, fun _ _ => popKeeps_true inbox limit l _ _⟩

theorem stepKeeps_true (env : Env σ) (cfg : EngineConfig) (inbox : List Ref) (s : Scheduler σ) :
    StepKeeps (fun _ _ => True) env cfg inbox s := fun _ _ => popKeeps_true ..

theorem popLoop_outcome (inbox : List Ref) (limit : Nat) :
    ∀ (l batch : List Ref) (s : Scheduler σ), s.waiting = l →
    l.Pairwise (fun a b => Scheduler.waitingKey (s.heap a) ≤ Scheduler.waitingKey (s.heap b)) →
    (∀ n < limit, s.running.length + n < cfg.maxBatch) → Placed cfg (admitting s inbox batch) →
    PopKeeps adm inbox limit l batch s →
    Does env cfg adm (admitting s inbox batch) (Scheduler.popLoop limit l batch s)
      fun b p => p = admitting b.2 inbox b.1
  | [], batch, s, _, _, _, _, _ => .pure .refl rfl
  | r :: l, batch, s, hw, hsorted, hlimit, hp, hkeeps => by
    unfold Scheduler.popLoop
    split
    · next hcond =>
      cases ha : { s with waiting := l }.allocate r with
      | error e => exact .raise .refl (.admitHead _ r l e rfl hw hcond.2 ha)
      | ok s₁ =>
        have hop : StepOp env cfg adm (admitting s inbox batch)
            (admitting (s₁.stampAdmit r) inbox (batch ++ [r])) :=
          .admitHead _ s₁ r l rfl rfl hw (hw ▸ hsorted) (hlimit _ hcond.1) hcond.2 (hkeeps hcond).1 ha
        have hp' := placed_op (.step hop) hp
        obtain ⟨q, hq⟩ := Scheduler.stampAdmit_admitted ha
        refine .after (op_one hop) ?_
        refine popLoop_outcome inbox limit l (batch ++ [r]) (s₁.stampAdmit r) hq.waiting ?_ ?_ hp'
          ((hkeeps hcond).2 s₁ ha)
        · -- the rest of the queue keeps its keys
          have hr : r ∉ l := (List.nodup_cons.mp (hw ▸ hp.waiting_nodup)).1
          refine (List.pairwise_cons.mp hsorted).2.imp_of_mem fun {a b} hma hmb hab => ?_
          have hne : ∀ x ∈ l, x ≠ r := by
            rintro x hx rfl
            exact hr hx
          rwa [hq.heap, Function.update_of_ne (hne a hma), Function.update_of_ne (hne b hmb)]
        · rw [hq.running]
          exact hlimit
    · exact .pure .refl rfl

theorem popAdmissible_outcome (s : Scheduler σ) (inbox : List Ref) {limit : Nat}
    (hlimit : ∀ n < limit, s.running.length + n < cfg.maxBatch) (hp : Placed cfg (rest s inbox))
    (hkeeps : PopKeeps adm inbox limit (Scheduler.sortWaiting s.heap s.waiting) []
      { s with waiting := Scheduler.sortWaiting s.heap s.waiting }) :
    Does env cfg adm (rest s inbox) (s.popAdmissible limit)
      fun b p => p = admitting b.2 inbox b.1 := by
  have hop : StepOp env cfg adm (rest s inbox)
      (rest { s with waiting := Scheduler.sortWaiting s.heap s.waiting } inbox) :=
    .sort _ (idle_rest ..)
  exact .after (op_one hop) (popLoop_outcome inbox limit _ [] _ rfl (sortKey_sorted _ _) hlimit
    (placed_op (.step hop) hp) hkeeps)

theorem admit_outcome (s : Scheduler σ) (inbox : List Ref) (hp : Placed cfg (rest s inbox))
    (hkeeps : PopKeeps adm inbox (admitLimit cfg s) (Scheduler.sortWaiting s.heap s.waiting) []
      { s with waiting := Scheduler.sortWaiting s.heap s.waiting }) :
    Does env cfg adm (rest s inbox) (s.admitWaiting env cfg) fun s' p => p = rest s' inbox := by
  unfold Scheduler.admitWaiting
  unfold admitLimit at hkeeps
  revert hkeeps
  cases cfg.batching with
  | static =>
    intro hkeeps
    by_cases hrun : s.running = []
    · simp only [if_neg (show ¬s.running ≠ [] by simpa using hrun)] at hkeeps ⊢
      refine (popAdmissible_outcome s inbox (by simp [hrun]) hp hkeeps).bind ?_
      rintro ⟨batch, s₁⟩ p - - rfl
      by_cases hb : batch = []
      · subst hb
        exact .pure .refl rfl
      · show Does env cfg adm _ (if batch ≠ [] then s₁.prefill env batch else .ok s₁) _
        rw [if_pos hb]
        have h := prefill_outcome env cfg adm s₁ inbox batch []
        rw [List.append_nil] at h
        exact h
    · rw [if_pos hrun]
      exact .pure .refl rfl
  | continuous =>
    intro hkeeps
    have hlimit : ∀ n < cfg.maxBatch - s.running.length, s.running.length + n < cfg.maxBatch := by
      omega
    refine (popAdmissible_outcome s inbox hlimit hp hkeeps).bind ?_
    rintro ⟨batch, s₁⟩ p - - rfl
    exact prefillEach_outcome inbox batch s₁

/-! ## `_ensure_capacity` -/

/-- The rows `_ensure_capacity` works on: open, running, the first `i` with room for their next
token. -/
structure Rows (s : Scheduler σ) (active : List Ref) (i : Nat) : Prop where
  nodup : active.Nodup
  running : ∀ r ∈ active, r ∈ s.running
  unfinished : ∀ r ∈ active, (s.heap r).finished = false
  covered : ∀ (j : Nat) (r : Ref), j < i → active[j]? = some r → Covered s r

/-- `append_slot` touches nobody else's room. -/
theorem covered_appendSlot {s : Scheduler σ} {r x : Ref} (hx : x ≠ r) (h : Covered s x) :
    Covered (s.appendSlot r).2 x := by
  have ht := (s.appendSlot_touches r).2
  obtain ⟨-, -, -, hshape, -⟩ := s.manager.appendSlot_spec (s.heap r)
  have hm := (s.appendSlot_touches r).1
  intro hp
  rw [hm] at hp ⊢
  rw [ht.other hx, hshape.unitsNeeded]
  exact h (hshape.paged.symm.trans hp)

theorem covered_of_appendSlot {s : Scheduler σ} {r : Ref} (h : (s.appendSlot r).1 = true) :
    Covered (s.appendSlot r).2 r := by
  have ht := (s.appendSlot_touches r).2
  have hm := (s.appendSlot_touches r).1
  obtain ⟨blocks, hq, -, hshape, -, -, -, htrue, -⟩ := s.manager.appendSlot_spec (s.heap r)
  intro hp
  rw [hm] at hp ⊢
  rw [ht.self, hq, hshape.unitsNeeded]
  exact htrue h (hshape.paged.symm.trans hp)

theorem Rows.appendSlot {s : Scheduler σ} {active : List Ref} {i : Nat} {r : Ref}
    (h : Rows s active i) (hr : active[i]? = some r) : Rows (s.appendSlot r).2 active i := by
  obtain ⟨blocks, hq, -⟩ := s.manager.appendSlot_spec (s.heap r)
  have ht := (s.appendSlot_touches r).2
  refine ⟨h.nodup, fun x hx => ?_, fun x hx => ?_, fun j x hj hx => ?_⟩
  · rw [ht.running]
    exact h.running x hx
  · have hfin : ((s.appendSlot r).2.heap x).finishReason = (s.heap x).finishReason := by
      rw [ht.heap, hq]
      exact apply_update Request.finishReason (by rfl) x
    unfold Request.finished
    rw [hfin]
    exact h.unfinished x hx
  · have hxr : x ≠ r := by
      rintro rfl
      have := (List.getElem?_inj (List.getElem?_eq_some_iff.mp hx).1 h.nodup).mp (hx.trans hr.symm)
      omega
    exact covered_appendSlot hxr (h.covered j x hj hx)

/-- The next row is covered, too. -/
theorem Rows.grow {s : Scheduler σ} {active : List Ref} {i : Nat} {r : Ref} (h : Rows s active i)
    (hr : active[i]? = some r) (hok : (s.appendSlot r).1 = true) :
    Rows (s.appendSlot r).2 active (i + 1) := by
  have hrows := h.appendSlot hr
  refine ⟨hrows.nodup, hrows.running, hrows.unfinished, fun j x hj hx => ?_⟩
  rcases Nat.lt_succ_iff_lt_or_eq.mp hj with hlt | rfl
  · exact hrows.covered j x hlt hx
  · have hxr : x = r := by simpa [hr] using hx.symm
    rw [hxr]
    exact covered_of_appendSlot hok

theorem Rows.length_le {s : Scheduler σ} {active : List Ref} {i : Nat} (h : Rows s active i) :
    active.length ≤ s.running.length := (h.nodup.subperm h.running).length_le

/-- Past the end of the list every row is covered. -/
theorem Rows.all {s : Scheduler σ} {active : List Ref} {i : Nat} (h : Rows s active i)
    (hle : active.length ≤ i) : Rows s active active.length :=
  ⟨h.nodup, h.running, h.unfinished, fun j r hj hr => h.covered j r (hj.trans_le hle) hr⟩

theorem mem_of_victim {heap : Ref → Request} {active : List Ref} {v : Ref}
    (h : Scheduler.victim heap active = some v) : v ∈ active := mem_of_minKey _ h

/-- `active.index(victim)` is the place of the victim itself. -/
theorem getElem?_of_index {s : Scheduler σ} {inbox : List Ref} (hp : Placed cfg (rest s inbox))
    {active : List Ref} {v : Ref} {vi : Nat} (hrun : ∀ r ∈ active, r ∈ s.running)
    (hv : v ∈ active) (hvi : Scheduler.index s.heap v active = some vi) : active[vi]? = some v := by
  obtain ⟨hlt, heq, -⟩ := List.findIdx?_eq_some_iff_getElem.mp hvi
  have hmem : active[vi] ∈ active := List.getElem_mem hlt
  have hsame : active[vi] = v :=
    hp.eq_of_heap_eq (mem_held_of_running (hrun _ hmem)) (mem_held_of_running (hrun v hv))
      (of_decide_eq_true heq)
  rw [List.getElem?_eq_getElem hlt, hsame]

theorem covered_preempt {s s' : Scheduler σ} {v x : Ref} (h : s.preempt v = .ok s') (hx : x ≠ v)
    (hc : Covered s x) : Covered s' x := by
  obtain ⟨q, hq⟩ := Scheduler.preempt_ok h
  have hshape := (Manager.free_ok hq.free).2.1
  intro hp
  rw [hq.heap, Function.update_of_ne hx, hshape.unitsNeeded]
  exact hc (hshape.paged.symm.trans hp)

theorem Rows.preempt {s s' : Scheduler σ} {inbox active : List Ref} {i vi : Nat} {v : Ref}
    (h : Rows s active i) (hp : Placed cfg (rest s inbox)) (hv : active[vi]? = some v)
    (hpre : s.preempt v = .ok s') :
    Rows s' (active.eraseIdx vi) (if vi < i then i - 1 else i) := by
  obtain ⟨q, hq⟩ := Scheduler.preempt_ok hpre
  have hva : v ∈ active := List.mem_of_getElem? hv
  have hrun := hp.preempted_running (h.running v hva) hq
  obtain ⟨hlt, hget⟩ := List.getElem?_eq_some_iff.mp hv
  have herase : active.eraseIdx vi = active.erase v := by
    rw [← hget, h.nodup.erase_getElem]
  have hmem : ∀ x, x ∈ active.eraseIdx vi → x ≠ v ∧ x ∈ active := by
    intro x hx
    rw [herase] at hx
    exact h.nodup.mem_erase_iff.mp hx
  refine ⟨h.nodup.sublist (List.eraseIdx_sublist ..), fun x hx => ?_, fun x hx => ?_,
    fun j x hj hx => ?_⟩
  · obtain ⟨hxv, hxa⟩ := hmem x hx
    rw [hrun]
    exact (List.mem_erase_of_ne hxv).mpr (h.running x hxa)
  · obtain ⟨hxv, hxa⟩ := hmem x hx
    rw [hq.heap, Function.update_of_ne hxv]
    exact h.unfinished x hxa
  · obtain ⟨hxv, -⟩ := hmem x (List.mem_of_getElem? hx)
    refine covered_preempt hpre hxv ?_
    rw [List.getElem?_eraseIdx] at hx
    split at hx
    · exact h.covered j x (by split at hj <;> omega) hx
    · exact h.covered (j + 1) x (by split at hj <;> omega) hx

theorem ensureLoop_outcome (inbox : List Ref) (s : Scheduler σ) (active : List Ref) (i : Nat)
    (hp : Placed cfg (rest s inbox)) (hrows : Rows s active i) :
    Does env cfg adm (rest s inbox) (Scheduler.ensureLoop cfg s active i)
      fun b p => p = rest b.2 inbox ∧ Rows b.2 b.1 b.1.length := by
  have hgrow : ∀ {s : Scheduler σ} {active : List Ref} {i : Nat} {r : Ref}, Rows s active i →
      active[i]? = some r → StepOp env cfg adm (rest s inbox) (rest (s.appendSlot r).2 inbox) :=
    fun h hr =>
      have hmem := List.mem_of_getElem? hr
      .grow _ _ (idle_rest ..) (h.running _ hmem) (h.unfinished _ hmem)
  fun_induction Scheduler.ensureLoop cfg s active i with
  | case1 s active i hnone =>
    exact .pure .refl ⟨rfl, hrows.all (List.getElem?_eq_none_iff.mp hnone)⟩
  | case2 s active i r hr s₁ happ ih =>
    have hs : s₁ = (s.appendSlot r).2 := by rw [happ]
    have hrows' := hrows.grow hr (by rw [happ])
    have hop := hgrow hrows hr
    rw [← hs] at hop hrows'
    exact .after (op_one hop) (ih (placed_op (.step hop) hp) hrows')
  | case3 s active i r hr s₁ happ hpre =>
    have hmem := List.mem_of_getElem? hr
    exact .raise .refl (.capacity _ r (idle_rest ..) (hrows.running r hmem)
      (hrows.unfinished r hmem) hpre (by rw [rest, happ]))
  | case4 s active i r hr s₁ happ hpre hv =>
    -- the list of rows is not empty: `r` is in it
    have hnil := (minKey_eq_none _).mp hv
    simp [hnil] at hr
  | case5 s active i r hr s₁ happ hpre v hv hvi =>
    -- the victim comes from the rows
    have hnone := List.findIdx?_eq_none_iff.mp hvi v (mem_of_victim hv)
    simp at hnone
  | case6 s active i r hr s₁ happ hpre v hv vi hvi e he =>
    have hs : s₁ = (s.appendSlot r).2 := by rw [happ]
    have hrows' := hrows.appendSlot hr
    have hop := hgrow hrows hr
    rw [← hs] at hop hrows'
    exact .raise (op_one hop) (.preempt _ v e (idle_rest ..) (hrows'.running v (mem_of_victim hv))
      (by simpa using hpre) he)
  | case7 s active i r hr s₁ happ hpre v hv vi hvi s₂ hs₂ ih =>
    have hs : s₁ = (s.appendSlot r).2 := by rw [happ]
    have hrows' := hrows.appendSlot hr
    have hop := hgrow hrows hr
    rw [← hs] at hop hrows'
    have hp₁ := placed_op (.step hop) hp
    have hva := mem_of_victim hv
    have hget := getElem?_of_index hp₁ hrows'.running hva hvi
    have hop₂ : StepOp env cfg adm (rest s₁ inbox) (rest s₂ inbox) :=
      .preempt _ s₂ v (idle_rest ..) (hrows'.running v hva) (hrows'.unfinished v hva)
        (by simpa using hpre) hs₂
    simp only [dite_eq_ite] at ih
    exact .after (.tail (op_one hop) hop₂)
      (ih (placed_op (.step hop₂) hp₁) (hrows'.preempt hp₁ hget hs₂))

theorem ensureCapacity_outcome (s : Scheduler σ) (inbox batch : List Ref)
    (hp : Placed cfg (rest s inbox)) (hnd : batch.Nodup) (hrun : ∀ r ∈ batch, r ∈ s.running)
    (hfin : ∀ r ∈ batch, (s.heap r).finished = false) :
    Does env cfg adm (rest s inbox) (s.ensureCapacity cfg batch)
      fun b p => p = rest b.2 inbox ∧ Rows b.2 b.1 b.1.length := by
  have hperm : (Scheduler.sortAdmitted s.heap batch).Perm batch := sortKey_perm _ _
  refine ensureLoop_outcome inbox s _ 0 hp ⟨hperm.nodup_iff.mpr hnd, fun r hr => ?_,
    fun r hr => ?_, fun j r hj => absurd hj (Nat.not_lt_zero j)⟩
  · exact hrun r (hperm.mem_iff.mp hr)
  · exact hfin r (hperm.mem_iff.mp hr)

/-! ## `_decode` and `step` -/

theorem emit_ops (inbox : List Ref) : ∀ (due : List (Ref × Token)) (s : Scheduler σ),
    StepOps env cfg adm { sched := s, inbox, due }
      (rest (due.foldl (fun s p => s.emit env p.1 p.2) s) inbox)
  | [], _ => .refl
  | (r, tok) :: due, s => by
    have hemit : StepOp env cfg adm { sched := s, inbox, due := (r, tok) :: due }
        { sched := s.emit env r tok, inbox, due } := .emit _ r tok due rfl
    exact .head hemit (emit_ops inbox due _)

/-- The rest of `_decode`, with the reading of its clock left open. -/
theorem decodeBatch_eq (env : Env σ) (s : Scheduler σ) (batch : List Ref) :
    ∃ dt : Scheduler σ → Time, ∀ s₀ : Scheduler σ,
      s₀ = ({ s with metrics := s.metrics.write (.peakBatch batch.length) }.perfCounter env).2 →
      s.decodeBatch env batch =
        (batch.mapM s₀.decodeRow >>= fun rows =>
        s₀.stepTokens env rows >>= fun b =>
        { (b.2.perfCounter env).2 with metrics := b.2.metrics.write (.decodeSeconds (dt b.2)) }.recordStep
          env batch.length >>= fun s₁ =>
        .ok ((batch.zip b.1).foldl (fun s p => s.emit env p.1 p.2) s₁)) := by
  refine ⟨fun t => (env.perfCounter t.world).1 - (env.perfCounter s.world).1, ?_⟩
  rintro s₀ rfl
  rfl

theorem recordStep_cases (env : Env σ) (s : Scheduler σ) (occupied : Nat) :
    (s.manager.stats s.heap).total = 0 ∧ s.recordStep env occupied = .error .zeroDivisionError ∨
      ∃ met, s.recordStep env occupied = .ok { s with metrics := met } := by
  unfold Scheduler.recordStep
  by_cases h : (s.manager.stats s.heap).total = 0
  · exact Or.inl ⟨h, if_pos h⟩
  · exact Or.inr ⟨_, if_neg h⟩

/-- A `mapM` raises what one of its elements raises. -/
theorem exists_of_mapM_error {ε α β : Type} {f : α → Except ε β} {e : ε} :
    ∀ {l : List α}, l.mapM f = .error e → ∃ a ∈ l, f a = .error e
  | [], h => by
    rw [List.mapM_nil] at h
    cases h
  | a :: l, h => by
    rw [List.mapM_cons] at h
    cases ha : f a with
    | error e' =>
      rw [ha] at h
      cases h
      exact ⟨a, List.mem_cons_self, ha⟩
    | ok b =>
      cases hl : l.mapM f with
      | error e' =>
        rw [ha, hl] at h
        cases h
        obtain ⟨x, hx, he⟩ := exists_of_mapM_error hl
        exact ⟨x, List.mem_cons_of_mem _ hx, he⟩
      | ok bs =>
        rw [ha, hl] at h
        cases h

theorem decodeBatch_outcome (s : Scheduler σ) (inbox batch : List Ref) (hne : batch ≠ [])
    (hrows : Rows s batch batch.length) :
    Does env cfg adm (rest s inbox) (s.decodeBatch env batch) fun s' p => p = rest s' inbox := by
  obtain ⟨dt, heq⟩ := decodeBatch_eq env s batch
  generalize hs₀ :
    ({ s with metrics := s.metrics.write (.peakBatch batch.length) }.perfCounter env).2 = s₀ at heq
  rw [heq s₀ rfl]
  have hcov : ∀ r ∈ batch, Covered s₀ r := by
    subst hs₀
    intro r hr
    obtain ⟨j, hj, hget⟩ := List.getElem_of_mem hr
    exact hrows.covered j r hj (by rw [List.getElem?_eq_getElem hj, hget])
  have hrun : ∀ r ∈ batch, r ∈ s₀.running := by subst hs₀; exact hrows.running
  have hfin : ∀ r ∈ batch, (s₀.heap r).finished = false := by subst hs₀; exact hrows.unfinished
  have hstart : StepOps env cfg adm (rest s inbox) (rest s₀ inbox) := by
    subst hs₀
    exact .head (.count _ _ _ (.line (.peakBatch batch.length) hrows.length_le)) (op_one (.clock _))
  refine .after hstart ?_
  cases hm : batch.mapM s₀.decodeRow with
  | error e =>
    obtain ⟨r, hr, he⟩ := exists_of_mapM_error hm
    exact .raise .refl (.decodeRow _ r e (idle_rest ..) (hrun r hr) he)
  | ok rows =>
    show Does env cfg adm _ (s₀.stepTokens env rows >>= _) _
    have hforward : Does env cfg adm (rest s₀ inbox) (s₀.stepTokens env rows)
        fun b p => p = { sched := b.2, inbox, due := batch.zip b.1
                         owed := [.recordStep batch.length] } := by
      cases hf : s₀.stepTokens env rows with
      | error e =>
        exact .raise .refl (.decode _ batch rows e hrun hm (Scheduler.stepTokens_error hf))
      | ok b =>
        exact .pure (op_one (.decode _ b.2 batch rows b.1 (idle_rest ..) hrows.nodup hrun hfin hcov
          hm hf)) rfl
    refine hforward.bind ?_
    rintro b p hf - rfl
    let met := b.2.metrics.write (.decodeSeconds (dt b.2))
    have htime : StepOps env cfg adm
        { sched := b.2, inbox, due := batch.zip b.1, owed := [.recordStep batch.length] }
        { sched := { (b.2.perfCounter env).2 with metrics := met }, inbox, due := batch.zip b.1
          owed := [.recordStep batch.length] } :=
      .head (.clock _) (op_one (.count _ met _ (.line _ trivial)))
    refine .after htime ?_
    rcases recordStep_cases env { (b.2.perfCounter env).2 with metrics := met }
      batch.length with ⟨htotal, he⟩ | ⟨met₂, he⟩
    · rw [he]
      obtain ⟨r, hr⟩ := List.exists_mem_of_ne_nil _ hne
      refine .raise .refl (.recordStep _ r ?_ ?_ htotal)
      · obtain ⟨w, -, hb⟩ := Scheduler.stepTokens_ok hf
        show r ∈ b.2.running
        rw [hb]
        exact hrun r hr
      · show r ∈ (batch.zip b.1).map Prod.fst
        rwa [Placed.decode_refs hm hf]
    · rw [he]
      have hpos : 0 < batch.length := List.length_pos_iff.mpr hne
      exact .pure (.head (.count _ met₂ [] (.recordStep _ _ _ rfl hpos he)) (emit_ops inbox _ _)) rfl

theorem decode_outcome (s : Scheduler σ) (inbox : List Ref) (hp : Placed cfg (rest s inbox)) :
    Does env cfg adm (rest s inbox) (s.decode env cfg) fun s' p => p = rest s' inbox := by
  by_cases hnil : s.running.filter (fun r => !(s.heap r).finished) = []
  · rw [Scheduler.decode, if_pos hnil]
    exact .pure .refl rfl
  · rw [Scheduler.decode, if_neg hnil]
    refine (ensureCapacity_outcome s inbox _ hp (hp.running_nodup.filter _)
      (fun r hr => (List.mem_filter.mp hr).1) fun r hr => by simpa using (List.mem_filter.mp hr).2).bind
      ?_
    rintro ⟨batch, s₁⟩ p - - ⟨rfl, hrows⟩
    by_cases hb : batch = []
    · subst hb
      exact .pure .refl rfl
    · show Does env cfg adm _ (if batch = [] then .ok s₁ else s₁.decodeBatch env batch) _
      rw [if_neg hb]
      exact decodeBatch_outcome s₁ inbox batch hb hrows

/-- **A call of `step` takes small steps, whatever it returns.** -/
theorem step_outcome (env : Env σ) (s : Scheduler σ) (inbox : List Ref)
    (hp : Placed cfg (rest s inbox)) (hkeeps : StepKeeps adm env cfg inbox s) :
    Does env cfg adm (rest s inbox) (s.step env cfg) fun s' p => p = rest s' inbox := by
  have hkeep : ∀ {p p' : Point σ}, StepOps env cfg adm p p' → Placed cfg p → Placed cfg p' := by
    intro p p' hops h
    induction hops with
    | refl => exact h
    | tail _ hop ih => exact placed_op (.step hop) ih
  refine (retire_outcome s inbox).bind ?_
  rintro s₁ p hs₁ hops rfl
  have hp₁ := hkeep hops hp
  refine (admit_outcome s₁ inbox hp₁ (hkeeps s₁ hs₁)).bind ?_
  rintro s₂ p - hops rfl
  exact decode_outcome s₂ inbox (hkeep hops hp₁)

end LlmServe
