import LlmServe.Properties.Invariant
import LlmServe.Spec.StepOps

/-!
# Runs

What a run of actions leads to: a point at rest where every invariant holds (`run_good`), with
the requests it was given, in order (`run_provenance`). An exception is raised at a point small
steps lead to (`run_outcome`).
-/

namespace LlmServe

open Infra Point

variable {σ : Type} {env : Env σ} {cfg : EngineConfig} {adm : Point σ → Ref → Prop}

/-! ## What a call of `step` leaves alone -/

/-- The engine builds no request and sets no `cancelled` flag. -/
structure StepFrame (p p' : Point σ) : Prop where
  next : p'.sched.next = p.sched.next
  inbox : p'.inbox = p.inbox
  cancelled : ∀ r, (p'.sched.heap r).cancelled = (p.sched.heap r).cancelled

theorem StepFrame.refl (p : Point σ) : StepFrame p p := ⟨rfl, rfl, fun _ => rfl⟩

theorem StepFrame.trans {p₁ p₂ p₃ : Point σ} (h : StepFrame p₁ p₂) (h' : StepFrame p₂ p₃) :
    StepFrame p₁ p₃ :=
  ⟨h'.next.trans h.next, h'.inbox.trans h.inbox,
    fun r => (h'.cancelled r).trans (h.cancelled r)⟩

theorem cancelled_update {heap heap' : Ref → Request} {r : Ref} {q : Request}
    (h : heap' = Function.update heap r q) (hq : q.cancelled = (heap r).cancelled) (x : Ref) :
    (heap' x).cancelled = (heap x).cancelled := h ▸ apply_update Request.cancelled hq x

theorem stepOp_frame {p p' : Point σ} (hop : StepOp env cfg adm p p') : StepFrame p p' := by
  cases hop with
  | markCancelled r hidle hr =>
    rcases Scheduler.markCancelled_cases env p.sched r with he | ⟨-, -, -, now, ht⟩
    · rw [he]
      exact .refl p
    · exact ⟨ht.next, rfl, cancelled_update ht.heap rfl⟩
  | leave s' pre post r hidle hr hfin hl =>
    obtain ⟨q, hfree, ht⟩ := Scheduler.leave_ok hl
    obtain ⟨rfl, -⟩ := Manager.free_ok hfree
    exact ⟨ht.next, rfl, cancelled_update ht.heap rfl⟩
  | admitHead s' r tail hbatch hdue hw hsorted hroom hcan hadm ha =>
    obtain ⟨q, hq⟩ := Scheduler.stampAdmit_admitted ha
    obtain ⟨blocks, rfl, -⟩ := Manager.allocate_ok hq.allocate
    exact ⟨hq.next, rfl, cancelled_update hq.heap rfl⟩
  | prefill s' batch rest nxt hbatch hdue hp hf =>
    obtain ⟨w, -, rfl⟩ := Scheduler.stepTokens_ok hf
    exact ⟨rfl, rfl, fun _ => rfl⟩
  | setRunning r hr => exact ⟨rfl, rfl, cancelled_update rfl rfl⟩
  | emit r tok due hdue =>
    obtain ⟨now, he⟩ := Scheduler.emit_ok env p.sched r tok
    exact ⟨he.next, rfl, cancelled_update he.heap (Request.emit_cancelled ..)⟩
  | grow r hidle hr hfin =>
    obtain ⟨blocks, hq, -⟩ := p.sched.manager.appendSlot_spec (p.sched.heap r)
    have ht := (p.sched.appendSlot_touches r).2
    exact ⟨ht.next, rfl, cancelled_update ht.heap (by rw [hq])⟩
  | preempt s' r hidle hr hfin hpre hp =>
    obtain ⟨q, hq⟩ := Scheduler.preempt_ok hp
    obtain ⟨rfl, -⟩ := Manager.free_ok hq.free
    exact ⟨hq.next, rfl, cancelled_update hq.heap rfl⟩
  | decode s' batch rows nxt hidle hnd hrun hfin hcov hrows hf =>
    obtain ⟨w, -, rfl⟩ := Scheduler.stepTokens_ok hf
    exact ⟨rfl, rfl, fun _ => rfl⟩
  | _ => exact ⟨rfl, rfl, fun _ => rfl⟩

theorem stepOps_frame {p p' : Point σ} (hops : StepOps env cfg adm p p') : StepFrame p p' := by
  induction hops with
  | refl => exact .refl p
  | tail _ hop ih => exact ih.trans (stepOp_frame hop)

/-! ## Actions and runs -/

/-- One action, in small steps. -/
theorem act_outcome (env : Env σ) (s : Scheduler σ) (a : Action) (hp : Placed cfg (rest s []))
    (hkeeps : a = .step → StepKeeps adm env cfg [] s) :
    Outcome (Op env cfg adm) (Fault env cfg) (rest s []) (s.act env cfg a)
      fun s' p => p = rest s' [] := by
  cases a with
  | submit n =>
    have hcreate : Op env cfg adm (rest s [])
        { sched := s.create n.toRequest, inbox := [s.next] } := .create _ n
    have hsubmit : Op env cfg adm { sched := s.create n.toRequest, inbox := [s.next] }
        (rest (s.accept n) []) := .submit _ [] [] s.next ⟨rfl, rfl, rfl⟩ rfl
    exact .pure (.tail (.single hcreate) hsubmit) rfl
  | cancel r =>
    by_cases hr : r < s.next
    · exact .pure (.single (.cancel _ r hr)) (by rw [if_pos hr]; rfl)
    · exact .pure .refl (by rw [if_neg hr])
  | step =>
    have h := step_outcome env s [] hp (hkeeps rfl)
    show Outcome _ _ _ (s.step env cfg) _
    cases hs : s.step env cfg with
    | ok s' =>
      rw [hs] at h
      obtain ⟨p, hops, rfl⟩ := h
      exact ⟨_, ops_of_stepOps hops, rfl⟩
    | error e =>
      rw [hs] at h
      obtain ⟨p, hops, hf⟩ := h
      exact ⟨p, ops_of_stepOps hops, hf⟩

variable {m : Manager} {w : σ}

/-- Every step of the run keeps the promise `adm`. -/
def RunKeeps (adm : Point σ → Ref → Prop) (env : Env σ) (cfg : EngineConfig) :
    Scheduler σ → List Action → Prop
  | _, [] => True
  | s, a :: as => (a = .step → StepKeeps adm env cfg [] s) ∧
      ∀ s', s.act env cfg a = .ok s' → RunKeeps adm env cfg s' as

instance decidableRunKeeps [∀ p r, Decidable (adm p r)] :
    ∀ (s : Scheduler σ) (acts : List Action), Decidable (RunKeeps adm env cfg s acts)
  | _, [] => isTrue trivial
  | s, a :: as =>
    have := fun s' => decidableRunKeeps s' as
    inferInstanceAs (Decidable ((a = .step → StepKeeps adm env cfg [] s) ∧
      ∀ s', s.act env cfg a = .ok s' → RunKeeps adm env cfg s' as))

theorem runKeeps_snoc {a : Action} : ∀ {acts : List Action} {s₀ : Scheduler σ},
    RunKeeps adm env cfg s₀ (acts ++ [a]) → RunKeeps adm env cfg s₀ acts ∧
      ∀ s, run (Scheduler.act env cfg) s₀ acts = .ok s → a = .step → StepKeeps adm env cfg [] s
  | [], s₀, h => by
    refine ⟨trivial, fun s hs ha => ?_⟩
    cases hs
    exact h.1 ha
  | b :: acts, s₀, h => by
    refine ⟨⟨h.1, fun s' hs' => (runKeeps_snoc (h.2 s' hs')).1⟩, fun s hs => ?_⟩
    obtain ⟨s', hs', hs⟩ := exists_of_bind_ok hs
    exact (runKeeps_snoc (h.2 s' hs')).2 s hs

/-- **A run is made of small steps**, and raises only where a small step can. -/
theorem run_outcome (env : Env σ) (cfg : EngineConfig) (w : σ) (hm : m.Fresh)
    (acts : List Action) (hkeeps : RunKeeps adm env cfg (.init cfg m w) acts) :
    Outcome (Op env cfg adm) (Fault env cfg) (rest (.init cfg m w) [])
      (run (Scheduler.act env cfg) (.init cfg m w) acts) fun s p => p = rest s [] := by
  induction acts using List.reverseRecOn with
  | nil => exact .pure .refl rfl
  | append_singleton acts a ih =>
    rw [run_snoc]
    obtain ⟨hinit, hlast⟩ := runKeeps_snoc hkeeps
    refine (ih hinit).bind ?_
    rintro s p hs hops rfl
    exact act_outcome env s a (Good.ops (.init hm w) hops).placed (hlast s hs)

theorem runKeeps_true (env : Env σ) (cfg : EngineConfig) :
    ∀ (s₀ : Scheduler σ) (acts : List Action), RunKeeps (fun _ _ => True) env cfg s₀ acts
  | _, [] => trivial
  | s, _ :: acts => ⟨fun _ => stepKeeps_true env cfg [] s, fun s' _ => runKeeps_true env cfg s' acts⟩

theorem run_reach (hm : m.Fresh) {acts : List Action} {s : Scheduler σ}
    (hrun : run (Scheduler.act env cfg) (.init cfg m w) acts = .ok s) :
    Reach env cfg (rest (.init cfg m w) []) (rest s []) := by
  have h := run_outcome env cfg w hm acts (runKeeps_true env cfg _ acts)
  rw [hrun] at h
  obtain ⟨p, hops, rfl⟩ := h
  exact hops

theorem run_good (hm : m.Fresh) {acts : List Action} {s : Scheduler σ}
    (hrun : run (Scheduler.act env cfg) (.init cfg m w) acts = .ok s) : Good cfg m (rest s []) :=
  Good.ops (.init hm w) (run_reach hm hrun)

/-! ## Where the requests come from -/

theorem submitted_rest {s : Scheduler σ} {r : Ref} (hr : r < s.next) : (rest s []).Submitted r :=
  ⟨hr, List.not_mem_nil⟩

theorem step_ops {inbox : List Ref} {s s' : Scheduler σ} (hp : Placed cfg (rest s inbox))
    (h : s.step env cfg = .ok s') :
    StepOps env cfg (fun _ _ => True) (rest s inbox) (rest s' inbox) := by
  have hout := step_outcome env s inbox hp (stepKeeps_true env cfg inbox s)
  rw [h] at hout
  obtain ⟨p, hops, rfl⟩ := hout
  exact hops

theorem act_reach {s s' : Scheduler σ} {a : Action} (hp : Placed cfg (rest s []))
    (h : s.act env cfg a = .ok s') : Reach env cfg (rest s []) (rest s' []) := by
  have hout := act_outcome env s a hp fun _ => stepKeeps_true env cfg [] s
  rw [h] at hout
  obtain ⟨p, hops, rfl⟩ := hout
  exact hops

theorem run_reach_from {acts : List Action} : ∀ {s s' : Scheduler σ}, Good cfg m (rest s []) →
    run (Scheduler.act env cfg) s acts = .ok s' → Reach env cfg (rest s []) (rest s' []) := by
  induction acts with
  | nil =>
    intro s s' _ h
    cases h
    exact .refl
  | cons a acts ih =>
    intro s s' hgood h
    obtain ⟨s₁, ha, h⟩ := exists_of_bind_ok h
    have hops := act_reach hgood.placed ha
    exact hops.trans (ih (hgood.ops hops) h)

/-- After a run the objects are the submitted requests, in order, as they were submitted but for
what the engine may change. -/
structure Provenance (acts : List Action) (s : Scheduler σ) : Prop where
  next : s.next = (submitted acts).length
  evolves : ∀ (r : Ref) (n : NewRequest), (submitted acts)[r]? = some n →
    n.toRequest.submitted.Evolves (s.heap r)
  /-- Nobody but the client touches the flag. -/
  cancelled : ∀ (r : Ref) (n : NewRequest), (submitted acts)[r]? = some n →
    Action.cancel r ∉ acts → (s.heap r).cancelled = n.cancelled

theorem accept_heap (s : Scheduler σ) (n : NewRequest) :
    (s.accept n).heap = Function.update s.heap s.next n.toRequest.submitted := by
  simp [Scheduler.accept, Scheduler.submit, Scheduler.create, Scheduler.modify,
    Request.submitted]

/-- An index into the requests after one more: an old one, or the new one. -/
theorem submitted_snoc_cases {acts : List Action} {n n' : NewRequest} {r : Ref}
    (hr : (submitted (acts ++ [.submit n]))[r]? = some n') :
    r < (submitted acts).length ∧ (submitted acts)[r]? = some n' ∨
      r = (submitted acts).length ∧ n' = n := by
  rw [submitted_snoc_submit] at hr
  have hlen := (List.getElem?_eq_some_iff.mp hr).1
  rw [List.length_append, List.length_singleton] at hlen
  rcases Nat.lt_succ_iff_lt_or_eq.mp hlen with hlt | heq
  · rw [List.getElem?_append_left hlt] at hr
    exact Or.inl ⟨hlt, hr⟩
  · rw [heq, List.getElem?_concat_length] at hr
    exact Or.inr ⟨heq, by injection hr with hr; exact hr.symm⟩

theorem provenance_submit {acts : List Action} {s : Scheduler σ} (h : Provenance acts s)
    (n : NewRequest) : Provenance (acts ++ [.submit n]) (s.accept n) where
  next := by
    rw [submitted_snoc_submit, List.length_append, ← h.next]
    rfl
  evolves := by
    intro r n' hr
    rw [accept_heap]
    rcases submitted_snoc_cases hr with ⟨hlt, hr⟩ | ⟨heq, rfl⟩
    · rw [Function.update_of_ne (h.next ▸ hlt.ne)]
      exact h.evolves r n' hr
    · rw [heq, ← h.next, Function.update_self]
      exact .refl _
  cancelled := by
    intro r n' hr hno
    rw [accept_heap]
    rcases submitted_snoc_cases hr with ⟨hlt, hr⟩ | ⟨heq, rfl⟩
    · rw [Function.update_of_ne (h.next ▸ hlt.ne)]
      exact h.cancelled r n' hr fun hc => hno (List.mem_append_left _ hc)
    · rw [heq, ← h.next, Function.update_self]
      rfl

/-- An action that submits nothing. -/
theorem Provenance.keep {acts : List Action} {a : Action} {s s' : Scheduler σ}
    (h : Provenance acts s) (hgood : Good cfg m (rest s []))
    (hsub : submitted (acts ++ [a]) = submitted acts)
    (hops : Ops env cfg adm (rest s []) (rest s' [])) (hnext : s'.next = s.next)
    (hflag : ∀ r, a ≠ .cancel r → (s'.heap r).cancelled = (s.heap r).cancelled) :
    Provenance (acts ++ [a]) s' where
  next := by rw [hsub, ← h.next, hnext]
  evolves := by
    intro r n hr
    rw [hsub] at hr
    have hlt : r < s.next := h.next ▸ (List.getElem?_eq_some_iff.mp hr).1
    exact (h.evolves r n hr).trans (hgood.evolves hops (submitted_rest hlt))
  cancelled := by
    intro r n hr hno
    rw [hsub] at hr
    rw [hflag r fun ha => hno (by simp [ha])]
    exact h.cancelled r n hr fun hc => hno (List.mem_append_left _ hc)

theorem run_provenance (hm : m.Fresh) {acts : List Action} {s : Scheduler σ}
    (hrun : run (Scheduler.act env cfg) (.init cfg m w) acts = .ok s) : Provenance acts s := by
  induction acts using List.reverseRecOn generalizing s with
  | nil =>
    cases hrun
    exact ⟨rfl, nofun, nofun⟩
  | append_singleton acts a ih =>
    rw [run_snoc] at hrun
    obtain ⟨s₀, hs₀, ha⟩ := exists_of_bind_ok hrun
    have h := ih hs₀
    have hgood := run_good hm hs₀
    cases a with
    | submit n =>
      cases ha
      exact provenance_submit h n
    | cancel x =>
      have hops := act_reach hgood.placed ha
      refine h.keep hgood (submitted_snoc_cancel acts x) hops ?_ fun r hr => ?_
      · cases ha
        split <;> rfl
      · have hne : r ≠ x := fun he => hr (by rw [he])
        cases ha
        split
        · exact congrArg Request.cancelled (Function.update_of_ne hne ..)
        · rfl
    | step =>
      have hops := step_ops hgood.placed ha
      have hframe := stepOps_frame hops
      exact h.keep hgood (submitted_snoc_step acts) (ops_of_stepOps hops) hframe.next
        fun r _ => hframe.cancelled r

/-- Every object a run knows is one of the submitted requests. -/
theorem Provenance.request {acts : List Action} {s : Scheduler σ} (h : Provenance acts s) {r : Ref}
    (hr : r < s.next) : ∃ n, (submitted acts)[r]? = some n ∧
      n.toRequest.submitted.Evolves (s.heap r) := by
  have hlt : r < (submitted acts).length := h.next ▸ hr
  exact ⟨_, List.getElem?_eq_getElem hlt, h.evolves r _ (List.getElem?_eq_getElem hlt)⟩

/-- The same at a later point, for the requests the run submitted. -/
theorem Provenance.later {acts : List Action} {s : Scheduler σ} {p : Point σ}
    (h : Provenance acts s) (hgood : Good cfg m (rest s [])) (hops : Ops env cfg adm (rest s []) p)
    {r : Ref} (hr : r < s.next) : ∃ n, (submitted acts)[r]? = some n ∧
      n.toRequest.submitted.Evolves (p.sched.heap r) := by
  obtain ⟨n, hn, hev⟩ := h.request hr
  exact ⟨n, hn, hev.trans (hgood.evolves hops (submitted_rest hr))⟩

end LlmServe
