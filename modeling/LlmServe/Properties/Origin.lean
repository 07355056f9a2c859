import LlmServe.Properties.Recompute
import LlmServe.Properties.Workload
import LlmServe.Theorems.Vocabulary

/-!
# Whose request it is

`View.Of n` says what the request `n` of a client has become: as it was built while it is in the
inbox, and what the engine may make of it once it is submitted. It is an invariant of the moves
(`of_moves`), so a list of clients' requests that matches the objects of a point matches those of
every later point that built no more (`Sourced.ops`).

`Sourced.loaded` is the front door seen from inside: if every client asked for something
`fits_ever` accepts, with ids of the vocabulary, and no two under one id (`Serving`), then the engine
is `Loaded` whatever happened so far.
-/

namespace LlmServe

open Infra Point

variable {σ : Type} {env : Env σ} {cfg : EngineConfig} {adm : Point σ → Ref → Prop} {m : Manager}
  {w : σ} {p p' : Point σ} {r : Ref} {v v' : View} {n : NewRequest}

/-- What the request `n` has become. -/
def View.Of (n : NewRequest) (v : View) : Prop :=
  match v.phase with
  | .absent => False
  | .inbox => v.req = { n.toRequest with cancelled := v.req.cancelled } ∧
      (n.cancelled = true → v.req.cancelled = true)
  | _ => n.toRequest.submitted.Evolves v.req

theorem View.of_submitted (ha : v.phase ≠ .absent) (hi : v.phase ≠ .inbox) :
    v.Of n ↔ n.toRequest.submitted.Evolves v.req := by
  unfold Of
  cases hph : v.phase with
  | absent => exact absurd hph ha
  | inbox => exact absurd hph hi
  | _ => exact Iff.rfl

theorem View.of_inbox (hi : v.phase = .inbox) :
    v.Of n ↔ v.req = { n.toRequest with cancelled := v.req.cancelled } ∧
      (n.cancelled = true → v.req.cancelled = true) := by
  unfold Of
  rw [hi]

theorem View.Of.promptTokenIds (h : v.Of n) : v.req.promptTokenIds = n.promptTokenIds := by
  by_cases hi : v.phase = .inbox
  · exact congrArg Request.promptTokenIds ((View.of_inbox hi).mp h).1
  · have ha : v.phase ≠ .absent := fun ha => by
      unfold View.Of at h
      rwa [ha] at h
    exact ((View.of_submitted ha hi).mp h).promptTokenIds

theorem of_move (hmv : Move cfg m r v v') (h : Ending v) (hof : v.Of n) : v'.Of n := by
  by_cases hi : v.phase = .inbox
  · have hdue : v.due = false := h.not_due (by simp [hi]) (by simp [hi])
    obtain ⟨hreq, hc⟩ := (View.of_inbox hi).mp hof
    cases hmv with
    | stay => exact hof
    | cancel =>
      have hflag : ({ v with req := { v.req with cancelled := true } } : View).phase = .inbox := hi
      refine (View.of_inbox hflag).mpr ⟨?_, fun _ => rfl⟩
      exact congrArg (fun q => { q with cancelled := true }) hreq
    | submit hphase =>
      refine (View.of_submitted ?_ ?_).mpr ?_
      · nofun
      · nofun
      have hrefl := Request.Evolves.refl n.toRequest.submitted
      rw [hreq]
      exact { hrefl with cancelled := hc }
    | emit now tok hd => cases hdue.symm.trans hd
    | create n' hphase => cases hi.symm.trans hphase
    | drop hphase | leave hphase | admitHead _ _ hphase | prefill hphase | preempt hphase =>
      cases hi.symm.trans hphase
    | abort now hphase | setRunning hphase | join hphase | grow _ hphase | decode _ hphase =>
      cases hi.symm.trans hphase
  · have ha : v.phase ≠ .absent := by
      intro ha
      unfold View.Of at hof
      rw [ha] at hof
      exact hof
    obtain ⟨hev, ha', hi'⟩ := move_evolves hmv h ha hi
    exact (View.of_submitted ha' hi').mpr (((View.of_submitted ha hi).mp hof).trans hev)

theorem of_moves (hmv : Moves cfg m r v v') (h : Facts m v) (hof : v.Of n) : v'.Of n := by
  have hstep : ∀ x y, Move cfg m r x y → Facts m x ∧ x.Of n → Facts m y ∧ y.Of n :=
    fun x y hxy hx => ⟨facts_move hxy hx.1, of_move hxy hx.1.ending hx.2⟩
  exact (reach_invariant hstep hmv ⟨h, hof⟩).2

/-- Object `r` is the request `src r`. -/
def Sourced (src : Ref → NewRequest) (p : Point σ) : Prop :=
  ∀ r < p.sched.next, (p.view r).Of (src r)

/-- The prompt has only ids of the vocabulary. -/
def NewRequest.InVocab (n : NewRequest) : Prop := ∀ tok ∈ n.promptTokenIds, LlmServe.InVocab tok

/-- Every client asked for what the engine can serve, and no two under one id. -/
structure Serving (m : Manager) (src : Ref → NewRequest) (k : Nat) : Prop where
  servable : ∀ r < k, (src r).Servable m
  inVocab : ∀ r < k, (src r).InVocab
  ids : ∀ r < k, ∀ r' < k, (src r).requestId = (src r').requestId → r = r'

namespace Sourced

variable {src : Ref → NewRequest}

theorem init (src : Ref → NewRequest) (m : Manager) (w : σ) (inbox : List Ref) :
    Sourced src (rest (.init cfg m w) inbox) := fun _ hr => absurd hr (Nat.not_lt_zero _)

theorem ops (h : Sourced src p) (hgood : Good cfg m p) (hops : Ops env cfg adm p p')
    (hnext : p'.sched.next = p.sched.next) : Sourced src p' := fun r hr =>
  of_moves (hgood.moves hops r) (hgood.facts r) (h r (hnext ▸ hr))

/-- A new object, put into the inbox. -/
theorem create (h : Sourced src p) (hgood : Good cfg m p) (n : NewRequest) :
    Sourced (Function.update src p.sched.next n)
      { p with sched := p.sched.create n.toRequest, inbox := p.inbox ++ [p.sched.next] } := by
  intro r hr
  rcases Nat.lt_succ_iff_lt_or_eq.mp hr with hlt | rfl
  · rw [Function.update_of_ne hlt.ne]
    exact of_move (m := m) (move_create hgood.placed n r) (hgood.facts r).ending (h r hlt)
  · have hin : (({ p with sched := p.sched.create n.toRequest, inbox := p.inbox ++ [p.sched.next] } :
        Point σ).view p.sched.next).phase = .inbox := phase_inbox (by simp)
    have hcell : (({ p with sched := p.sched.create n.toRequest, inbox := p.inbox ++ [p.sched.next] } :
        Point σ).view p.sched.next).req = n.toRequest := Function.update_self ..
    rw [Function.update_self, View.of_inbox hin, hcell]
    exact ⟨rfl, fun hc => hc⟩

theorem evolves (h : Sourced src p) (hr : p.Submitted r) :
    (src r).toRequest.submitted.Evolves (p.sched.heap r) := by
  obtain ⟨ha, hi⟩ := hr.phase
  exact (View.of_submitted (v := p.view r) ha hi).mp (h r hr.1)

theorem loaded (h : Sourced src p') (hserve : Serving m src p'.sched.next) (hgood : Good cfg m p)
    (hbooked : Booked m p) (hops : Ops env cfg adm p p') : Loaded m p' := by
  have hpos : Positive p' := by
    intro r hr
    rw [(h.evolves hr).maxNewTokens]
    exact (hserve.servable r hr.1).valid.capped_pos
  have hdistinct : DistinctIds p' := by
    intro r r' hr hr' he
    refine hserve.ids r hr.1 r' hr'.1 ?_
    have he' := (h.evolves hr).requestId.symm.trans (he.trans (h.evolves hr').requestId)
    exact he'
  refine ⟨booked_of_distinctIds hgood hbooked hops hpos.covering hdistinct, hpos,
    fun r hr => ?_, fun r hr => ?_, fun r hr => ?_⟩
  · rw [(h.evolves hr).promptTokenIds, (h.evolves hr).maxNewTokens]
    exact (hserve.servable r hr.1).fits
  · have hprompt := (hserve.servable r hr.1).valid.prompt_pos
    simp only [Request.seqLen, (h.evolves hr).promptTokenIds]
    exact Nat.le_add_right_of_le hprompt
  · rw [(h.evolves hr).promptTokenIds, (h.evolves hr).maxNewTokens]
    show ((src r).promptTokenIds.length : Int) +
      min (src r).maxNewTokens (maxContext - (src r).promptTokenIds.length) ≤ maxContext
    omega

/-- After any small steps from the start. -/
theorem loaded_reach (hm : m.Fresh) (hreach : Reach env cfg (rest (.init cfg m w) []) p)
    (h : Sourced src p) (hserve : Serving m src p.sched.next) : Loaded m p :=
  h.loaded hserve (.init hm w) (booked_init hm w) hreach

/-- And at every point the next call of `step` comes through. -/
theorem loaded_stepOps {s : Scheduler σ} {inbox : List Ref} (hgood : Good cfg m (rest s inbox))
    (hbooked : Booked m (rest s inbox)) (h : Sourced src (rest s inbox))
    (hserve : Serving m src s.next) (p : Point σ)
    (hp : StepOps env cfg (fun _ _ => True) (rest s inbox) p) : Loaded m p := by
  have hops := ops_of_stepOps hp
  have hnext : p.sched.next = s.next := (stepOps_frame hp).next
  exact (h.ops hgood hops hnext).loaded (hnext ▸ hserve) hgood hbooked hops

theorem promptsInVocab (h : Sourced src p) (hvocab : ∀ r < p.sched.next, (src r).InVocab) :
    PromptsInVocab p.sched := by
  intro r hr
  have hprompt : (p.sched.heap r).promptTokenIds = (src r).promptTokenIds := (h r hr).promptTokenIds
  rw [hprompt]
  exact hvocab r hr

/-- Prompts and limits stay within the context. -/
theorem inContext (h : Sourced src p) (hvalid : ∀ r < p.sched.next, (src r).Valid) :
    InContext p := by
  intro r hr
  have hv := hvalid r hr.1
  have hprompt : (p.sched.heap r).promptTokenIds = (src r).promptTokenIds :=
    (h.evolves hr).promptTokenIds
  have hmax : (p.sched.heap r).maxNewTokens = (src r).capped := (h.evolves hr).maxNewTokens
  have hle : (src r).capped ≤ maxContext - (src r).promptTokenIds.length := min_le_right ..
  rw [hprompt, hmax]
  exact ⟨hv.prompt_pos, hv.capped_pos, by omega⟩

/-- A request that ended by itself has what greedy decoding gives for it. -/
theorem ends {next : List Token → Token} (h : Sourced src p) (hgood : Good cfg m p)
    (hfol : Follows next p) (hr : p.Submitted r)
    (hfin : (p.sched.heap r).finishReason = some .length ∨
      (p.sched.heap r).finishReason = some .stop) :
    Request.Ends next (src r).promptTokenIds (src r).capped (src r).ignoreEos
      (p.sched.heap r).outputTokenIds := by
  have hev := h.evolves hr
  have hends := hgood.firstStop hfol (r := r)
    (fun hnone => by rcases hfin with hf | hf <;> cases hf.symm.trans hnone)
    (fun hcan => by rcases hfin with hf | hf <;> cases hf.symm.trans hcan)
  rw [hev.promptTokenIds, hev.maxNewTokens, hev.ignoreEos] at hends
  exact hends

end Sourced

end LlmServe
