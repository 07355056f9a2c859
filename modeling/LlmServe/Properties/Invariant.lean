import LlmServe.Properties.Ownership
import LlmServe.Properties.TokenStream

/-!
# All invariants at every point

`Good` gathers what the other modules prove of a small step, so that a run needs one induction.
-/

namespace LlmServe

open Infra Point

variable {σ : Type} {env : Env σ} {cfg : EngineConfig} {adm : Point σ → Ref → Prop}

/-- What holds at every point small steps lead to; `m` has the shape of the engine's allocator. -/
structure Good (cfg : EngineConfig) (m : Manager) (p : Point σ) : Prop where
  placed : Placed cfg p
  shape : m.SameShape p.sched.manager
  facts : ∀ r, Facts m (p.view r)
  stream : ∀ r, TokenStream r (p.view r)
  owned : Owned p

/-- A holder is in one of the phases that hold memory. -/
theorem Good.holds_of_held {m : Manager} {p : Point σ} (h : Good cfg m p) {r : Ref}
    (hr : r ∈ p.held) : (p.view r).phase.Holds := by
  rcases List.mem_append.mp hr with hr | hr
  · rcases List.mem_append.mp hr with hr | hr
    · exact Or.inl (phase_popped h.placed hr)
    · exact Or.inr (Or.inl (phase_batch h.placed hr))
  · exact Or.inr (Or.inr (phase_running h.placed hr))

/-- A waiting request is not finished. -/
theorem Good.waiting_open {m : Manager} {p : Point σ} (h : Good cfg m p) {r : Ref}
    (hr : r ∈ p.sched.waiting) : (p.sched.heap r).finishReason = none := by
  have hphase : (p.view r).phase = .waiting := phase_waiting h.placed hr
  exact (h.facts r).ending.early_open (by simp [hphase]) (by simp [hphase]) (by simp [hphase])

namespace Good

variable {m : Manager} {p p' : Point σ}

theorem oneSlot (h : Good cfg m p) : OneSlot p := by
  intro hp r hr
  exact (h.facts r).table.slot (h.shape.paged ▸ hp) (h.holds_of_held hr)

theorem init {m : Manager} (hm : m.Fresh) (w : σ) : Good cfg m (.rest (.init cfg m w) []) where
  placed := .init m w
  shape := .refl m
  facts := fun _ => .unborn m
  stream := fun _ => .start
  owned := by
    show (m.freeUnits ++ []).Perm (List.range m.units)
    rw [List.append_nil]
    cases m with
    | slot m => exact hm.1
    | block m => exact hm.1

theorem op (h : Good cfg m p) (hop : Op env cfg adm p p') : Good cfg m p' where
  placed := placed_op hop h.placed
  shape := h.shape.trans (shape_op hop)
  facts := fun r => facts_move (op_move hop h.placed h.shape r) (h.facts r)
  stream := fun r => tokenStream_move (op_move hop h.placed h.shape r) (h.facts r).ending (h.stream r)
  owned := h.owned.of_perm (units_op hop h.placed h.oneSlot) (shape_op hop)

/-- **Small steps keep everything.** -/
theorem ops (h : Good cfg m p) (hops : Ops env cfg adm p p') : Good cfg m p' := by
  have hstep : ∀ x y, Op env cfg adm x y → Good cfg m x → Good cfg m y := fun _ _ hop hx => hx.op hop
  exact reach_invariant hstep hops h

/-- Between two points a request makes moves of its own. -/
theorem moves (h : Good cfg m p) (hops : Ops env cfg adm p p') (r : Ref) :
    Moves cfg m r (p.view r) (p'.view r) := (ops_moves hops h.placed h.shape).2.2 r

end Good

/-- **What moves keep of a request holds at every point**, if it holds of one nobody has built. -/
theorem view_of_reach {m : Manager} {w : σ} {p : Point σ} {P : View → Prop} (hm : m.Fresh)
    (hreach : Ops env cfg adm (rest (.init cfg m w) []) p) (r : Ref)
    (hmove : ∀ v v', Move cfg m r v v' → Facts m v → P v → P v') (hstart : P .unborn) :
    P (p.view r) := by
  have hinit : Good cfg m (rest (.init cfg m w : Scheduler σ) []) := .init hm w
  have hstep : ∀ v v', Move cfg m r v v' → Facts m v ∧ P v → Facts m v' ∧ P v' :=
    fun v v' hmv ⟨hf, hv⟩ => ⟨facts_move hmv hf, hmove v v' hmv hf hv⟩
  exact (reach_invariant hstep (hinit.moves hreach r) ⟨hinit.facts r, hstart⟩).2

/-! ## Submitted requests -/

/-- A request that has been given to `Scheduler.submit`. -/
def Point.Submitted (p : Point σ) (r : Ref) : Prop := r < p.sched.next ∧ r ∉ p.inbox

theorem Point.Submitted.phase {p : Point σ} {r : Ref} (h : p.Submitted r) :
    p.phase r ≠ .absent ∧ p.phase r ≠ .inbox := by
  unfold Point.phase
  rw [if_neg h.2]
  rw [if_pos h.1]
  constructor <;> (repeat' split) <;> nofun

theorem submitted_of_phase {p : Point σ} (h : Placed cfg p) {r : Ref} (ha : p.phase r ≠ .absent)
    (hi : p.phase r ≠ .inbox) : p.Submitted r :=
  ⟨Decidable.not_not.mp fun hlt => ha (phase_absent h hlt), fun hin => hi (phase_inbox hin)⟩

/-- **A submitted request stays submitted and evolves** along small steps. -/
theorem Good.submitted {m : Manager} {p p' : Point σ} (h : Good cfg m p)
    (hops : Ops env cfg adm p p') {r : Ref} (hr : p.Submitted r) :
    (p.sched.heap r).Evolves (p'.sched.heap r) ∧ p'.Submitted r := by
  obtain ⟨hev, ha, hi⟩ := moves_evolves (h.moves hops r) (h.facts r) hr.phase.1 hr.phase.2
  exact ⟨hev, submitted_of_phase (h.ops hops).placed ha hi⟩

theorem Good.evolves {m : Manager} {p p' : Point σ} (h : Good cfg m p)
    (hops : Ops env cfg adm p p') {r : Ref} (hr : p.Submitted r) :
    (p.sched.heap r).Evolves (p'.sched.heap r) := (h.submitted hops hr).1

/-- The requests waiting or holding memory have been submitted. -/
theorem Good.submitted_of_mem {m : Manager} {p : Point σ} (h : Good cfg m p) {r : Ref}
    (hr : r ∈ p.sched.waiting ∨ r ∈ p.held) : p.Submitted r := by
  rcases hr with hr | hr
  · exact ⟨h.placed.lt_next r (mem_placed_of_waiting hr), h.placed.notMem_inbox_of_waiting hr⟩
  · exact ⟨h.placed.lt_next r (mem_placed_of_held hr), h.placed.notMem_inbox_of_held hr⟩

theorem mem_held_of_holds {p : Point σ} {r : Ref} (h : (p.view r).phase.Holds) : r ∈ p.held := by
  change p.phase r = .popped ∨ p.phase r = .batch ∨ p.phase r = .running at h
  unfold phase at h
  simp only [Point.held, List.mem_append]
  repeat' split at h
  all_goals simp_all

/-! ## Requests that left -/

/-- A request that nobody cancelled and that left was finished by `_emit`. -/
theorem Good.finished_of_left {m : Manager} {p : Point σ} (h : Good cfg m p) {r : Ref}
    (hr : r < p.sched.next) (hleft : r ∉ p.placed) (hc : (p.sched.heap r).cancelled = false) :
    (p.sched.heap r).finishReason = some .length ∨ (p.sched.heap r).finishReason = some .stop := by
  have hend := (h.facts r).ending
  have hfin : (p.sched.heap r).finishReason ≠ none :=
    (hend.gone (phase_gone hleft hr)).resolve_right (by simp [view, hc])
  cases hreason : (p.sched.heap r).finishReason with
  | none => exact absurd hreason hfin
  | some reason =>
    cases reason with
    | length => exact Or.inl rfl
    | stop => exact Or.inr rfl
    | cancelled => cases hc.symm.trans (hend.aborted hreason).1

/-- A request that left without being cancelled was told so, by its last call. -/
theorem Good.closed {m : Manager} {p : Point σ} {r : Ref} (h : Good cfg m p)
    (hsub : r < p.sched.next) (hleft : r ∉ p.placed) (hc : (p.sched.heap r).cancelled = false)
    (hsink : (p.sched.heap r).sink ≠ none) : Closed (calls r (log p.sched r)) := by
  refine ((h.stream r).streamed hsink).closed ?_
  have hreason := (h.facts r).ending.reason
  change (p.sched.heap r).finishReason ≠ some .cancelled →
    (p.sched.heap r).finishReason = Request.endReason _ _ (p.sched.heap r).outputTokenIds at hreason
  rcases h.finished_of_left hsub hleft hc with hr | hr
  · exact hreason (by simp [hr]) ▸ by simp [hr]
  · exact hreason (by simp [hr]) ▸ by simp [hr]

end LlmServe
