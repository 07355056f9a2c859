import LlmServe.Engine.NextToken
import LlmServe.Properties.Queue
import LlmServe.Spec.Runs

/-!
# How requests leave

There are two exits. The sweep of `_retire` over `running` closes what it lets go, with a reason, a
time and no memory. The filter of its first line drops a cancelled request from `waiting` as it is,
and an evicted request that waits there has streamed tokens (`Point.DropsServed`). So every request
leaves in a terminal state exactly in the runs whose filters drop no such request.
-/

namespace LlmServe

open Infra Point

variable {σ : Type} {env : Env σ} {cfg : EngineConfig} {adm : Point σ → Ref → Prop} {m : Manager}
  {p p' : Point σ} {w : σ}

/-- Closed by `_retire`, or never served at all. -/
def Request.Terminal (q : Request) : Prop :=
  q.outputTokenIds = [] ∨
    q.state = .finished ∧ q.finishReason ∈ [some .length, some .stop, some .cancelled] ∧
      q.finishTime ≠ none ∧ q.blockTable = []

instance (q : Request) : Decidable q.Terminal := inferInstanceAs (Decidable (_ ∨ _))

/-- Every request that left is in a terminal state. -/
def Point.AllTerminal (p : Point σ) : Prop :=
  ∀ r < p.sched.next, r ∉ p.placed → (p.sched.heap r).Terminal

instance (p : Point σ) : Decidable p.AllTerminal :=
  inferInstanceAs (Decidable (∀ r < p.sched.next, r ∉ p.placed → (p.sched.heap r).Terminal))

/-- From `p` to `p'` the first line of `_retire` runs. -/
def Point.Filters (p p' : Point σ) : Prop :=
  p.Idle ∧ p' = { p with sched := { p.sched with
    waiting := p.sched.waiting.filter fun r => !(p.sched.heap r).cancelled } }

/-- A cancelled request in `waiting` has streamed tokens. -/
def Point.QueueServed (p : Point σ) : Prop :=
  ∃ r ∈ p.sched.waiting, (p.sched.heap r).cancelled = true ∧ (p.sched.heap r).outputTokenIds ≠ []

theorem mem_of_finishReason_ne_none {reason : Option FinishReason} (h : reason ≠ none) :
    reason ∈ [some .length, some .stop, some .cancelled] := by
  cases reason with
  | none => exact absurd rfl h
  | some reason => cases reason <;> decide

/-- A request leaves `waiting` for good only in the first line of `_retire`. -/
theorem op_filters (hop : Op env cfg adm p p') {r : Ref} (hr : r ∈ p.sched.waiting)
    (hleft : r ∉ p'.placed) : p.Filters p' := by
  have hstay : ∀ {s' : Scheduler σ}, s'.waiting = p.sched.waiting → r ∈ s'.waiting :=
    fun hw => hw ▸ hr
  have hout : r ∉ p'.sched.waiting := fun hw => hleft (mem_placed_of_waiting hw)
  cases hop with
  | cancel x hx => exact absurd hr hout
  | create n => exact absurd hr hout
  | submit pre post x hidle hin => exact absurd (List.mem_append_left _ hr) hout
  | step hop =>
    cases hop with
    | dropCancelled hidle => exact ⟨hidle, rfl⟩
    | markCancelled x hidle hx =>
      refine absurd (hstay ?_) hout
      rcases Scheduler.markCancelled_cases env p.sched x with he | ⟨-, -, -, now, ht⟩
      · rw [he]
      · exact ht.waiting
    | leave s' pre post x hidle hx hfin hl =>
      obtain ⟨q, -, ht⟩ := Scheduler.leave_ok hl
      exact absurd (hstay ht.waiting) hout
    | sort hidle => exact absurd ((sortKey_perm _ _).mem_iff.mpr hr) hout
    | admitHead s' x tail hbatch hdue hw hsorted hroom hcan hadm ha =>
      obtain ⟨q, hq⟩ := Scheduler.stampAdmit_admitted ha
      -- the head goes to `batch`, the others stay
      rcases List.mem_cons.mp (hw ▸ hr) with rfl | hr
      · exact absurd (mem_placed_of_held (mem_held_of_popped (by simp))) hleft
      · exact absurd (hq.waiting ▸ hr) hout
    | prefill s' batch rest nxt hbatch hdue hpop hf =>
      obtain ⟨w, -, rfl⟩ := Scheduler.stepTokens_ok hf
      exact absurd hr hout
    | emit x tok due hdue =>
      obtain ⟨now, he⟩ := Scheduler.emit_ok env p.sched x tok
      exact absurd (hstay he.waiting) hout
    | grow x hidle hx hfin => exact absurd (hstay (p.sched.appendSlot_touches x).2.waiting) hout
    | preempt s' x hidle hx hfin hpre hpr =>
      obtain ⟨q, hq⟩ := Scheduler.preempt_ok hpr
      exact absurd (hq.waiting ▸ List.mem_append_left _ hr) hout
    | decode s' batch rows nxt hidle hnd hrun hfin hcov hrows hf =>
      obtain ⟨w, -, rfl⟩ := Scheduler.stepTokens_ok hf
      exact absurd hr hout
    | _ => exact absurd hr hout

/-- The exits of one request. -/
theorem terminal_move {r : Ref} {v v' : View} (hmv : Move cfg m r v v') (hend : Ending v)
    (h : v.phase = .gone → v.req.Terminal)
    (hdrop : v.phase = .waiting → v'.phase = .gone → v.req.outputTokenIds = [])
    (hgone : v'.phase = .gone) : v'.req.Terminal := by
  by_cases hg : v.phase = .gone
  · -- only its client still writes to it
    obtain ⟨-, -, he | he⟩ := gone_move hmv hend hg
    · exact he ▸ h hg
    · exact he ▸ h hg
  · cases hmv with
    | drop hphase hc => exact Or.inl (hdrop hphase rfl)
    | leave hphase hdue hfin =>
      exact Or.inr ⟨rfl, mem_of_finishReason_ne_none hfin, hend.finishTime hfin, rfl⟩
    | create n hphase | submit hphase | admitHead blocks seq hphase | prefill hphase | join hphase
    | preempt hphase => cases hgone
    | _ => exact absurd hgone hg

/-- A request that the filter drops is neither closed nor held by anybody. -/
theorem allTerminal_filter (h : Good cfg m p) (hfil : p.Filters p') (ht : p'.AllTerminal) :
    ¬p.QueueServed := by
  obtain ⟨-, rfl⟩ := hfil
  rintro ⟨r, hr, hc, hout⟩
  have hlt : r < p.sched.next := h.placed.lt_next r (mem_placed_of_waiting hr)
  have hleft : r ∉ p.inbox ++ (p.sched.waiting.filter fun r => !(p.sched.heap r).cancelled) ++
      p.held := by
    simp only [List.mem_append, not_or]
    exact ⟨⟨h.placed.notMem_inbox_of_waiting hr, by simp [hc]⟩, h.placed.notMem_held_of_waiting hr⟩
  have hopen : (p.sched.heap r).finishReason = none := h.waiting_open hr
  rcases ht r hlt hleft with hnil | ⟨-, hmem, -⟩
  · exact hout hnil
  · change (p.sched.heap r).finishReason ∈ _ at hmem
    simp [hopen] at hmem

/-- **A small step keeps the terminal states, unless it drops a request that was served.** -/
theorem allTerminal_op_iff (h : Good cfg m p) (hop : Op env cfg adm p p') (ht : p.AllTerminal) :
    p'.AllTerminal ↔ (p.Filters p' → ¬p.QueueServed) := by
  refine ⟨fun hterm hfil => allTerminal_filter h hfil hterm, fun hsafe r hr hleft => ?_⟩
  refine terminal_move (op_move hop h.placed h.shape r) (h.facts r).ending (fun hg => ?_)
    (fun hw _ => ?_) (phase_gone hleft hr)
  · have hlt : r < p.sched.next := by
      have hmem := mem_of_phase p r
      rwa [show p.phase r = .gone from hg] at hmem
    exact ht r hlt (notMem_placed_of_gone h.placed hg)
  · have hmem := mem_of_phase p r
    rw [show p.phase r = .waiting from hw] at hmem
    by_contra hout
    have hfil : p.Filters p' := op_filters hop hmem hleft
    refine hsafe hfil ⟨r, hmem, ?_, hout⟩
    obtain ⟨-, rfl⟩ := hfil
    by_contra hc
    exact hleft (mem_placed_of_waiting (List.mem_filter.mpr ⟨hmem, by simpa using hc⟩))

/-- **When every request leaves in a terminal state.** In every run of small steps, the engine's
and its clients', it is so at every point exactly if no filter of `_retire` runs while a cancelled
request in `waiting` has streamed tokens. -/
theorem terminal_state_iff (hm : m.Fresh) {points : List (Point σ)}
    (hrun : (rest (.init cfg m w) [] :: points).IsChain (Op env cfg adm)) :
    (∀ p ∈ rest (.init cfg m w) [] :: points, p.AllTerminal) ↔
      (rest (.init cfg m w) [] :: points).IsChain fun p p' => p.Filters p' → ¬p.QueueServed :=
  forall_chain_iff (P := Point.AllTerminal) (Q := Good cfg m) (fun _ _ hgood hop => hgood.op hop)
    (fun _ _ => allTerminal_op_iff) (.init hm w) (fun r hr => absurd hr (Nat.not_lt_zero r)) hrun

/-- Two clients, one of them cancelled before the first step. -/
theorem terminal_state_iff_dropped : ∃ points : List (Point History), points.length = 5 ∧
    ((∀ p ∈ rest (.init {} (.block (.new 3 2 Nat.two_pos false)) .start) [] :: points,
        p.AllTerminal) ↔
      (rest (.init {} (.block (.new 3 2 Nat.two_pos false)) .start) [] :: points).IsChain
        fun p p' => p.Filters p' → ¬p.QueueServed) := by
  have hidle : ∀ {s : Scheduler History} {inbox : List Ref}, (rest s inbox).Idle := ⟨rfl, rfl, rfl⟩
  have hrun : ∃ points : List (Point History), points.length = 5 ∧
      (rest (.init {} (.block (.new 3 2 Nat.two_pos false)) .start) [] :: points).IsChain
        (Op (Env.ofNext fun toks => toks.length) {} fun _ _ => True) :=
    ⟨[_, _, _, _, _], rfl,
      .cons_cons (.create _ { requestId := "a", promptTokenIds := [1, 2], maxNewTokens := 3 }) <|
      .cons_cons (.create _ { requestId := "b", promptTokenIds := [3], maxNewTokens := 3 }) <|
      .cons_cons (.submit _ [] [1] 0 hidle rfl) <|
      .cons_cons (.cancel _ 0 (by decide)) <|
      .cons_cons (.step (.dropCancelled _ hidle)) <| .singleton _⟩
  obtain ⟨points, hlen, hrun⟩ := hrun
  exact ⟨points, hlen, terminal_state_iff (Manager.fresh_block_new ..) hrun⟩

/-- The second request is evicted in the step that admitted it, with one token, and cancelled
while it waits: it leaves with that token, in state `WAITING`, with no reason and no time. -/
theorem evicted_then_cancelled_stays_open :
    ∃ s, run (Scheduler.act (Env.ofNext fun toks => toks.length) { preemption := true })
        (.init { preemption := true } (.block (.new 3 2 Nat.two_pos false)) .start)
        [.submit { requestId := "a", promptTokenIds := [1, 2], maxNewTokens := 3 },
          .submit { requestId := "b", promptTokenIds := [3, 4], maxNewTokens := 3 },
          .step, .cancel 1, .step] = .ok s ∧
      1 < s.next ∧ 1 ∉ s.waiting ∧ 1 ∉ s.running ∧ (s.heap 1).outputTokenIds = [2] ∧
        (s.heap 1).state = .waiting ∧ (s.heap 1).finishReason = none ∧
        (s.heap 1).finishTime = none ∧ ¬(rest s []).AllTerminal := by
  decide +kernel

end LlmServe
