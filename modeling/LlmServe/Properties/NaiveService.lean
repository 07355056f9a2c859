import LlmServe.Properties.NaiveLines
import LlmServe.Spec.Handlers

/-!
# The fields of a request while the naive engine serves it

`run` stamps the first token before it shows it. The other fields are written behind the loop, when
the last event has been shown. So of a request with events `first_token_time` is set, and the rest
once its service is over (`Dated`).
-/

namespace LlmServe

open Infra

namespace NaiveThread

variable {τ : Type} {runner : Runner τ} {t t' : NaiveThread τ} {r x : Ref}

/-! ## One line -/

section

variable {pc pc' : NaivePc} {q q' : Request} {events : List Event}

/-- No line of a service sets the flag. -/
theorem Line.cancelled_eq (h : Line r pc q q' events pc') : q'.cancelled = q.cancelled := by
  cases h <;> rfl

theorem Line.firstTokenTime (h : Line r pc q q' events pc') (hq : q.firstTokenTime ≠ none) :
    q'.firstTokenTime ≠ none := by
  cases h with
  | stamp _ tok first hfirst => exact hfirst
  | _ => exact hq

/-- A line unsets nothing. -/
theorem Line.completed (h : Line r pc q q' events pc') (hq : q.Completed) : q'.Completed := by
  refine ⟨h.firstTokenTime hq.firstTokenTime, ?_, ?_⟩
  · cases h with
    | finish _ now => exact Option.some_ne_none now
    | _ => exact hq.finishTime
  · cases h with
    | cancelled | name => simp
    | _ => exact hq.finishReason

/-- The callback comes behind the stamp. -/
theorem Line.stamped (h : Line r pc q q' events pc') {tok : Token} (hpc : pc' = .callback r tok) :
    q'.firstTokenTime ≠ none := by
  cases h with
  | stamp _ tok first hfirst => exact hfirst
  | callback => split at hpc <;> cases hpc
  | _ => cases hpc

theorem Line.finishTime (h : Line r pc q q' events pc')
    (hq : pc = .close r ∨ pc = .name r → q.finishTime ≠ none)
    (hpc : pc' = .close r ∨ pc' = .name r) : q'.finishTime ≠ none := by
  cases h with
  | finish _ now => exact Option.some_ne_none now
  | cancelled | record => exact hq (Or.inl rfl)
  | callback => split at hpc <;> simp at hpc
  | append | leave | stamp | name => simp at hpc

/-- The last line gives the reason. -/
theorem Line.last (h : Line r pc q q' events pc') (hpc : pc = .name r) (hq : q.finishTime ≠ none) :
    q'.finishTime ≠ none ∧ q'.finishReason ≠ none := by
  cases h with
  | name => exact ⟨hq, by simp⟩
  | _ => cases hpc

theorem Line.cancelled_reason (h : Line r pc q q' events pc')
    (hq : q.finishReason = some .cancelled → q.cancelled = true)
    (hq' : q'.finishReason = some .cancelled) : q'.cancelled = true := by
  rw [h.cancelled_eq]
  cases h with
  | cancelled _ hcan => exact hcan
  | name =>
    refine hq ?_
    cases hr : q.finishReason with
    | none => simp [hr] at hq'
    | some reason => simpa [hr] using hq'
  | _ => exact hq hq'

/-- Only `on_token` shows something, and only to the client of the request. -/
theorem Line.events_cases (h : Line r pc q q' events pc') :
    events = [] ∨ ∃ tok, pc = .callback r tok ∧ q' = q ∧ events = NaiveScheduler.onToken r q tok := by
  cases h with
  | callback _ tok => exact Or.inr ⟨tok, rfl, rfl, rfl⟩
  | _ => exact Or.inl rfl

theorem Line.calls_other (h : Line r pc q q' events pc') (hx : x ≠ r) : calls x events = [] := by
  rcases h.events_cases with rfl | ⟨tok, -, -, rfl⟩
  · rfl
  · unfold NaiveScheduler.onToken
    split
    · simp [calls, Ne.symm hx]
    · rfl

end

/-! ## Many lines -/

/-- What the fields of `r` say, where the engine thread is. -/
structure Dated (t : NaiveThread τ) (r : Ref) : Prop where
  first : ∀ tok, t.pc = .callback r tok → (t.sched.heap r).firstTokenTime ≠ none
  finish : t.pc = .close r ∨ t.pc = .name r → (t.sched.heap r).finishTime ≠ none
  shown : calls r t.sched.trace ≠ [] →
    (t.sched.heap r).firstTokenTime ≠ none ∧ (r ∈ t.serving ∨ (t.sched.heap r).Completed)
  reason : (t.sched.heap r).finishReason = some .cancelled → (t.sched.heap r).cancelled = true

/-- Nobody has been told anything, and nobody is served. -/
theorem Dated.fresh (hpc : r ∉ t.serving) (hcalls : calls r t.sched.trace = [])
    (hreason : (t.sched.heap r).finishReason ≠ some .cancelled) : Dated t r where
  first := fun tok h => absurd (by simp [serving, h]) hpc
  finish := fun h => absurd (by rcases h with h | h <;> simp [serving, h]) hpc
  shown := fun h => absurd hcalls h
  reason := fun h => absurd h hreason

/-- A step that writes none of the fields. The engine thread stays at its line, or the line is none
of the service of `r`, but for the first. -/
theorem Dated.congr (h : Dated t r) (hsame : (t.sched.heap r).SameFields (t'.sched.heap r))
    (hflag : (t.sched.heap r).cancelled = true → (t'.sched.heap r).cancelled = true)
    (htrace : calls r t'.sched.trace = calls r t.sched.trace)
    (hpc : t'.pc = t.pc ∨ r ∉ t.serving ∧ (r ∈ t'.serving → t'.pc = .loop r)) : Dated t' r := by
  have hline : t'.pc = t.pc ∨ t'.pc = .loop r ∨ r ∉ t'.serving := by
    rcases hpc with hpc | ⟨-, hloop⟩
    · exact Or.inl hpc
    · by_cases hin : r ∈ t'.serving
      · exact Or.inr (Or.inl (hloop hin))
      · exact Or.inr (Or.inr hin)
  refine ⟨fun tok hcall => ?_, fun hclose => ?_, fun hshown => ?_, fun hreason => ?_⟩
  · rw [hsame.firstTokenTime]
    refine h.first tok ?_
    rcases hline with hpc | hpc | hout
    · exact hpc ▸ hcall
    · cases hpc.symm.trans hcall
    · exact absurd (by simp [serving, hcall]) hout
  · rw [hsame.finishTime]
    refine h.finish ?_
    rcases hline with hpc | hpc | hout
    · exact hpc ▸ hclose
    · simp [hpc] at hclose
    · exact absurd (by rcases hclose with hc | hc <;> simp [serving, hc]) hout
  · rw [htrace] at hshown
    obtain ⟨hfirst, hrest⟩ := h.shown hshown
    rw [hsame.firstTokenTime]
    refine ⟨hfirst, hrest.imp (fun hin => ?_) fun hq => hq.same hsame⟩
    rcases hpc with hpc | ⟨hout, -⟩
    · rwa [serving, hpc]
    · exact absurd hin hout
  · rw [hsame.finishReason] at hreason
    exact hflag (h.reason hreason)

/-- The same, where it writes to one request. -/
theorem Dated.update {q : Request} (h : Dated t r)
    (hheap : t'.sched.heap = Function.update t.sched.heap x q)
    (hsame : (t.sched.heap x).SameFields q)
    (hflag : (t.sched.heap x).cancelled = true → q.cancelled = true)
    (htrace : calls r t'.sched.trace = calls r t.sched.trace)
    (hpc : t'.pc = t.pc ∨ r ∉ t.serving ∧ (r ∈ t'.serving → t'.pc = .loop r)) : Dated t' r := by
  refine h.congr (sameFields_update hheap hsame r) (fun hset => ?_) htrace hpc
  rw [hheap]
  by_cases hr : r = x
  · rw [hr, Function.update_self]
    exact hflag (hr ▸ hset)
  · rw [Function.update_of_ne hr]
    exact hset

/-- A line of the service of `r`. -/
theorem Dated.line {q : Request} {events : List Event} (h : Dated t r)
    (hline : Line r t.pc (t.sched.heap r) q events t'.pc)
    (hw : Writes t.sched t'.sched r q events) : Dated t' r := by
  refine ⟨fun tok hcall => ?_, fun hclose => ?_, fun hshown => ?_, fun hreason => ?_⟩
  · rw [hw.self]
    exact hline.stamped hcall
  · rw [hw.self]
    exact hline.finishTime h.finish hclose
  · rw [hw.self]
    have hfirst : q.firstTokenTime ≠ none := by
      rcases hline.events_cases with rfl | ⟨tok, hpc, rfl, rfl⟩
      · rw [hw.trace, List.append_nil] at hshown
        exact hline.firstTokenTime (h.shown hshown).1
      · exact h.first tok hpc
    refine ⟨hfirst, ?_⟩
    rcases hline.serving with ⟨hidle, hname⟩ | hin
    · -- the last line of the service
      obtain ⟨hfinish, hreason⟩ := hline.last hname (h.finish (Or.inr hname))
      exact Or.inr ⟨hfirst, hfinish, hreason⟩
    · exact Or.inl (hin ▸ List.mem_singleton_self r)
  · rw [hw.self] at hreason ⊢
    exact hline.cancelled_reason h.reason hreason

/-- Every request is dated. -/
structure AllDated (t : NaiveThread τ) : Prop where
  placed : NaivePlaced t
  unborn : ∀ r, t.sched.next ≤ r → calls r t.sched.trace = []
  dated : ∀ r, Dated t r

theorem allDated_init (w : τ) : AllDated (.init w) where
  placed := naivePlaced_init
  unborn := fun _ _ => rfl
  dated := fun _ => .fresh (by simp [serving, init]) rfl
    (by simp [init, NaiveScheduler.init, Request.blank])

/-- Taking a request out of `waiting` shows nothing. -/
theorem enter_silent (t : NaiveThread τ) :
    t.enter.sched.next = t.sched.next ∧ t.enter.sched.trace = t.sched.trace := by
  unfold enter
  cases t.sched.waiting.filter fun r => !(t.sched.heap r).cancelled <;> exact ⟨rfl, rfl⟩

theorem dated_enter (h : ∀ r, Dated t r) (hpc : t.pc = .idle) (r : Ref) : Dated t.enter r := by
  have hout : r ∉ t.serving := by simp [serving, hpc]
  unfold enter
  cases t.sched.waiting.filter fun r => !(t.sched.heap r).cancelled with
  | nil => exact (h r).congr (.refl _) id rfl (Or.inl rfl)
  | cons x rest =>
    refine (h r).update (x := x) rfl ⟨rfl, rfl, rfl, rfl⟩ id rfl (Or.inr ⟨hout, fun hin => ?_⟩)
    rw [List.mem_singleton.mp hin]

theorem allDated_line {q : Request} {events : List Event} (h : AllDated t)
    (hserving : t.serving = [x]) (hline : Line x t.pc (t.sched.heap x) q events t'.pc)
    (hw : Writes t.sched t'.sched x q events) (hin : t'.inbox = t.inbox) : AllDated t' := by
  have hother : ∀ r, r ≠ x → calls r t'.sched.trace = calls r t.sched.trace := by
    intro r hr
    rw [hw.trace, calls_append, hline.calls_other hr, List.append_nil]
  refine ⟨naivePlaced_line h.placed hserving hline hw hin, fun r hr => ?_, fun r => ?_⟩
  · rw [hw.next] at hr
    have hx : x < t.sched.next := h.placed.lt_next x (by simp [placed, hserving])
    rw [hother r (Nat.ne_of_gt (Nat.lt_of_lt_of_le hx hr))]
    exact h.unborn r hr
  · by_cases hr : r = x
    · subst hr
      exact (h.dated r).line hline hw
    · refine (h.dated r).congr ?_ ?_ (hother r hr) (Or.inr ⟨by simp [hserving, hr], ?_⟩)
      · rw [hw.other hr]
        exact .refl _
      · rw [hw.other hr]
        exact id
      · intro hin
        rcases hline.serving with ⟨hidle, -⟩ | hs
        · simp [serving, hidle] at hin
        · rw [hs] at hin
          exact absurd (List.mem_singleton.mp hin) hr

/-- **Every request is dated, whatever the threads do.** -/
theorem allDated_act {a : NaiveAction} (h : AllDated t) (hact : t.act runner a = .ok t') :
    AllDated t' := by
  have hplaced := naivePlaced_act h.placed hact
  cases a with
  | create n =>
    cases hact
    refine ⟨hplaced, fun r hr => h.unborn r (Nat.le_of_succ_le hr), fun r => ?_⟩
    by_cases hr : r = t.sched.next
    · subst hr
      refine .fresh (fun hin => ?_) (h.unborn _ (Nat.le_refl _)) ?_
      · exact Nat.lt_irrefl _ (h.placed.lt_next _ (List.mem_append_right _ hin))
      · show (Function.update t.sched.heap t.sched.next n.toRequest _).finishReason ≠ _
        rw [Function.update_self]
        simp [NewRequest.toRequest]
    · have hcell : (t.sched.create n.toRequest).heap r = t.sched.heap r :=
        Function.update_of_ne hr ..
      refine (h.dated r).congr ?_ ?_ rfl (Or.inl rfl)
      · exact hcell ▸ .refl _
      · exact fun hflag => hcell ▸ hflag
  | cancel x =>
    cases hact
    by_cases hx : x < t.sched.next
    · simp only [if_pos hx] at hplaced ⊢
      refine ⟨hplaced, h.unborn, fun r => ?_⟩
      exact (h.dated r).update (x := x) rfl ⟨rfl, rfl, rfl, rfl⟩ (fun _ => rfl) rfl (Or.inl rfl)
    · simp only [if_neg hx]
      exact h
  | submit =>
    cases hact
    unfold submit at hplaced ⊢
    split at hplaced
    · next x rest hpc hin =>
      refine ⟨hplaced, h.unborn, fun r => ?_⟩
      exact (h.dated r).update (x := x) rfl ⟨rfl, rfl, rfl, rfl⟩ id rfl (Or.inl rfl)
    · exact h
  | advance =>
    rcases advance_cases hact with ⟨hpc, rfl⟩ | ⟨r, q, events, hserving, hline, hw, hin⟩
    · refine ⟨hplaced, fun r hr => ?_, dated_enter h.dated hpc⟩
      rw [(enter_silent t).2]
      exact h.unborn r ((enter_silent t).1 ▸ hr)
    · exact allDated_line h hserving hline hw hin

/-! ## Among handlers -/

/-- The engine thread, or the end of its wait for the inbox. -/
theorem completed_step (h : t.act runner .submit = .ok t' ∨ t.act runner .advance = .ok t')
    (hq : (t.sched.heap r).Completed) : (t'.sched.heap r).Completed := by
  rcases h with h | h
  · cases h
    unfold submit
    split
    · refine completed_update rfl ?_ hq
      intro hx
      exact ⟨hx.firstTokenTime, hx.finishTime, hx.finishReason⟩
    · exact hq
  · rcases advance_cases h with ⟨-, rfl⟩ | ⟨x, q, events, -, hline, hw, -⟩
    · unfold enter
      cases t.sched.waiting.filter fun r => !(t.sched.heap r).cancelled with
      | nil => exact hq
      | cons x rest =>
        refine completed_update rfl ?_ hq
        intro hx
        exact ⟨hx.firstTokenTime, hx.finishTime, hx.finishReason⟩
    · exact completed_update hw.heap hline.completed hq

theorem cancelled_step (h : t.act runner .submit = .ok t' ∨ t.act runner .advance = .ok t') :
    (t'.sched.heap r).cancelled = (t.sched.heap r).cancelled := by
  rcases h with h | h
  · cases h
    unfold submit
    split
    · exact apply_update Request.cancelled (by rfl) r
    · rfl
  · rcases advance_cases h with ⟨-, rfl⟩ | ⟨x, q, events, -, hline, hw, -⟩
    · unfold enter
      cases t.sched.waiting.filter fun r => !(t.sched.heap r).cancelled with
      | nil => rfl
      | cons x rest => exact apply_update Request.cancelled (by rfl) r
    · rw [hw.heap]
      exact apply_update Request.cancelled hline.cancelled_eq r

end NaiveThread

open NaiveThread

variable {τ : Type} {runner : Runner τ}

/-- The naive engine, as its handlers see it. -/
def naiveThread (runner : Runner τ) : EngineThread (NaiveThread τ) where
  step t t' := t.act runner .submit = .ok t' ∨ t.act runner .advance = .ok t'
  heap t := t.sched.heap
  next t := t.sched.next
  trace t := t.sched.trace
  create n t := { t with
    sched := t.sched.create n.toRequest
    inbox := t.inbox ++ [t.sched.next] }
  cancel r t :=
    if r < t.sched.next then
      { t with sched := t.sched.modify r fun q => { q with cancelled := true } }
    else t

theorem lasting_naive : (naiveThread runner).Lasting AllDated where
  step := by
    intro t t' h hstep
    refine ⟨?_, fun r => completed_step hstep⟩
    rcases hstep with hstep | hstep
    · exact allDated_act h hstep
    · exact allDated_act h hstep
  create := by
    intro t n h
    have hact : t.act runner (.create n) = .ok ((naiveThread runner).create n t) := rfl
    refine ⟨allDated_act h hact, fun r hr hq => ?_⟩
    have hcell : ((naiveThread runner).create n t).sched.heap r = t.sched.heap r :=
      Function.update_of_ne hr ..
    show (((naiveThread runner).create n t).sched.heap r).Completed
    rw [hcell]
    exact hq
  cancel := by
    intro t x h
    have hact : t.act runner (.cancel x) = .ok ((naiveThread runner).cancel x t) := rfl
    refine ⟨allDated_act h hact, fun r hq => ?_⟩
    dsimp only [naiveThread]
    split
    · refine completed_update rfl ?_ hq
      intro hx
      exact ⟨hx.firstTokenTime, hx.finishTime, hx.finishReason⟩
    · exact hq

/-- A handler that still reads has not set the flag. -/
def ReadersLive (v : Server (NaiveThread τ)) : Prop :=
  ∀ r, (v.handler r).pc = .reading → (v.engine.sched.heap r).cancelled = false

theorem reading_step {v v' : Server (NaiveThread τ)} (h : ReadersLive v)
    (hstep : ServerStep (naiveThread runner) v v') : ReadersLive v' := by
  intro r hpc
  cases hstep with
  | engine t ht => exact (cancelled_step ht).trans (h r hpc)
  | create n stream hlive =>
    change (Function.update v.handler v.engine.sched.next _ r).pc = .reading at hpc
    show (Function.update v.engine.sched.heap v.engine.sched.next n.toRequest r).cancelled = false
    by_cases hr : r = v.engine.sched.next
    · rw [hr, Function.update_self]
      exact hlive
    · rw [Function.update_of_ne hr] at hpc ⊢
      exact h r hpc
  | handle x =>
    by_cases hr : r = x
    · subst hr
      rw [Server.handle_self] at hpc
      obtain ⟨hread, hset⟩ := Handler.advance_reading hpc
      rw [Server.handle_engine, hset]
      exact h r hread
    · -- it may set the flag of its own request only
      rw [Server.handle_other _ v hr] at hpc
      have hcancel : (((naiveThread runner).cancel x v.engine).sched.heap r).cancelled = false := by
        dsimp only [naiveThread]
        split
        · show (Function.update v.engine.sched.heap x _ r).cancelled = false
          rw [Function.update_of_ne hr]
          exact h r hpc
        · exact h r hpc
      rw [Server.handle_engine]
      split
      · exact hcancel
      · exact h r hpc
  | disconnect x =>
    change (Function.update v.handler x _ r).pc = .reading at hpc
    refine h r ?_
    by_cases hr : r = x
    · rw [hr, Function.update_self] at hpc
      exact absurd hpc (Handler.disconnect_pc _)
    · rwa [Function.update_of_ne hr] at hpc

end LlmServe
