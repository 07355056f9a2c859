import LlmServe.Engine.Handler
import LlmServe.Properties.TokenStream

/-!
# An engine thread and its handlers

`EngineThread` is what the handlers see of an engine: a thread that takes steps, the objects, the
calls of the sinks. `ServerStep` lets the engine thread and any handler go one line further, in any
order. If the fields of a completed request stay (`Lasting`), and every final event is taken from a
completed request, then a handler reports nothing wrong (`good_step`).
-/

namespace LlmServe

structure EngineThread (S : Type) where
  /-- The engine thread, one line further. -/
  step : S → S → Prop
  heap : S → Ref → Request
  next : S → Ref
  trace : S → List Event
  /-- A handler builds a request and submits it. -/
  create : NewRequest → S → S
  /-- A handler sets `req.cancelled`. -/
  cancel : Ref → S → S

structure Server (S : Type) where
  engine : S
  handler : Ref → Handler

variable {S : Type} (E : EngineThread S)

/-- An engine without clients. -/
def Server.start (s : S) : Server S := { engine := s, handler := fun _ => .none }

/-- The queue of a handler: `sink` puts into it what it is called with. -/
def EngineThread.events (s : S) (r : Ref) : List SinkEvent := calls r (E.trace s)

/-- The handler of `r`, one line further. -/
def Server.handle (v : Server S) (r : Ref) : Server S :=
  let a := (v.handler r).advance (E.heap v.engine r) (E.events v.engine r)
  { engine := if a.2 then E.cancel r v.engine else v.engine
    handler := Function.update v.handler r a.1 }

theorem Server.handle_engine (v : Server S) (r : Ref) : (v.handle E r).engine =
    if ((v.handler r).advance (E.heap v.engine r) (E.events v.engine r)).2 = true then
      E.cancel r v.engine
    else v.engine := rfl

theorem Server.handle_self (v : Server S) (r : Ref) : (v.handle E r).handler r =
    ((v.handler r).advance (E.heap v.engine r) (E.events v.engine r)).1 :=
  Function.update_self ..

theorem Server.handle_other (v : Server S) {r x : Ref} (h : r ≠ x) :
    (v.handle E x).handler r = v.handler r :=
  Function.update_of_ne h ..

inductive ServerStep : Server S → Server S → Prop
  | engine (v : Server S) (s : S) (h : E.step v.engine s) : ServerStep v { v with engine := s }
  /-- A handler starts with `Request(...)`, whose flag is not set. -/
  | create (v : Server S) (n : NewRequest) (stream : Bool) (hlive : n.cancelled = false) :
      ServerStep v
        { engine := E.create n v.engine
          handler := Function.update v.handler (E.next v.engine) { stream } }
  | handle (v : Server S) (r : Ref) : ServerStep v (v.handle E r)
  | disconnect (v : Server S) (r : Ref) :
      ServerStep v { v with handler := Function.update v.handler r (v.handler r).disconnect }

/-- The next event of the queue is a final one. -/
def Server.AtFinal (v : Server S) (r : Ref) : Prop :=
  (v.handler r).pc = .reading ∧
    ∃ tok, (E.events v.engine r)[(v.handler r).taken]? = some (tok, true)

/-- In this step the handler of `r` takes a final event. -/
def TakesFinal (v v' : Server S) (r : Ref) : Prop :=
  v.AtFinal E r ∧ (v'.handler r).taken ≠ (v.handler r).taken

/-! ## Completed requests -/

structure Request.Completed (q : Request) : Prop where
  firstTokenTime : q.firstTokenTime ≠ none
  finishTime : q.finishTime ≠ none
  finishReason : q.finishReason ≠ none

/-- The fields that the lines of a service write. -/
structure Request.SameFields (q q' : Request) : Prop where
  outputTokenIds : q'.outputTokenIds = q.outputTokenIds
  firstTokenTime : q'.firstTokenTime = q.firstTokenTime
  finishTime : q'.finishTime = q.finishTime
  finishReason : q'.finishReason = q.finishReason

theorem Request.Completed.same {q q' : Request} (h : q.Completed) (hs : q.SameFields q') :
    q'.Completed :=
  ⟨hs.firstTokenTime ▸ h.firstTokenTime, hs.finishTime ▸ h.finishTime,
    hs.finishReason ▸ h.finishReason⟩

theorem Request.SameFields.refl (q : Request) : q.SameFields q := ⟨rfl, rfl, rfl, rfl⟩

theorem sameFields_update {heap heap' : Ref → Request} {r : Ref} {q : Request}
    (h : heap' = Function.update heap r q) (hq : (heap r).SameFields q) (x : Ref) :
    (heap x).SameFields (heap' x) := by
  rw [h]
  by_cases hx : x = r
  · rw [hx, Function.update_self]
    exact hq
  · rw [Function.update_of_ne hx]
    exact .refl _

theorem holds_update {P : Request → Prop} {heap heap' : Ref → Request} {r x : Ref} {q : Request}
    (h : heap' = Function.update heap x q) (hq : P (heap x) → P q) (hr : P (heap r)) :
    P (heap' r) := by
  rw [h]
  by_cases hrx : r = x
  · rw [hrx, Function.update_self]
    exact hq (hrx ▸ hr)
  · rw [Function.update_of_ne hrx]
    exact hr

theorem completed_update {heap heap' : Ref → Request} {r x : Ref} {q : Request}
    (h : heap' = Function.update heap x q) (hq : (heap x).Completed → q.Completed)
    (hr : (heap r).Completed) : (heap' r).Completed := holds_update h hq hr

/-- The fields of a completed request stay, in the states of `I`. -/
structure EngineThread.Lasting (I : S → Prop) : Prop where
  step : ∀ s s', I s → E.step s s' →
    I s' ∧ ∀ r, (E.heap s r).Completed → (E.heap s' r).Completed
  create : ∀ s n, I s →
    I (E.create n s) ∧ ∀ r, r ≠ E.next s → (E.heap s r).Completed → (E.heap (E.create n s) r).Completed
  cancel : ∀ s x, I s →
    I (E.cancel x s) ∧ ∀ r, (E.heap s r).Completed → (E.heap (E.cancel x s) r).Completed

/-- What a handler that took its final event from a completed request reports. -/
def HandlerReport.Good : HandlerReport → Prop
  | .doneLine finishReason => finishReason ≠ none
  | .cancelled final => final = false
  | .response finishReason ttft e2e => finishReason ≠ none ∧ ttft ≠ none ∧ e2e ≠ none

structure Handler.Good (q : Request) (h : Handler) : Prop where
  reports : ∀ report ∈ h.reports, report.Good
  completed : h.pc = .doneLine ∨ h.pc = .closing true ∨ h.pc = .response → q.Completed

/-- A handler that goes on reading has set no flag. -/
theorem Handler.advance_reading {q : Request} {h : Handler} {events : List SinkEvent}
    (hpc : (h.advance q events).1.pc = .reading) :
    h.pc = .reading ∧ (h.advance q events).2 = false := by
  unfold Handler.advance at hpc ⊢
  cases hp : h.pc with
  | reading =>
    simp only [hp] at hpc ⊢
    split
    · exact ⟨trivial, rfl⟩
    · split <;> exact ⟨trivial, rfl⟩
  | doneLine => simp [hp] at hpc
  | closing final =>
    simp only [hp] at hpc
    cases final <;> cases hs : h.stream <;> cases hq : q.finished <;> simp [hs, hq] at hpc
  | response => simp [hp] at hpc
  | closed => simp [hp] at hpc

/-- A disconnected handler does not read. -/
theorem Handler.disconnect_pc (h : Handler) : h.disconnect.pc ≠ .reading := by
  unfold Handler.disconnect
  split <;> simp [*]

namespace Handler.Good

variable {q q' : Request} {h : Handler} {events : List SinkEvent}

theorem congr (hgood : h.Good q) (hq : q.Completed → q'.Completed) : h.Good q' :=
  ⟨hgood.reports, fun hpc => hq (hgood.completed hpc)⟩

theorem fresh (stream : Bool) : Handler.Good q { stream } :=
  ⟨by simp, by simp⟩

/-- One report more. -/
theorem report (hgood : h.Good q) {rep : HandlerReport} (hrep : rep.Good) :
    ∀ x ∈ h.reports ++ [rep], x.Good := by
  intro x hx
  rcases List.mem_append.mp hx with hx | hx
  · exact hgood.reports x hx
  · rw [List.mem_singleton.mp hx]
    exact hrep

theorem disconnect (hgood : h.Good q) : h.disconnect.Good q := by
  unfold Handler.disconnect
  split
  · exact ⟨hgood.reports, by simp⟩
  · next hpc => exact ⟨hgood.reports, fun _ => hgood.completed (Or.inl hpc)⟩
  · exact hgood
  · exact hgood
  · exact hgood

/-- **A line of a handler.** -/
theorem advance (hgood : h.Good q)
    (hfinal : h.pc = .reading → (∃ tok, events[h.taken]? = some (tok, true)) → q.Completed) :
    (h.advance q events).1.Good q := by
  unfold Handler.advance
  cases hpc : h.pc with
  | reading =>
    dsimp only
    cases he : events[h.taken]? with
    | none => exact hgood
    | some e =>
      obtain ⟨tok, fin⟩ := e
      cases fin with
      | false => exact ⟨hgood.reports, by simp⟩
      | true => exact ⟨hgood.reports, fun _ => hfinal hpc ⟨tok, he⟩⟩
  | doneLine =>
    have hq := hgood.completed (Or.inl hpc)
    exact ⟨hgood.report hq.finishReason, fun _ => hq⟩
  | closing final =>
    have hresp : ∀ hd : Handler, hd.pc = (if final && !h.stream then .response else .closed) →
        hd.pc = .doneLine ∨ hd.pc = .closing true ∨ hd.pc = .response → q.Completed := by
      intro hd he hor
      cases final with
      | true => exact hgood.completed (Or.inr (Or.inl hpc))
      | false => simp [he] at hor
    dsimp only
    cases hfin : q.finished with
    | true => exact ⟨hgood.reports, hresp _ rfl⟩
    | false =>
      refine ⟨hgood.report ?_, hresp _ rfl⟩
      cases final with
      | true =>
        have hq := hgood.completed (Or.inr (Or.inl hpc))
        exact absurd (Request.not_finished_iff.mp hfin) hq.finishReason
      | false => rfl
  | response =>
    have hq := hgood.completed (Or.inr (Or.inr hpc))
    refine ⟨hgood.report ⟨hq.finishReason, ?_, ?_⟩, by simp⟩
    · simpa using hq.firstTokenTime
    · simpa using hq.finishTime
  | closed => exact hgood

end Handler.Good

variable {E} {I : S → Prop} {v v' : Server S}

theorem EngineThread.Lasting.handle (hE : E.Lasting I) (hI : I v.engine) (x : Ref) :
    I (v.handle E x).engine ∧
      ∀ r, (E.heap v.engine r).Completed → (E.heap (v.handle E x).engine r).Completed := by
  rw [Server.handle_engine]
  split
  · exact hE.cancel _ x hI
  · exact ⟨hI, fun _ hq => hq⟩

/-- What holds at every line of the engine thread holds among handlers. -/
theorem EngineThread.Lasting.server (hE : E.Lasting I) (hstep : ServerStep E v v')
    (hI : I v.engine) : I v'.engine := by
  cases hstep with
  | engine s hs => exact (hE.step _ _ hI hs).1
  | create n stream hlive => exact (hE.create _ n hI).1
  | handle x => exact (hE.handle hI x).1
  | disconnect x => exact hI

/-- **Handlers that take their final events from completed requests report nothing wrong.** -/
theorem good_step (hE : E.Lasting I) (hstep : ServerStep E v v') (hI : I v.engine)
    (hfinal : ∀ r, TakesFinal E v v' r → (E.heap v.engine r).Completed)
    (h : ∀ r, (v.handler r).Good (E.heap v.engine r)) (r : Ref) :
    (v'.handler r).Good (E.heap v'.engine r) := by
  cases hstep with
  | engine s hs => exact (h r).congr ((hE.step _ _ hI hs).2 r)
  | create n stream hlive =>
    show ((Function.update v.handler (E.next v.engine) _) r).Good _
    by_cases hr : r = E.next v.engine
    · rw [hr, Function.update_self]
      exact .fresh stream
    · rw [Function.update_of_ne hr]
      exact (h r).congr ((hE.create _ n hI).2 r hr)
  | handle x =>
    have hkeep := (hE.handle hI x).2 r
    by_cases hr : r = x
    · subst hr
      refine Handler.Good.congr ?_ hkeep
      rw [Server.handle_self]
      refine (h r).advance fun hpc hev => hfinal r ⟨⟨hpc, hev⟩, ?_⟩
      -- it takes the event
      obtain ⟨tok, he⟩ := hev
      rw [Server.handle_self]
      unfold Handler.advance
      simp only [hpc, he, if_true]
      exact Nat.succ_ne_self _
    · rw [Server.handle_other E v hr]
      exact (h r).congr hkeep
  | disconnect x =>
    show ((Function.update v.handler x _) r).Good _
    by_cases hr : r = x
    · rw [hr, Function.update_self]
      exact (h x).disconnect
    · rw [Function.update_of_ne hr]
      exact h r

end LlmServe
