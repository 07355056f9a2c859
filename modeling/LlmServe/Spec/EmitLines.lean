import LlmServe.Properties.Invariant
import LlmServe.Spec.Handlers

/-!
# The batched engine, line by line where a handler can notice it

A small step is more than one line where `_emit` runs, and where `_retire` closes a request whose
client has left. `LineStep` cuts these two at each line that writes a field of the request, and at
the call of the sink. Everywhere else it takes the small steps.

Between two such lines the engine is not at a `Point` of `StepOp`. `Mid` gives the one at which the
method began, with what other threads have done since; the rest of the lines do what the small step
would (`mid_step`), and left alone they are the small step (`lines_of_stepOp`).
-/

namespace LlmServe

open Infra Point Relation

/-- The next line of `_emit`, behind `now = time.perf_counter()`. -/
inductive EmitPc where
  | append
  | stamp
  | reason
  | finish
  | sink
  deriving DecidableEq

namespace EmitPc

/-- What the line writes to the request. -/
def write (now : Time) (tok : Token) (q : Request) : EmitPc → Request
  | .append => { q with outputTokenIds := q.outputTokenIds ++ [tok] }
  | .stamp => if q.firstTokenTime = none then { q with firstTokenTime := some now } else q
  | .reason =>
    if q.maxNewTokens ≤ q.outputTokenIds.length then { q with finishReason := some .length }
    else if tok = eosTokenId ∧ q.ignoreEos = false then { q with finishReason := some .stop }
    else q
  | .finish => if q.finished then { q with finishTime := some now } else q
  | .sink => q

def next : EmitPc → EmitPc
  | .append => .stamp
  | .stamp => .reason
  | .reason => .finish
  | .finish | .sink => .sink

/-- What the lines before have written. -/
def written (now : Time) (tok : Token) (q : Request) : EmitPc → Request
  | .append => q
  | .stamp => append.write now tok q
  | .reason => stamp.write now tok (append.write now tok q)
  | .finish => reason.write now tok (stamp.write now tok (append.write now tok q))
  | .sink => finish.write now tok (reason.write now tok (stamp.write now tok (append.write now tok q)))

variable (now : Time) (tok : Token) {q : Request}

theorem written_next : ∀ pc : EmitPc,
    pc.next.written now tok q = pc.write now tok (pc.written now tok q)
  | .append | .stamp | .reason | .finish | .sink => rfl

/-- No line of `_emit` looks at the flag. -/
theorem write_cancelled (pc : EmitPc) : pc.write now tok { q with cancelled := true } =
    { pc.write now tok q with cancelled := true } := by
  cases pc with
  | append => rfl
  | stamp =>
    simp only [write]
    split <;> rfl
  | reason =>
    simp only [write]
    split
    · rfl
    · split <;> rfl
  | finish =>
    have hfin : ({ q with cancelled := true } : Request).finished = q.finished := rfl
    simp only [write, hfin]
    cases q.finished <;> rfl
  | sink => rfl

theorem written_cancelled (pc : EmitPc) : pc.written now tok { q with cancelled := true } =
    { pc.written now tok q with cancelled := true } := by
  cases pc <;> simp only [written, write_cancelled]

/-- A line unsets nothing. -/
theorem write_completed (pc : EmitPc) (h : q.Completed) : (pc.write now tok q).Completed := by
  cases pc with
  | append => exact ⟨h.firstTokenTime, h.finishTime, h.finishReason⟩
  | stamp =>
    simp only [write]
    split
    · exact ⟨by simp, h.finishTime, h.finishReason⟩
    · exact h
  | reason =>
    simp only [write]
    split
    · exact ⟨h.firstTokenTime, h.finishTime, by simp⟩
    · split
      · exact ⟨h.firstTokenTime, h.finishTime, by simp⟩
      · exact h
  | finish =>
    simp only [write]
    split
    · exact ⟨h.firstTokenTime, by simp, h.finishReason⟩
    · exact h
  | sink => exact h

theorem written_completed (pc : EmitPc) (h : q.Completed) : (pc.written now tok q).Completed := by
  have happend := append.write_completed now tok h
  have hstamp := stamp.write_completed now tok happend
  have hreason := reason.write_completed now tok hstamp
  cases pc with
  | append => exact h
  | stamp => exact happend
  | reason => exact hstamp
  | finish => exact hreason
  | sink => exact finish.write_completed now tok hreason

end EmitPc

/-- The method that the engine thread is in, where a small step is cut. -/
inductive EngineLine where
  | emit (r : Ref) (tok : Token) (now : Time) (pc : EmitPc)
  /-- At `req.finish_time = time.perf_counter()` in `_retire`. -/
  | mark (r : Ref)

structure LineThread (σ : Type) where
  point : Point σ
  line : Option EngineLine := none

variable {σ : Type}

/-- The last lines of `_emit`. -/
def Scheduler.callSink (s : Scheduler σ) (r : Ref) (tok : Token) : Scheduler σ :=
  let s :=
    if (s.heap r).sink.isSome then
      { s with trace := s.trace ++ [.sink r tok (s.heap r).finished] }
    else s
  { s with trace := s.trace ++ [.emitted r (s.heap r).outputTokenIds] }

/-- One line of the engine thread. -/
inductive LineStep (env : Env σ) (cfg : EngineConfig) : LineThread σ → LineThread σ → Prop
  /-- A small step that writes none of the fields. -/
  | op (p p' : Point σ) (h : StepOp env cfg (fun _ _ => True) p p')
      (hsame : ∀ r, (p.sched.heap r).SameFields (p'.sched.heap r)) :
      LineStep env cfg { point := p } { point := p' }
  | submit (p : Point σ) (pre post : List Ref) (r : Ref) (hidle : p.Idle)
      (hin : p.inbox = pre ++ r :: post) :
      LineStep env cfg { point := p }
        { point := { p with sched := p.sched.submit r, inbox := pre ++ post } }
  /-- `now = time.perf_counter()`. -/
  | now (p : Point σ) (r : Ref) (tok : Token) (due : List (Ref × Token))
      (hdue : p.due = (r, tok) :: due) :
      LineStep env cfg { point := p }
        { point := { p with sched := (p.sched.perfCounter env).2 }
          line := some (.emit r tok (p.sched.perfCounter env).1 .append) }
  | write (p : Point σ) (r : Ref) (tok : Token) (now : Time) (pc : EmitPc) (hpc : pc ≠ .sink) :
      LineStep env cfg { point := p, line := some (.emit r tok now pc) }
        { point := { p with sched := p.sched.modify r fun q => pc.write now tok q }
          line := some (.emit r tok now pc.next) }
  | sink (p : Point σ) (r : Ref) (tok : Token) (now : Time) (due : List (Ref × Token))
      (hdue : p.due = (r, tok) :: due) :
      LineStep env cfg { point := p, line := some (.emit r tok now .sink) }
        { point := { p with sched := p.sched.callSink r tok, due } }
  /-- `req.finish_reason = "cancelled"` in `_retire`. -/
  | markReason (p : Point σ) (r : Ref) (hidle : p.Idle) (hr : r ∈ p.sched.running)
      (hc : (p.sched.heap r).cancelled = true) (hopen : (p.sched.heap r).finished = false) :
      LineStep env cfg { point := p }
        { point := { p with
            sched := p.sched.modify r fun q => { q with finishReason := some .cancelled } }
          line := some (.mark r) }
  | markTime (p : Point σ) (r : Ref) :
      LineStep env cfg { point := p, line := some (.mark r) }
        { point := { p with
            sched := (p.sched.perfCounter env).2.modify r fun q =>
              { q with finishTime := some (p.sched.perfCounter env).1 } } }

/-! ## The small step under way -/

/-- The lines so far are some of those that lead from `p` to a next point. -/
inductive Mid (env : Env σ) : LineThread σ → Point σ → Prop
  | whole (p : Point σ) : Mid env { point := p } p
  | emit (p : Point σ) (r : Ref) (tok : Token) (due : List (Ref × Token)) (pc : EmitPc)
      (hdue : p.due = (r, tok) :: due) :
      Mid env
        { point := { p with
            sched := (p.sched.perfCounter env).2.modify r fun q =>
              pc.written (p.sched.perfCounter env).1 tok q }
          line := some (.emit r tok (p.sched.perfCounter env).1 pc) } p
  | mark (p : Point σ) (r : Ref) (hidle : p.Idle) (hr : r ∈ p.sched.running)
      (hc : (p.sched.heap r).cancelled = true) (hopen : (p.sched.heap r).finished = false) :
      Mid env
        { point := { p with
            sched := p.sched.modify r fun q => { q with finishReason := some .cancelled } }
          line := some (.mark r) } p

namespace Scheduler

theorem modify_modify (s : Scheduler σ) (r : Ref) (f g : Request → Request) :
    (s.modify r f).modify r g = s.modify r fun q => g (f q) := by
  simp [modify]

theorem modify_id (s : Scheduler σ) (r : Ref) : (s.modify r fun q => q) = s := by
  simp [modify]

theorem modify_comm (s : Scheduler σ) (r x : Ref) (f g : Request → Request)
    (h : ∀ q, g (f q) = f (g q)) : (s.modify r f).modify x g = (s.modify x g).modify r f := by
  by_cases hx : x = r
  · subst hx
    simp [modify, h]
  · simp only [modify, Function.update_of_ne hx, Function.update_of_ne (Ne.symm hx)]
    rw [Function.update_comm (Ne.symm hx)]

theorem modify_create (s : Scheduler σ) (r : Ref) (f : Request → Request) (q : Request)
    (hr : r ≠ s.next) : (s.modify r f).create q = (s.create q).modify r f := by
  simp only [modify, create, Function.update_of_ne hr]
  rw [Function.update_comm hr]

/-- Both lines of `_retire` that close a request. -/
theorem markCancelled_lines (env : Env σ) {s : Scheduler σ} {r : Ref}
    (hc : (s.heap r).cancelled = true) (hopen : (s.heap r).finished = false) :
    s.markCancelled env r =
      ((s.modify r fun q => { q with finishReason := some .cancelled }).perfCounter env).2.modify r
        fun q => { q with finishTime := some (s.perfCounter env).1 } := by
  unfold markCancelled
  rw [hc, hopen]
  simp [modify, perfCounter]

end Scheduler

variable {env : Env σ} {cfg : EngineConfig} {m : Manager} {p p' : Point σ} {t t' : LineThread σ}

/-- **The lines of a method do what its small step does.** -/
theorem mid_step (hmid : Mid env t p) (hstep : LineStep env cfg t t') :
    ∃ p', Reach env cfg p p' ∧ Mid env t' p' := by
  cases hstep with
  | op p₀ p' h hsame =>
    cases hmid
    exact ⟨p', .single (.step h), .whole p'⟩
  | submit p₀ pre post r hidle hin =>
    cases hmid
    exact ⟨_, .single (.submit _ pre post r hidle hin), .whole _⟩
  | now p₀ r tok due hdue =>
    cases hmid
    refine ⟨p, .refl, ?_⟩
    have hstart : Mid env _ _ := Mid.emit p r tok due .append hdue
    rwa [show (fun q => EmitPc.written (p.sched.perfCounter env).1 tok q .append) = fun q => q from rfl,
      Scheduler.modify_id] at hstart
  | write p₀ r tok now pc hpc =>
    cases hmid with
    | emit _ _ _ due _ hdue =>
      refine ⟨p, .refl, ?_⟩
      have hnext : Mid env _ _ := Mid.emit p r tok due pc.next hdue
      simp only [EmitPc.written_next] at hnext
      dsimp only
      rw [Scheduler.modify_modify]
      exact hnext
  | sink p₀ r tok now due hdue =>
    cases hmid with
    | emit _ _ _ due₀ _ hdue₀ =>
      obtain ⟨-, rfl⟩ := List.cons.inj (hdue₀.symm.trans hdue)
      exact ⟨_, .single (.step (.emit p r tok due₀ hdue₀)), .whole _⟩
  | markReason p₀ r hidle hr hc hopen =>
    cases hmid
    exact ⟨p, .refl, .mark p r hidle hr hc hopen⟩
  | markTime p₀ r =>
    cases hmid with
    | mark _ _ hidle hr hc hopen =>
      refine ⟨_, .single (.step (.markCancelled p r hidle hr)), ?_⟩
      rw [Scheduler.markCancelled_lines env hc hopen]
      exact .whole _

/-! ## Left alone -/

/-- The lines of `_emit`, one after the other. -/
theorem emit_lines (p : Point σ) (r : Ref) (tok : Token) (due : List (Ref × Token))
    (hdue : p.due = (r, tok) :: due) :
    ReflTransGen (LineStep env cfg) { point := p }
      { point := { p with sched := p.sched.emit env r tok, due } } := by
  have hfield : ∀ (p : Point σ) (now : Time) (pc : EmitPc), pc ≠ .sink →
      ReflTransGen (LineStep env cfg) { point := p, line := some (.emit r tok now pc) }
        { point := { p with sched := p.sched.modify r fun q => pc.write now tok q }
          line := some (.emit r tok now pc.next) } := fun p now pc hpc =>
    .single (.write p r tok now pc hpc)
  refine .trans (.single (.now p r tok due hdue)) ?_
  refine .trans (hfield _ _ .append (by simp)) (.trans (hfield _ _ .stamp (by simp)) ?_)
  refine .trans (hfield _ _ .reason (by simp)) (.trans (hfield _ _ .finish (by simp)) ?_)
  simp only [Scheduler.modify_modify]
  exact .single (.sink _ r tok _ due hdue)

/-- **A small step is lines of the engine thread.** -/
theorem lines_of_stepOp (h : StepOp env cfg (fun _ _ => True) p p') :
    ReflTransGen (LineStep env cfg) { point := p } { point := p' } := by
  have hop : (∀ r, (p.sched.heap r).SameFields (p'.sched.heap r)) →
      ReflTransGen (LineStep env cfg) { point := p } { point := p' } := fun hsame =>
    .single (.op p p' h hsame)
  cases h with
  | emit r tok due hdue => exact emit_lines p r tok due hdue
  | markCancelled r hidle hr =>
    by_cases hmark : (p.sched.heap r).cancelled = true ∧ (p.sched.heap r).finished = false
    · rw [Scheduler.markCancelled_lines env hmark.1 hmark.2]
      exact .trans (.single (.markReason p r hidle hr hmark.1 hmark.2)) (.single (.markTime _ r))
    · have hsame : p.sched.markCancelled env r = p.sched := by
        unfold Scheduler.markCancelled
        refine if_neg fun hboth => hmark ?_
        simpa using hboth
      rw [hsame]
  | dropCancelled | sort | join | clock | count => exact hop fun _ => .refl _
  | setRunning r hr => exact hop (sameFields_update rfl ⟨rfl, rfl, rfl, rfl⟩)
  | leave s' pre post r hidle hr hfin hl =>
    obtain ⟨q, hfree, ht⟩ := Scheduler.leave_ok hl
    obtain ⟨rfl, -⟩ := Manager.free_ok hfree
    exact hop (sameFields_update ht.heap ⟨rfl, rfl, rfl, rfl⟩)
  | admitHead s' r tail hbatch hdue hw hsorted hroom hcan hadm ha =>
    obtain ⟨q, hq⟩ := Scheduler.stampAdmit_admitted ha
    obtain ⟨blocks, rfl, -⟩ := Manager.allocate_ok hq.allocate
    exact hop (sameFields_update hq.heap ⟨rfl, rfl, rfl, rfl⟩)
  | prefill s' batch rest nxt hbatch hdue hp hf =>
    obtain ⟨w, -, rfl⟩ := Scheduler.stepTokens_ok hf
    exact hop fun _ => .refl _
  | grow r hidle hr hfin =>
    obtain ⟨blocks, hq, -⟩ := p.sched.manager.appendSlot_spec (p.sched.heap r)
    have ht := (p.sched.appendSlot_touches r).2
    exact hop (sameFields_update ht.heap (by rw [hq]; exact ⟨rfl, rfl, rfl, rfl⟩))
  | preempt s' r hidle hr hfin hpre hp =>
    obtain ⟨q, hq⟩ := Scheduler.preempt_ok hp
    obtain ⟨rfl, -⟩ := Manager.free_ok hq.free
    exact hop (sameFields_update hq.heap ⟨rfl, rfl, rfl, rfl⟩)
  | decode s' batch rows nxt hidle hnd hrun hfin hcov hrows hf =>
    obtain ⟨w, -, rfl⟩ := Scheduler.stepTokens_ok hf
    exact hop fun _ => .refl _

/-! ## Among handlers -/

/-- The batched engine, as its handlers see it. -/
def batchedThread (env : Env σ) (cfg : EngineConfig) : EngineThread (LineThread σ) where
  step := LineStep env cfg
  heap t := t.point.sched.heap
  next t := t.point.sched.next
  trace t := t.point.sched.trace
  create n t :=
    { t with point := { t.point with
        sched := t.point.sched.create n.toRequest
        inbox := t.point.inbox ++ [t.point.sched.next] } }
  cancel r t :=
    if r < t.point.sched.next then
      { t with point := { t.point with sched := t.point.sched.cancel r } }
    else t

theorem mid_next (hmid : Mid env t p) : t.point.sched.next = p.sched.next := by
  cases hmid <;> rfl

theorem mid_create (hgood : Good cfg m p) (hmid : Mid env t p) (n : NewRequest) :
    Mid env ((batchedThread env cfg).create n t)
      { p with sched := p.sched.create n.toRequest, inbox := p.inbox ++ [p.sched.next] } := by
  cases hmid with
  | whole => exact .whole _
  | emit _ r tok due pc hdue =>
    have hin : r ∈ p.dueRefs := by simp [Point.dueRefs, hdue]
    have hr : r ≠ p.sched.next :=
      (hgood.placed.lt_next r (mem_placed_of_held (hgood.placed.due_mem_held hin))).ne
    have hcomm := (p.sched.perfCounter env).2.modify_create r
      (fun q => pc.written (p.sched.perfCounter env).1 tok q) n.toRequest hr
    have hnew : Mid env _ _ := Mid.emit { p with
      sched := p.sched.create n.toRequest, inbox := p.inbox ++ [p.sched.next] } r tok due pc hdue
    show Mid env { point := { p with
      sched := ((p.sched.perfCounter env).2.modify r _).create n.toRequest
      inbox := p.inbox ++ [p.sched.next] }, line := _ } _
    rw [hcomm]
    exact hnew
  | mark _ r hidle hr hc hopen =>
    have hne : r ≠ p.sched.next :=
      (hgood.placed.lt_next r (mem_placed_of_held (mem_held_of_running hr))).ne
    have hcomm := p.sched.modify_create r
      (fun q => { q with finishReason := some .cancelled }) n.toRequest hne
    have hcell : (p.sched.create n.toRequest).heap r = p.sched.heap r :=
      Function.update_of_ne hne ..
    have hnew : Mid env _ _ := Mid.mark { p with
      sched := p.sched.create n.toRequest, inbox := p.inbox ++ [p.sched.next] } r hidle hr
      (by rw [hcell]; exact hc) (by rw [hcell]; exact hopen)
    show Mid env { point := { p with
      sched := (p.sched.modify r _).create n.toRequest
      inbox := p.inbox ++ [p.sched.next] }, line := _ } _
    rw [hcomm]
    exact hnew

theorem mid_cancel (hmid : Mid env t p) {x : Ref} :
    Mid env { t with point := { t.point with sched := t.point.sched.cancel x } }
      { p with sched := p.sched.cancel x } := by
  cases hmid with
  | whole => exact .whole _
  | emit _ r tok due pc hdue =>
    have hcomm := (p.sched.perfCounter env).2.modify_comm r x
      (fun q => pc.written (p.sched.perfCounter env).1 tok q) (fun q => { q with cancelled := true })
      fun q => (pc.written_cancelled (p.sched.perfCounter env).1 tok).symm
    have hnew : Mid env _ _ := Mid.emit { p with sched := p.sched.cancel x } r tok due pc hdue
    dsimp only [Scheduler.cancel]
    rw [hcomm]
    exact hnew
  | mark _ r hidle hr hc hopen =>
    have hcomm := p.sched.modify_comm r x
      (fun q => { q with finishReason := some .cancelled }) (fun q => { q with cancelled := true })
      fun q => rfl
    have hflag : ((p.sched.cancel x).heap r).cancelled = true := by
      by_cases hrx : r = x
      · simp [Scheduler.cancel, Scheduler.modify, hrx]
      · rw [show (p.sched.cancel x).heap r = p.sched.heap r from Function.update_of_ne hrx ..]
        exact hc
    have hfin : ((p.sched.cancel x).heap r).finished = false :=
      (apply_update Request.finished (by rfl) r).trans hopen
    have hnew : Mid env _ _ := Mid.mark { p with sched := p.sched.cancel x } r hidle hr hflag hfin
    dsimp only [Scheduler.cancel]
    rw [hcomm]
    exact hnew

end LlmServe
