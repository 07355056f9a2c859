import LlmServe.Engine.NextToken
import LlmServe.Engine.RetireCall
import LlmServe.Properties.Books
import LlmServe.Properties.Faults
import LlmServe.Spec.Runs

/-!
# A disconnected client stops consuming capacity

`Disconnected` follows a flagged request through one call of `_retire`, round by round, while other
clients go on: it is dropped from `waiting`, or found in `running`, closed and taken out. The call
takes the scheduler's small steps (`act_ops`), so what holds of every point holds at its end:
the request is gone for good, and the books have it if a token finished it earlier.
-/

namespace LlmServe

open Infra Point

variable {σ : Type} {env : Env σ} {cfg : EngineConfig} {adm : Point σ → Ref → Prop} {m : Manager}
  {w : σ}

namespace RetireCall

variable {t t' : RetireCall σ} {r : Ref} {P : Prop}

/-- `running` without those who have left: the list itself is written at the end. -/
def members (t : RetireCall σ) : List Ref :=
  match t.pc with
  | .sweep todo keep => keep ++ todo
  | _ => t.sched.running

def point (t : RetireCall σ) : Point σ := rest { t.sched with running := t.members } t.inbox

/-- Where a flagged request is during the call. `P` says that a token had finished it before. -/
structure Disconnected (r : Ref) (P : Prop) (t : RetireCall σ) : Prop where
  built : r < t.sched.next
  flag : (t.sched.heap r).cancelled = true
  served : (t.sched.heap r).Served ↔ P
  waiting : t.pc ≠ .drop → r ∉ t.sched.waiting
  marking : ∀ todo, t.pc = .mark todo → (∀ x ∈ todo, x ∈ t.sched.running) ∧
    (r ∈ t.sched.running → r ∈ todo ∨ (t.sched.heap r).finished = true)
  sweeping : ∀ todo keep, t.pc = .sweep todo keep →
    r ∉ keep ∧ (r ∈ todo → (t.sched.heap r).finished = true)
  done : t.pc = .done → r ∉ t.sched.running

theorem disconnected_start {s : Scheduler σ} {inbox : List Ref} (hr : r < s.next)
    (hflag : (s.heap r).cancelled = true) :
    Disconnected r (s.heap r).Served (.start s inbox) where
  built := hr
  flag := hflag
  served := Iff.rfl
  waiting := fun h => absurd rfl h
  marking := nofun
  sweeping := nofun
  done := nofun

/-! ## A round -/

/-- The first loop closes the flagged request when it comes to it. -/
theorem markCancelled_flagged (env : Env σ) {s : Scheduler σ} {x : Ref}
    (hflag : (s.heap r).cancelled = true) :
    ((s.markCancelled env x).heap r).cancelled = true ∧
      (((s.markCancelled env x).heap r).Served ↔ (s.heap r).Served) ∧
      (x = r ∨ (s.heap r).finished = true → ((s.markCancelled env x).heap r).finished = true) := by
  rcases Scheduler.markCancelled_cases env s x with he | ⟨hcan, hopen, -, now, ht⟩
  · rw [he]
    refine ⟨hflag, Iff.rfl, ?_⟩
    rintro (rfl | hfin)
    · -- it stays as it is because it was closed before
      by_contra hno
      have hclosed : ((s.markCancelled env x).heap x).finished = true := by
        unfold Scheduler.markCancelled
        rw [hflag, Bool.eq_false_iff.mpr hno]
        simp [Scheduler.modify, Request.finished]
      exact hno (he ▸ hclosed)
    · exact hfin
  · by_cases hx : r = x
    · subst hx
      have hnone := Request.not_finished_iff.mp hopen
      rw [ht.self]
      refine ⟨hcan, ?_, fun _ => rfl⟩
      simp [Request.Served, hnone]
    · rw [ht.other hx]
      refine ⟨hflag, Iff.rfl, ?_⟩
      rintro (rfl | hfin)
      · exact absurd rfl hx
      · exact hfin

/-- A departure changes no flag and no reason. -/
theorem leave_flagged {s s' : Scheduler σ} {x : Ref} (h : s.leave x = .ok s')
    (hfin : (s.heap x).finished = true) :
    (s'.heap r).cancelled = (s.heap r).cancelled ∧
      (s'.heap r).finishReason = (s.heap r).finishReason := by
  rw [(Scheduler.leave_books h hfin).1]
  exact ⟨apply_update Request.cancelled (by rfl) r, apply_update Request.finishReason (by rfl) r⟩

/-- A round of the engine thread. -/
theorem disconnected_advance (h : Disconnected r P t) (hadv : t.advance env = .ok t') :
    Disconnected r P t' := by
  obtain ⟨s, inbox, pc⟩ := t
  cases pc with
  | drop =>
    cases hadv
    exact {
      built := h.built
      flag := h.flag
      served := h.served
      waiting := fun _ hw => by
        have hcan := (List.mem_filter.mp hw).2
        simp [show (s.heap r).cancelled = true from h.flag] at hcan
      marking := fun todo hpc => by
        cases hpc
        exact ⟨fun x hx => hx, fun hr => Or.inl hr⟩
      sweeping := nofun
      done := nofun }
  | mark todo =>
    obtain ⟨hsub, hmark⟩ := h.marking todo rfl
    cases todo with
    | nil =>
      cases hadv
      exact {
        built := h.built
        flag := h.flag
        served := h.served
        waiting := fun _ => h.waiting nofun
        marking := nofun
        sweeping := fun todo keep hpc => by
          cases hpc
          exact ⟨List.not_mem_nil, fun hr => (hmark hr).resolve_left List.not_mem_nil⟩
        done := nofun }
    | cons x todo =>
      cases hadv
      obtain ⟨hflag, hserved, hfin⟩ := markCancelled_flagged env (x := x) h.flag
      have hrun : (s.markCancelled env x).running = s.running := markCancelled_running s x
      have hframe : (s.markCancelled env x).next = s.next ∧
          (s.markCancelled env x).waiting = s.waiting := by
        rcases Scheduler.markCancelled_cases env s x with he | ⟨-, -, -, now, ht⟩
        · rw [he]
          exact ⟨rfl, rfl⟩
        · exact ⟨ht.next, ht.waiting⟩
      exact {
        built := by
          show r < (s.markCancelled env x).next
          rw [hframe.1]
          exact h.built
        flag := hflag
        served := hserved.trans h.served
        waiting := fun _ => by
          show r ∉ (s.markCancelled env x).waiting
          rw [hframe.2]
          exact h.waiting nofun
        marking := fun todo' hpc => by
          cases hpc
          change (∀ y ∈ todo, y ∈ (s.markCancelled env x).running) ∧
            (r ∈ (s.markCancelled env x).running → _)
          rw [hrun]
          refine ⟨fun y hy => hsub y (List.mem_cons_of_mem _ hy), fun hr => ?_⟩
          rcases hmark hr with hmem | hf
          · rcases List.mem_cons.mp hmem with rfl | hmem
            · exact Or.inr (hfin (Or.inl rfl))
            · exact Or.inl hmem
          · exact Or.inr (hfin (Or.inr hf))
        sweeping := nofun
        done := nofun }
  | sweep todo keep =>
    obtain ⟨hkeep, hsweep⟩ := h.sweeping todo keep rfl
    cases todo with
    | nil =>
      cases hadv
      exact {
        built := h.built
        flag := h.flag
        served := h.served
        waiting := fun _ => h.waiting nofun
        marking := nofun
        sweeping := nofun
        done := fun _ => hkeep }
    | cons x todo =>
      unfold advance at hadv
      dsimp only at hadv
      split at hadv
      · next hfin =>
        obtain ⟨s', hl, he⟩ := exists_of_bind_ok hadv
        cases he
        obtain ⟨hcan, hreason⟩ := leave_flagged (r := r) hl hfin
        obtain ⟨q, -, ht⟩ := Scheduler.leave_ok hl
        have hfin' : (s'.heap r).finished = (s.heap r).finished := by
          unfold Request.finished
          rw [hreason]
        exact {
          built := by
            show r < s'.next
            rw [ht.next]
            exact h.built
          flag := hcan.trans h.flag
          served := by
            unfold Request.Served
            rw [hreason]
            exact h.served
          waiting := fun _ => by
            show r ∉ s'.waiting
            rw [ht.waiting]
            exact h.waiting nofun
          marking := nofun
          sweeping := fun todo' keep' hpc => by
            cases hpc
            exact ⟨hkeep, fun hr => hfin'.trans (hsweep (List.mem_cons_of_mem _ hr))⟩
          done := nofun }
      · next hopen =>
        cases hadv
        exact {
          built := h.built
          flag := h.flag
          served := h.served
          waiting := fun _ => h.waiting nofun
          marking := nofun
          sweeping := fun todo' keep' hpc => by
            cases hpc
            refine ⟨fun hr => ?_, fun hr => hsweep (List.mem_cons_of_mem _ hr)⟩
            -- the flagged request is not among those kept
            rcases List.mem_append.mp hr with hr | hr
            · exact hkeep hr
            · rw [List.mem_singleton.mp hr] at hsweep
              exact hopen (hsweep List.mem_cons_self)
          done := nofun }
  | done =>
    cases hadv
    exact h

/-- A step of any thread. -/
theorem disconnected_act {a : RetireAction} (h : Disconnected r P t) (hact : t.act env a = .ok t') :
    Disconnected r P t' := by
  cases a with
  | create n =>
    cases hact
    -- the new request is not `r`, which is there already
    have hother : (t.sched.create n.toRequest).heap r = t.sched.heap r :=
      Function.update_of_ne h.built.ne ..
    exact {
      built := Nat.lt_succ_of_lt h.built
      flag := hother ▸ h.flag
      served := hother ▸ h.served
      waiting := h.waiting
      marking := fun todo hpc => hother ▸ h.marking todo hpc
      sweeping := fun todo keep hpc => hother ▸ h.sweeping todo keep hpc
      done := h.done }
  | cancel x =>
    cases hact
    split
    · have hfin : ((t.sched.cancel x).heap r).finishReason = (t.sched.heap r).finishReason :=
        apply_update Request.finishReason (by rfl) r
      have hflag : ((t.sched.cancel x).heap r).cancelled = true := by
        by_cases hx : r = x
        · subst hx
          simp [Scheduler.cancel, Scheduler.modify]
        · exact (congrArg Request.cancelled (Function.update_of_ne hx ..)).trans h.flag
      exact {
        built := h.built
        flag := hflag
        served := by
          show ((t.sched.cancel x).heap r).Served ↔ P
          unfold Request.Served
          rw [hfin]
          exact h.served
        waiting := h.waiting
        marking := fun todo hpc => by
          show _ ∧ (_ → _ ∨ ((t.sched.cancel x).heap r).finished = true)
          unfold Request.finished
          rw [hfin]
          exact h.marking todo hpc
        sweeping := fun todo keep hpc => by
          show _ ∧ (_ → ((t.sched.cancel x).heap r).finished = true)
          unfold Request.finished
          rw [hfin]
          exact h.sweeping todo keep hpc
        done := h.done }
    · exact h
  | advance => exact disconnected_advance h hact

/-! ## The call takes small steps -/

/-- The first loop works on members of `running`. -/
def Marks (t : RetireCall σ) : Prop := ∀ todo, t.pc = .mark todo → ∀ x ∈ todo, x ∈ t.sched.running

theorem marks_act {a : RetireAction} (h : t.Marks) (hact : t.act env a = .ok t') : t'.Marks := by
  cases a with
  | create n =>
    cases hact
    exact h
  | cancel x =>
    cases hact
    split
    · exact h
    · exact h
  | advance =>
    obtain ⟨s, inbox, pc⟩ := t
    change RetireCall.advance env _ = _ at hact
    cases pc with
    | drop =>
      cases hact
      intro todo hpc x hx
      cases hpc
      exact hx
    | mark todo =>
      cases todo with
      | nil =>
        cases hact
        exact nofun
      | cons x todo =>
        cases hact
        intro todo' hpc y hy
        cases hpc
        show y ∈ (s.markCancelled env x).running
        rw [markCancelled_running]
        exact h _ rfl y (List.mem_cons_of_mem _ hy)
    | sweep todo keep =>
      cases todo with
      | nil =>
        cases hact
        exact nofun
      | cons x todo =>
        unfold advance at hact
        dsimp only at hact
        split at hact
        · obtain ⟨s', -, he⟩ := exists_of_bind_ok hact
          cases he
          exact nofun
        · cases hact
          exact nofun
    | done =>
      cases hact
      exact h

/-- The engine thread's rounds are small steps. -/
theorem advance_ops (h : t.Marks) (hadv : t.advance env = .ok t') :
    StepOps env cfg adm t.point t'.point := by
  obtain ⟨s, inbox, pc⟩ := t
  cases pc with
  | drop =>
    cases hadv
    exact op_one (.dropCancelled _ (idle_rest ..))
  | mark todo =>
    cases todo with
    | nil =>
      cases hadv
      exact .refl
    | cons x todo =>
      cases hadv
      exact op_one (.markCancelled _ x (idle_rest ..) (h _ rfl x List.mem_cons_self))
  | sweep todo keep =>
    cases todo with
    | nil =>
      cases hadv
      have hsame : keep ++ [] = keep := List.append_nil keep
      simp only [point, members, hsame]
      exact .refl
    | cons x todo =>
      unfold advance at hadv
      dsimp only at hadv
      split at hadv
      · next hfin =>
        obtain ⟨s', hl, he⟩ := exists_of_bind_ok hadv
        cases he
        have hleave := leave_withRunning s x (keep ++ x :: todo)
        rw [hl] at hleave
        exact op_one (.leave _ { s' with running := keep ++ x :: todo } keep todo x (idle_rest ..)
          rfl hfin hleave)
      · cases hadv
        have hsame : keep ++ [x] ++ todo = keep ++ x :: todo := by
          rw [List.append_assoc, List.singleton_append]
        simp only [point, members, hsame]
        exact .refl
  | done =>
    cases hadv
    exact .refl

theorem act_ops {a : RetireAction} (h : t.Marks) (hact : t.act env a = .ok t') :
    Reach env cfg t.point t'.point := by
  cases a with
  | create n =>
    cases hact
    exact .single (.create _ n)
  | cancel x =>
    cases hact
    split
    · next hx => exact .single (.cancel _ x hx)
    · exact .refl
  | advance => exact ops_of_stepOps (advance_ops h hact)

/-- **`_retire` does not raise.** -/
theorem act_isOk (hgood : Good cfg m t.point) (a : RetireAction) : ∃ t', t.act env a = .ok t' := by
  cases a with
  | create n => exact ⟨_, rfl⟩
  | cancel x => exact ⟨_, rfl⟩
  | advance =>
    obtain ⟨s, inbox, pc⟩ := t
    cases pc with
    | drop => exact ⟨_, rfl⟩
    | mark todo => cases todo <;> exact ⟨_, rfl⟩
    | sweep todo keep =>
      cases todo with
      | nil => exact ⟨_, rfl⟩
      | cons x todo =>
        unfold act advance
        dsimp only
        split
        · next hfin =>
          have hmem : x ∈ keep ++ x :: todo := by simp
          have hno := leave_ne_error hgood (r := x) hmem hfin
          have hleave := leave_withRunning s x (keep ++ x :: todo)
          cases hl : s.leave x with
          | ok s' => exact ⟨_, rfl⟩
          | error e =>
            rw [hl] at hleave
            exact absurd hleave (hno e)
        · exact ⟨_, rfl⟩
    | done => exact ⟨_, rfl⟩

/-- A run of the call. -/
theorem run_reach {s : Scheduler σ} {inbox : List Ref} {acts : List RetireAction}
    (hrun : run (act env) (.start s inbox) acts = .ok t) :
    t.Marks ∧ Reach env cfg (rest s inbox) t.point := by
  induction acts using List.reverseRecOn generalizing t with
  | nil =>
    cases hrun
    exact ⟨nofun, .refl⟩
  | append_singleton acts a ih =>
    rw [run_snoc] at hrun
    obtain ⟨t₀, ht₀, hact⟩ := exists_of_bind_ok hrun
    obtain ⟨hmarks, hreach⟩ := ih ht₀
    exact ⟨marks_act hmarks hact, hreach.trans (act_ops hmarks hact)⟩

theorem run_disconnected {s : Scheduler σ} {inbox : List Ref} {acts : List RetireAction}
    (hrun : run (act env) (.start s inbox) acts = .ok t) (hr : r < s.next)
    (hflag : (s.heap r).cancelled = true) : Disconnected r (s.heap r).Served t := by
  induction acts using List.reverseRecOn generalizing t with
  | nil =>
    cases hrun
    exact disconnected_start hr hflag
  | append_singleton acts a ih =>
    rw [run_snoc] at hrun
    obtain ⟨t₀, ht₀, hact⟩ := exists_of_bind_ok hrun
    exact disconnected_act (ih ht₀) hact

/-- Left alone, the rounds are `Scheduler.retire`. -/
theorem retire_alone {s s' : Scheduler σ} (inbox : List Ref) (h : s.retire env = .ok s') :
    ∃ n, run (act env) (.start s inbox) (List.replicate n .advance) =
      .ok { sched := s', inbox, pc := .done } := by
  have hsweep : ∀ {todo keep : List Ref} {s : Scheduler σ} {b : List Ref × Scheduler σ},
      Scheduler.retireLoop todo keep s = .ok b →
      run (act env) { sched := s, inbox, pc := .sweep todo keep }
        (List.replicate (todo.length + 1) .advance) =
      .ok { sched := { b.2 with running := b.1 }, inbox, pc := .done } := by
    intro todo
    induction todo with
    | nil =>
      intro keep s b hb
      cases hb
      rfl
    | cons x todo ih =>
      intro keep s b hb
      have hround : act env { sched := s, inbox, pc := .sweep (x :: todo) keep } .advance =
          if (s.heap x).finished then do
            let sched ← s.leave x
            return { sched, inbox, pc := .sweep todo keep }
          else .ok { sched := s, inbox, pc := .sweep todo (keep ++ [x]) } := rfl
      rw [List.length_cons, List.replicate_succ, run_cons, hround]
      unfold Scheduler.retireLoop at hb
      split at hb
      · next hfin =>
        obtain ⟨s₁, hl, hb⟩ := exists_of_bind_ok hb
        rw [if_pos hfin, hl]
        exact ih hb
      · next hopen =>
        rw [if_neg hopen]
        exact ih hb
  have hmark : ∀ (todo : List Ref) (s : Scheduler σ),
      run (act env) { sched := s, inbox, pc := .mark todo }
        (List.replicate (todo.length + 1) .advance) =
      .ok { sched := todo.foldl (Scheduler.markCancelled env) s, inbox,
            pc := .sweep (todo.foldl (Scheduler.markCancelled env) s).running [] } := by
    intro todo
    induction todo with
    | nil => exact fun s => rfl
    | cons x todo ih => exact fun s => ih (s.markCancelled env x)
  obtain ⟨b, hb, he⟩ := exists_of_bind_ok h
  cases he
  let s₁ : Scheduler σ := { s with waiting := s.waiting.filter fun r => !(s.heap r).cancelled }
  let s₂ : Scheduler σ := s.running.foldl (Scheduler.markCancelled env) s₁
  refine ⟨1 + ((s.running.length + 1) + (s₂.running.length + 1)), ?_⟩
  rw [List.replicate_add, List.replicate_add, run_append]
  show run (act env) { sched := s₁, inbox, pc := .mark s.running } _ = _
  rw [run_append, hmark]
  exact hsweep hb

end RetireCall

/-! ## After the call -/

/-- A submitted request that no list holds, with no method running, has left. -/
theorem gone_of_done {t : RetireCall σ} {r : Ref} {P : Prop} (h : t.Disconnected r P)
    (hsub : t.point.Submitted r) (hdone : t.pc = .done) : t.point.phase r = .gone := by
  have hmem : t.members = t.sched.running := by
    unfold RetireCall.members
    rw [hdone]
  have hw : r ∉ t.sched.waiting := h.waiting (by rw [hdone]; nofun)
  refine phase_gone ?_ hsub.1
  simp only [placed, held, RetireCall.point, rest, hmem, List.nil_append, List.mem_append, not_or]
  exact ⟨⟨hsub.2, hw⟩, h.done hdone⟩

/--
**A disconnected client stops consuming capacity.** Let another thread set the flag of a submitted
request `r` at any point `p`, inside or between steps, and let the engine enter `_retire` at some
later `s`. Whatever other clients do during the call, it does not raise; and from its end on, at
every moment, `r` is in no list and owns no block or slot, every block being on the free list or in
the table of one other request; its sink is not called again; and the books list it, once, exactly
if a token had finished it before the call.
-/
theorem disconnected_client_released (hm : m.Fresh) {p : Point σ} {r : Ref} {s : Scheduler σ}
    {inbox : List Ref} {acts : List RetireAction} {t : RetireCall σ}
    (hp : Reach env cfg (rest (.init cfg m w) []) p) (hr : p.Submitted r)
    (hflag : (p.sched.heap r).cancelled = true) (hs : Reach env cfg p (rest s inbox))
    (hrun : run (RetireCall.act env) (.start s inbox) acts = .ok t) :
    (∀ a, ∃ t', t.act env a = .ok t') ∧
    (t.pc = .done → ∀ p', Reach env cfg t.point p' →
      r ∉ p'.placed ∧ (p'.sched.heap r).blockTable = [] ∧ Owned p' ∧
      calls r p'.sched.trace = calls r t.sched.trace ∧
      ∃ served, Books served p' ∧ (r ∈ served ↔ (s.heap r).Served)) := by
  have hstart : Good cfg m (rest (.init cfg m w) []) := .init hm w
  have hgood := hstart.ops hp
  obtain ⟨hev, hsub⟩ := hgood.submitted hs hr
  have hgood₀ := hgood.ops hs
  have hreach : Reach env cfg (rest s inbox) t.point := (RetireCall.run_reach hrun).2
  have hgood₁ := hgood₀.ops hreach
  have hdisc := RetireCall.run_disconnected hrun hsub.1 (hev.cancelled hflag)
  refine ⟨RetireCall.act_isOk hgood₁, fun hdone p' hp' => ?_⟩
  have hgone := gone_of_done hdisc (hgood₀.submitted hreach hsub).2 hdone
  obtain ⟨hgone', hlog, hreason⟩ := gone_moves (hgood₁.moves hp' r) (hgood₁.facts r) hgone
  have hgood' := hgood₁.ops hp'
  refine ⟨notMem_placed_of_gone hgood'.placed hgone', (hgood'.facts r).table.nil ?_, hgood'.owned,
    ?_, ?_⟩
  · rintro (h | h | h) <;> cases hgone'.symm.trans h
  · have hcalls := congrArg (calls r) hlog
    change calls r (log p'.sched r) = calls r (log t.point.sched r) at hcalls
    rwa [log, calls_filter, log, calls_filter] at hcalls
  · obtain ⟨served₁, -, hbooks₁⟩ := books_ops (hp.trans (hs.trans hreach)) hstart (books_init cfg m w)
    obtain ⟨served, hpre, hbooks⟩ := books_ops hp' hgood₁ hbooks₁
    have hsame : (p'.sched.heap r).Served ↔ (t.sched.heap r).Served := by
      unfold Request.Served
      rw [show (p'.sched.heap r).finishReason = _ from hreason]
      exact Iff.rfl
    refine ⟨served, hbooks, (hbooks.mem r).trans ⟨fun h => ?_, fun h => ⟨hgone', ?_⟩⟩⟩
    · exact hdisc.served.mp (hsame.mp h.2)
    · exact hsame.mpr (hdisc.served.mpr h)

/-- One client leaves after its first token, the other while it waits; a third comes meanwhile. -/
theorem disconnected_client_released_two :
    ∃ s, run (Scheduler.act (Env.ofNext fun toks => toks.length) { maxBatch := 1 })
        (.init { maxBatch := 1 } (.block (.new 4 1 Nat.one_pos false)) .start)
        [.submit { requestId := "a", promptTokenIds := [1], maxNewTokens := 3 },
          .submit { requestId := "b", promptTokenIds := [2], maxNewTokens := 3 }, .step,
          .cancel 0, .cancel 1] = .ok s ∧
      ∃ t, run (RetireCall.act (Env.ofNext fun toks => toks.length)) (.start s [])
          [.advance, .create { requestId := "c", promptTokenIds := [3], maxNewTokens := 1 },
            .advance, .advance, .advance, .advance] = .ok t ∧
        0 ∉ t.point.placed ∧ 1 ∉ t.point.placed ∧ 2 ∈ t.point.placed := by
  have hrun : ∃ s, run (Scheduler.act (Env.ofNext fun toks => toks.length) { maxBatch := 1 })
      (.init { maxBatch := 1 } (.block (.new 4 1 Nat.one_pos false)) .start)
      [.submit { requestId := "a", promptTokenIds := [1], maxNewTokens := 3 },
        .submit { requestId := "b", promptTokenIds := [2], maxNewTokens := 3 }, .step,
        .cancel 0, .cancel 1] = .ok s ∧ s.next = 2 ∧ (s.heap 0).cancelled = true ∧
      (s.heap 1).cancelled = true ∧
      ∃ t, run (RetireCall.act (Env.ofNext fun toks => toks.length)) (.start s [])
        [.advance, .create { requestId := "c", promptTokenIds := [3], maxNewTokens := 1 },
          .advance, .advance, .advance, .advance] = .ok t ∧
        t.pc = .done ∧ t.inbox = [2] := by
    decide +kernel
  obtain ⟨s, hs, hnext, hflag₀, hflag₁, t, ht, hdone, hin⟩ := hrun
  have hm : (Manager.block (.new 4 1 Nat.one_pos false)).Fresh := Manager.fresh_block_new ..
  have hreach := run_reach hm hs
  have h₀ := (disconnected_client_released hm hreach (submitted_rest (hnext ▸ Nat.two_pos)) hflag₀
    .refl ht).2 hdone _ .refl
  have h₁ := (disconnected_client_released hm hreach (submitted_rest (hnext ▸ Nat.one_lt_two)) hflag₁
    .refl ht).2 hdone _ .refl
  refine ⟨s, hs, t, ht, h₀.1, h₁.1, mem_placed_of_inbox ?_⟩
  show 2 ∈ t.inbox
  rw [hin]
  exact List.mem_cons_self

end LlmServe
