import LlmServe.Engine.NaiveThread
import LlmServe.Properties.Placement

/-!
# The naive engine thread, alone and among clients

Left alone, the lines of `NaiveThread` are `NaiveScheduler.step` (`step_alone`). Among clients,
`NaivePlaced` says that the inbox, `waiting` and the request in service hold every request at most
once, and that no request has a finish reason before the last lines of its service.
-/

namespace LlmServe

open Infra

variable {σ : Type} {runner : Runner σ} {w : σ}

namespace NaiveThread

/-! ## Alone -/

/-- The state of `run` on `r`, seen from the scheduler. -/
def inRun (s : NaiveScheduler σ) (r : Ref) (u : RunState σ) : NaiveScheduler σ :=
  { s with
    heap := Function.update s.heap r u.req, runnerMetrics := u.metrics, world := u.world
    trace := u.trace }

theorem inRun_modify (s : NaiveScheduler σ) (r : Ref) (u : RunState σ) (f : Request → Request) :
    (inRun s r u).modify r f = inRun s r { u with req := f u.req } := by
  simp [inRun, NaiveScheduler.modify]

theorem inRun_heap (s : NaiveScheduler σ) (r : Ref) (u : RunState σ) :
    (inRun s r u).heap r = u.req := Function.update_self ..

section

variable (runner)

theorem stamp_inRun (s : NaiveScheduler σ) (inbox : List Ref) (r : Ref) (u : RunState σ)
    (tok : Token) (pc : NaivePc) : ∃ v : RunState σ,
      stamp runner { sched := inRun s r u, inbox, pc } r tok =
        { sched := inRun s r v, inbox, pc := .callback r tok } ∧
      v = (let v :=
          if u.req.firstTokenTime = none then
            { u with req := { u.req with firstTokenTime := some (runner.perfCounter u.world).1 }
                     world := (runner.perfCounter u.world).2 }
          else u
        { v with metrics := v.metrics.recordStep 1 0 0 0 0 }) := by
  refine ⟨_, ?_, rfl⟩
  unfold stamp
  rw [inRun_heap]
  by_cases hf : u.req.firstTokenTime = none
  · simp only [if_pos hf]
    simp only [inRun, NaiveScheduler.perfCounter, NaiveScheduler.modify, Function.update_self,
      Function.update_idem]
  · simp only [if_neg hf]
    rfl

/-- A round of the loop that appends a token: three lines. -/
theorem append_alone (s : NaiveScheduler σ) (inbox : List Ref) (r : Ref) (u : RunState σ)
    (hlt : (u.req.outputTokenIds.length : Int) < u.req.maxNewTokens)
    (hgo : ¬(maxContext ≤ u.req.seqLen ∨ u.req.cancelled = true)) :
    run (act runner) { sched := inRun s r u, inbox, pc := .loop r } [.advance, .advance, .advance] =
      .ok { sched := inRun s r (u.append runner (NaiveScheduler.onToken r) (u.nextId runner)), inbox
            pc := if u.nextId runner = eosTokenId ∧ u.req.ignoreEos = false then .finish r
              else .loop r } := by
  have hloop : loop runner { sched := inRun s r u, inbox, pc := .loop r } r =
      { sched := inRun s r { u with req :=
          { u.req with outputTokenIds := u.req.outputTokenIds ++ [u.nextId runner] } }, inbox
        pc := .stamp r (u.nextId runner) } := by
    unfold loop
    simp only [inRun_heap, if_pos hlt, if_neg hgo, inRun_modify]
    rfl
  rw [run_cons]
  show run (act runner) (loop runner _ r) _ = _
  rw [hloop, run_cons]
  show run (act runner) (stamp runner _ r _) _ = _
  obtain ⟨v, hv, he⟩ := stamp_inRun runner s inbox r { u with req :=
          { u.req with outputTokenIds := u.req.outputTokenIds ++ [u.nextId runner] } }
          (u.nextId runner) (.stamp r (u.nextId runner))
  rw [hv, run_cons]
  show Except.ok (callback _ r _) = _
  unfold callback
  simp only [inRun_heap]
  have happ : u.append runner (NaiveScheduler.onToken r) (u.nextId runner) =
      { v with trace := v.trace ++ NaiveScheduler.onToken r v.req (u.nextId runner) } := by
    rw [he]
    rfl
  have hign : v.req.ignoreEos = u.req.ignoreEos := by
    rw [he]
    split <;> rfl
  rw [happ, hign]
  rfl

theorem loop_alone (s : NaiveScheduler σ) (inbox : List Ref) (r : Ref) (u : RunState σ) :
    ∃ n, run (act runner) { sched := inRun s r u, inbox, pc := .loop r }
      (List.replicate n .advance) =
      .ok { sched := inRun s r (u.runLoop runner (NaiveScheduler.onToken r)), inbox
            pc := .finish r } := by
  induction u using RunState.runLoop.induct runner (NaiveScheduler.onToken r) with
  | case1 u hlt hbreak =>
    refine ⟨1, ?_⟩
    rw [RunState.runLoop, if_pos hlt, if_pos hbreak]
    show Except.ok (loop runner _ r) = _
    unfold loop
    simp only [inRun_heap, if_pos hlt, if_pos hbreak]
  | case2 u hlt hgo heos =>
    refine ⟨3, ?_⟩
    rw [RunState.runLoop, if_pos hlt, if_neg hgo, if_pos heos]
    have happ := append_alone runner s inbox r u hlt hgo
    rwa [if_pos heos] at happ
  | case3 u hlt hgo heos ih =>
    obtain ⟨n, hn⟩ := ih
    refine ⟨3 + n, ?_⟩
    rw [RunState.runLoop, if_pos hlt, if_neg hgo, if_neg heos, List.replicate_add, run_append]
    have happ := append_alone runner s inbox r u hlt hgo
    rw [if_neg heos] at happ
    show (run (act runner) _ [.advance, .advance, .advance] >>= _) = _
    rw [happ]
    exact hn
  | case4 u hge =>
    refine ⟨1, ?_⟩
    rw [RunState.runLoop, if_neg hge]
    show Except.ok (loop runner _ r) = _
    unfold loop
    simp only [inRun_heap, if_neg hge]

end

/-- The fields that `run` writes to behind its loop. -/
def closed (runner : Runner σ) (u : RunState σ) : RunState σ :=
  { (u.perfCounter runner).2 with
    req := { u.req with finishTime := some (u.perfCounter runner).1, state := .finished } }

/-- `run`, behind its loop. -/
def closeRun (runner : Runner σ) (u : RunState σ) : Except PyError (RunState σ) :=
  if (closed runner u).req.cancelled = true then
    .ok { closed runner u with
      req := { (closed runner u).req with finishReason := some .cancelled } }
  else
    (closed runner u).metrics.recordRequest (closed runner u).req >>= fun metrics =>
      .ok { closed runner u with metrics }

/-- The lines behind the loop. -/
theorem close_alone (s : NaiveScheduler σ) (inbox : List Ref) (r : Ref) {u v : RunState σ}
    (h : closeRun runner u = .ok v) :
    run (act runner) { sched := inRun s r u, inbox, pc := .finish r }
      [.advance, .advance, .advance] =
      .ok { sched := { inRun s r { v with
              req := { v.req with finishReason := some (v.req.finishReason.getD .length) } } with
              running := [] }
            inbox, pc := .idle } := by
  have hfinish : ∃ q, finish runner { sched := inRun s r u, inbox, pc := .finish r } r =
      { sched := inRun s r { closed runner u with req := q }, inbox, pc := .close r } ∧
      { q with state := .finished } = (closed runner u).req := by
    refine ⟨{ u.req with finishTime := some (runner.perfCounter u.world).1 }, ?_, rfl⟩
    simp only [finish, inRun, NaiveScheduler.perfCounter, NaiveScheduler.modify,
      Function.update_self, Function.update_idem]
    rfl
  obtain ⟨q, hfin, hq⟩ := hfinish
  rw [run_cons]
  show run (act runner) (finish runner _ r) _ = _
  rw [hfin, run_cons]
  show (close _ r >>= _) = _
  unfold close
  rw [inRun_modify, hq]
  simp only [inRun_heap]
  unfold closeRun at h
  by_cases hcan : (closed runner u).req.cancelled = true
  · rw [if_pos hcan] at h
    cases h
    rw [if_pos hcan, inRun_modify]
    show Except.ok (name _ r) = _
    unfold name
    rw [inRun_modify]
  · rw [if_neg hcan] at h
    obtain ⟨met, hmet, he⟩ := exists_of_bind_ok h
    cases he
    rw [if_neg hcan]
    show ((u.metrics.recordRequest _ >>= _) >>= _) = _
    rw [show u.metrics.recordRequest (closed runner u).req = .ok met from hmet]
    show Except.ok (name _ r) = _
    unfold name
    have hmod := inRun_modify s r { closed runner u with metrics := met } fun q =>
      { q with finishReason := some (q.finishReason.getD .length) }
    exact congrArg (fun x : NaiveScheduler σ => (Except.ok
      { sched := { x with running := [] }, inbox, pc := .idle } : Except PyError (NaiveThread σ)))
      hmod

/-- **Left alone, the lines are `NaiveScheduler.step`.** -/
theorem step_alone {s s' : NaiveScheduler σ} (inbox : List Ref) (h : s.step runner = .ok s') :
    ∃ n, run (act runner) { sched := s, inbox } (List.replicate n .advance) =
      .ok { sched := s', inbox } := by
  unfold NaiveScheduler.step at h
  dsimp only at h
  cases hw : s.waiting.filter fun r => !(s.heap r).cancelled with
  | nil =>
    rw [hw] at h
    cases h
    refine ⟨1, ?_⟩
    show Except.ok (enter _) = _
    simp only [enter, hw]
  | cons r rest =>
    rw [hw] at h
    obtain ⟨v, hrun, he⟩ := exists_of_bind_ok h
    cases he
    let s₁ : NaiveScheduler σ := { s with waiting := rest, running := [r] }
    let u : RunState σ :=
      { req := { s.heap r with state := .running }, metrics := s.runnerMetrics, world := s.world
        trace := s.trace }
    have henter : enter { sched := s, inbox } = { sched := inRun s₁ r u, inbox, pc := .loop r } := by
      simp only [enter, hw]
      rfl
    obtain ⟨n, hn⟩ := loop_alone runner s₁ inbox r u
    refine ⟨1 + (n + 3), ?_⟩
    have hfirst : run (act runner) { sched := s, inbox } (List.replicate 1 .advance) =
        .ok { sched := inRun s₁ r u, inbox, pc := .loop r } := congrArg Except.ok henter
    rw [List.replicate_add, run_append, hfirst]
    show run (act runner) { sched := inRun s₁ r u, inbox, pc := .loop r }
      (List.replicate (n + 3) .advance) = _
    rw [List.replicate_add, run_append, hn]
    exact close_alone s₁ inbox r hrun

/-! ## Among clients -/

/-- The request in service. -/
def serving (t : NaiveThread σ) : List Ref :=
  match t.pc with
  | .idle => []
  | .loop r | .stamp r _ | .callback r _ | .finish r | .close r | .name r => [r]

def placed (t : NaiveThread σ) : List Ref := t.inbox ++ t.sched.waiting ++ t.serving

/-- The object `r` became `q` and `events` were shown; of the rest only the runner's counters and
the clock can have changed. -/
structure Writes (s s' : NaiveScheduler σ) (r : Ref) (q : Request) (events : List Event) :
    Prop where
  heap : s'.heap = Function.update s.heap r q
  next : s'.next = s.next
  waiting : s'.waiting = s.waiting
  metrics : s'.metrics = s.metrics
  trace : s'.trace = s.trace ++ events

namespace Writes

variable {s s' : NaiveScheduler σ} {r x : Ref} {q : Request} {events : List Event}

theorem self (h : Writes s s' r q events) : s'.heap r = q := by
  rw [h.heap, Function.update_self]

theorem other (h : Writes s s' r q events) (hx : x ≠ r) : s'.heap x = s.heap x := by
  rw [h.heap, Function.update_of_ne hx]

/-- A line that writes nothing. -/
theorem same (s : NaiveScheduler σ) (r : Ref) : Writes s s r (s.heap r) [] :=
  ⟨(Function.update_eq_self r s.heap).symm, rfl, rfl, rfl, (List.append_nil _).symm⟩

end Writes

/-- A line of the service of `r`: what it does to the object, what it shows, where it leads. -/
inductive Line (r : Ref) : NaivePc → Request → Request → List Event → NaivePc → Prop where
  | append (q : Request) (tok : Token) :
      Line r (.loop r) q { q with outputTokenIds := q.outputTokenIds ++ [tok] } [] (.stamp r tok)
  | leave (q : Request) : Line r (.loop r) q q [] (.finish r)
  | stamp (q : Request) (tok : Token) (first : Option Time) (hfirst : first ≠ none) :
      Line r (.stamp r tok) q { q with firstTokenTime := first } [] (.callback r tok)
  | callback (q : Request) (tok : Token) :
      Line r (.callback r tok) q q (NaiveScheduler.onToken r q tok)
        (if tok = eosTokenId ∧ q.ignoreEos = false then .finish r else .loop r)
  | finish (q : Request) (now : Time) :
      Line r (.finish r) q { q with finishTime := some now } [] (.close r)
  | cancelled (q : Request) (hcan : q.cancelled = true) :
      Line r (.close r) q { q with state := .finished, finishReason := some .cancelled } [] (.name r)
  | record (q : Request) (hlive : q.cancelled = false) :
      Line r (.close r) q { q with state := .finished } [] (.name r)
  | name (q : Request) :
      Line r (.name r) q { q with finishReason := some (q.finishReason.getD .length) } [] .idle

/-- One step of the engine thread: it takes the next request, or serves one by a line. -/
theorem advance_cases {t t' : NaiveThread σ} (h : t.advance runner = .ok t') :
    t.pc = .idle ∧ t' = t.enter ∨
      ∃ r q events, t.serving = [r] ∧ Line r t.pc (t.sched.heap r) q events t'.pc ∧
        Writes t.sched t'.sched r q events ∧ t'.inbox = t.inbox := by
  obtain ⟨s, inbox, pc⟩ := t
  unfold advance at h
  dsimp only at h
  cases pc with
  | idle =>
    cases h
    exact Or.inl ⟨rfl, rfl⟩
  | loop r =>
    cases h
    refine Or.inr ⟨r, ?_⟩
    unfold loop
    dsimp only
    split
    · split
      · exact ⟨_, _, rfl, .leave _, .same s r, rfl⟩
      · exact ⟨_, _, rfl, .append _ _, ⟨rfl, rfl, rfl, rfl, (List.append_nil _).symm⟩, rfl⟩
    · exact ⟨_, _, rfl, .leave _, .same s r, rfl⟩
  | stamp r tok =>
    cases h
    refine Or.inr ⟨r, ?_⟩
    unfold stamp
    dsimp only
    split
    · refine ⟨_, _, rfl, .stamp _ tok (some (runner.perfCounter s.world).1) nofun, ?_, rfl⟩
      exact ⟨rfl, rfl, rfl, rfl, (List.append_nil _).symm⟩
    · next hf =>
      refine ⟨_, _, rfl, .stamp _ tok (s.heap r).firstTokenTime hf, ?_, rfl⟩
      exact ⟨(Function.update_eq_self r s.heap).symm, rfl, rfl, rfl, (List.append_nil _).symm⟩
  | callback r tok =>
    cases h
    exact Or.inr ⟨r, _, _, rfl, .callback _ tok,
      ⟨(Function.update_eq_self r s.heap).symm, rfl, rfl, rfl, rfl⟩, rfl⟩
  | finish r =>
    cases h
    exact Or.inr ⟨r, _, _, rfl, .finish _ _, ⟨rfl, rfl, rfl, rfl, (List.append_nil _).symm⟩, rfl⟩
  | close r =>
    refine Or.inr ⟨r, ?_⟩
    unfold close at h
    dsimp only at h
    split at h
    · next hcan =>
      cases h
      refine ⟨_, _, rfl, .cancelled _ ?_, ?_, rfl⟩
      · simpa [NaiveScheduler.modify] using hcan
      · exact ⟨by simp [NaiveScheduler.modify], rfl, rfl, rfl, (List.append_nil _).symm⟩
    · next hlive =>
      obtain ⟨met, -, he⟩ := exists_of_bind_ok h
      cases he
      refine ⟨_, _, rfl, .record _ ?_, ⟨rfl, rfl, rfl, rfl, (List.append_nil _).symm⟩, rfl⟩
      simpa [NaiveScheduler.modify] using hlive
  | name r =>
    cases h
    exact Or.inr ⟨r, _, _, rfl, .name _, ⟨rfl, rfl, rfl, rfl, (List.append_nil _).symm⟩, rfl⟩

/-- The line keeps the request in service until the last one. -/
theorem Line.serving {r : Ref} {t t' : NaiveThread σ} {q q' : Request} {events : List Event}
    (h : Line r t.pc q q' events t'.pc) : t'.pc = .idle ∧ t.pc = .name r ∨ t'.serving = [r] := by
  unfold NaiveThread.serving
  generalize t'.pc = pc' at h
  generalize t.pc = pc at h
  cases h with
  | callback q tok => split <;> exact Or.inr rfl
  | name q => exact Or.inl ⟨rfl, rfl⟩
  | _ => exact Or.inr rfl

/-- Every request is in one place, and open until its service ends. -/
structure NaivePlaced (t : NaiveThread σ) : Prop where
  nodup : t.placed.Nodup
  lt_next : ∀ r ∈ t.placed, r < t.sched.next
  blank : ∀ r, t.sched.next ≤ r → (t.sched.heap r).finishReason = none
  opens : ∀ r ∈ t.placed, (t.sched.heap r).finishReason = none ∨
    t.pc = .name r ∧ (t.sched.heap r).finishReason = some .cancelled

theorem naivePlaced_init : NaivePlaced (.init (σ := σ) w) where
  nodup := List.nodup_nil
  lt_next := nofun
  blank := fun _ _ => rfl
  opens := nofun

/-- What one line can do to the end of a request. -/
theorem Line.finishReason {r : Ref} {pc pc' : NaivePc} {q q' : Request} {events : List Event}
    (h : Line r pc q q' events pc') (hopen : q.finishReason = none ∨
      pc = .name r ∧ q.finishReason = some .cancelled) :
    pc' = .idle ∨ q'.finishReason = none ∨
      pc' = .name r ∧ q'.finishReason = some .cancelled := by
  cases h with
  | cancelled hcan => exact Or.inr (Or.inr ⟨rfl, rfl⟩)
  | name => exact Or.inl rfl
  | callback | append | leave | stamp | finish | record =>
    exact Or.inr (Or.inl (hopen.resolve_right fun h => nomatch h.1))

/-- A step that takes requests out of their places or moves them, and writes to no reason. -/
theorem NaivePlaced.mono {t t' : NaiveThread σ} (h : NaivePlaced t) (hpc : ∀ r, t.pc ≠ .name r)
    (hplaced : t'.placed.Subperm t.placed) (hnext : t'.sched.next = t.sched.next)
    (hreason : ∀ r, (t'.sched.heap r).finishReason = (t.sched.heap r).finishReason) :
    NaivePlaced t' where
  nodup := by
    obtain ⟨l, hperm, hsub⟩ := hplaced
    exact hperm.nodup_iff.mp (h.nodup.sublist hsub)
  lt_next := fun r hr => by
    rw [hnext]
    exact h.lt_next r (hplaced.subset hr)
  blank := fun r hr => by
    rw [hreason r]
    exact h.blank r (hnext ▸ hr)
  opens := fun r hr => by
    rw [hreason r]
    exact Or.inl ((h.opens r (hplaced.subset hr)).resolve_right fun hn => hpc r hn.1)

theorem naivePlaced_enter {t : NaiveThread σ} (h : NaivePlaced t) (hpc : t.pc = .idle) :
    NaivePlaced t.enter := by
  have hidle : ∀ r, t.pc ≠ .name r := fun r hn => nomatch hpc.symm.trans hn
  have hsub : (t.sched.waiting.filter fun r => !(t.sched.heap r).cancelled).Sublist
      t.sched.waiting := List.filter_sublist
  have hserving : t.serving = [] := by
    unfold serving
    rw [hpc]
  unfold enter
  cases hw : t.sched.waiting.filter fun r => !(t.sched.heap r).cancelled with
  | nil =>
    refine h.mono hidle ?_ rfl fun _ => rfl
    show (t.inbox ++ [] ++ t.serving).Subperm (t.inbox ++ t.sched.waiting ++ t.serving)
    exact (((List.nil_sublist _).append_left _).append_right _).subperm
  | cons r rest =>
    rw [hw] at hsub
    refine h.mono hidle ?_ rfl fun x => apply_update Request.finishReason (by rfl) x
    show (t.inbox ++ rest ++ [r]).Subperm (t.inbox ++ t.sched.waiting ++ t.serving)
    rw [hserving, List.append_nil, List.append_assoc]
    have hperm : (t.inbox ++ (rest ++ [r])).Perm (t.inbox ++ r :: rest) :=
      (List.perm_append_singleton r rest).append_left _
    exact hperm.subperm.trans (hsub.append_left t.inbox).subperm

theorem naivePlaced_line {t t' : NaiveThread σ} {r : Ref} {q : Request} {events : List Event}
    (h : NaivePlaced t) (hserving : t.serving = [r])
    (hline : Line r t.pc (t.sched.heap r) q events t'.pc)
    (hw : Writes t.sched t'.sched r q events) (hin : t'.inbox = t.inbox) : NaivePlaced t' := by
  have hr : r ∈ t.placed := by simp [placed, hserving]
  have hsub : t'.placed.Sublist t.placed := by
    simp only [placed, hin, hw.waiting, hserving]
    refine List.Sublist.append_left ?_ _
    rcases hline.serving with ⟨hidle, -⟩ | hs
    · simp [serving, hidle]
    · rw [hs]
  have hne : ∀ x ∈ t.placed, x ≠ r → x ∈ t'.placed → (t'.sched.heap x).finishReason = none := by
    intro x hx hxr hx'
    rw [hw.other hxr]
    refine (h.opens x hx).resolve_right fun hn => hxr ?_
    simpa [serving, hn.1] using hserving
  refine ⟨h.nodup.sublist hsub, fun x hx => ?_, fun x hx => ?_, fun x hx => ?_⟩
  · rw [hw.next]
    exact h.lt_next x (hsub.subset hx)
  · rw [hw.next] at hx
    rw [hw.other (Nat.ne_of_gt (Nat.lt_of_lt_of_le (h.lt_next r hr) hx))]
    exact h.blank x hx
  · by_cases hxr : x = r
    · rw [hxr, hw.self]
      refine (hline.finishReason (h.opens r hr)).resolve_left fun hidle => ?_
      -- the last line takes the request out of service
      have hnd := h.nodup
      rw [hxr] at hx
      simp only [placed, hin, hw.waiting, serving, hidle, List.append_nil] at hx
      simp only [placed, hserving] at hnd
      exact (List.nodup_append.mp hnd).2.2 r hx r List.mem_cons_self rfl
    · exact Or.inl (hne x (hsub.subset hx) hxr hx)

theorem naivePlaced_act {t t' : NaiveThread σ} {a : NaiveAction} (h : NaivePlaced t)
    (hact : t.act runner a = .ok t') : NaivePlaced t' := by
  cases a with
  | create n =>
    cases hact
    have hfresh : t.sched.next ∉ t.placed := fun hm => absurd (h.lt_next _ hm) (Nat.lt_irrefl _)
    have hperm : (t.sched.next :: t.placed).Perm
        (t.inbox ++ [t.sched.next] ++ t.sched.waiting ++ t.serving) := by
      simp only [placed, List.append_assoc, List.singleton_append]
      exact List.perm_middle.symm
    refine ⟨hperm.nodup_iff.mp (List.nodup_cons.mpr ⟨hfresh, h.nodup⟩), fun r hr => ?_,
      fun r hr => ?_, fun r hr => ?_⟩
    · rcases List.mem_cons.mp (hperm.mem_iff.mpr hr) with rfl | hr
      · exact Nat.lt_succ_self _
      · exact Nat.lt_succ_of_lt (h.lt_next r hr)
    · change t.sched.next + 1 ≤ r at hr
      show (Function.update t.sched.heap t.sched.next n.toRequest r).finishReason = none
      rw [Function.update_of_ne (Nat.ne_of_gt hr)]
      exact h.blank r (Nat.le_of_succ_le hr)
    · show (Function.update t.sched.heap t.sched.next n.toRequest r).finishReason = none ∨
        t.pc = .name r ∧ _
      rcases List.mem_cons.mp (hperm.mem_iff.mpr hr) with rfl | hr
      · rw [Function.update_self]
        exact Or.inl rfl
      · have hother := congrArg Request.finishReason (Function.update_of_ne (h.lt_next r hr).ne
          n.toRequest t.sched.heap)
        show _ ∨ t.pc = .name r ∧
          (Function.update t.sched.heap t.sched.next n.toRequest r).finishReason = _
        rw [hother]
        exact h.opens r hr
  | cancel x =>
    cases hact
    split
    · have hreason : ∀ r, ((t.sched.modify x fun q => { q with cancelled := true }).heap
          r).finishReason = (t.sched.heap r).finishReason := fun r =>
        apply_update Request.finishReason (by rfl) r
      exact ⟨h.nodup, h.lt_next, fun r hr => (hreason r).trans (h.blank r hr), fun r hr => by
        rw [hreason r]
        exact h.opens r hr⟩
    · exact h
  | submit =>
    cases hact
    unfold submit
    split
    · next r rest hpc hin =>
      refine h.mono (fun r hn => nomatch hpc.symm.trans hn) ?_ rfl
        fun x => apply_update Request.finishReason (by rfl) x
      simp only [placed, hin, serving, hpc, NaiveScheduler.submit, List.append_nil]
      rw [List.cons_append, ← List.append_assoc]
      exact (List.perm_append_singleton r _).subperm
    · exact h
  | advance =>
    rcases advance_cases hact with ⟨hpc, rfl⟩ | ⟨r, q, events, hserving, hline, hw, hin⟩
    · exact naivePlaced_enter h hpc
    · exact naivePlaced_line h hserving hline hw hin

end NaiveThread

end LlmServe
