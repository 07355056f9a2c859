import LlmServe.Theorems.HttpAnswers
import Mathlib.Algebra.BigOperators.Group.Finset.Basic

/-!
# What the counters say of the connections

`finish` runs once for each request that was let in, unless its stream is dropped before it starts. So
at every moment `llm_requests_total` has each other connection that is over, once, under `ok`,
`cancelled` or `error`; the other series are sums over the connections counted under `ok`
(`http_counted`).
-/

namespace LlmServe

open Infra Relation Finset

variable {σ : Type} {encode : Text → List Token} {tok : Tokenizer} {env : Env σ}
  {cfg : EngineConfig} {m : Manager} {w : σ} {v v' : Http σ} {p : Point σ} {r : Ref} {c : Connection}
  {q : Request} {events taken : List SinkEvent} {s : Status}

/-! ## One connection -/

/-- The generator was thrown away before it was started, and `finish` with it. -/
def Connection.Dropped (c : Connection) : Prop :=
  c.handler.pc = .closed ∧ c.generator = .unstarted

instance (c : Connection) : Decidable c.Dropped := inferInstanceAs (Decidable (_ ∧ _))

/-- The status that `finish` was called with. -/
def Connection.closedWith (c : Connection) : Option Status :=
  match c.handler.pc with
  | .response | .closed => if c.generator = .unstarted then Option.none else some c.status
  | .reading | .doneLine | .closing _ => Option.none

/-- The statuses that `finish` is called with. -/
def Connection.Closes (c : Connection) (s : Status) : Prop :=
  s = .ok ∨ s = .cancelled ∨ s = .error ∧ c.handler.stream = true

theorem Connection.Phase.closedWith (h : c.Phase tok taken) :
    c.closedWith = none ∨ ∃ s, c.closedWith = some s ∧ c.Closes s := by
  unfold Connection.closedWith
  cases h with
  | reading hpc | ended hpc | flushed hpc | done hpc => simp [hpc]
  | dropped hpc hgen => simp [hpc, hgen]
  | left hpc hgen _ hstatus =>
    rcases hpc with hpc | hpc
    · simp [hpc]
    · right
      refine ⟨c.status, by simp [hpc, hgen], ?_⟩
      rcases hstatus with hs | hs
      · exact Or.inr (Or.inl hs)
      · exact Or.inr (Or.inr hs)
  | late hpc hgen hwhole hstatus =>
    rcases hpc with hpc | hpc <;> simp [hpc, hgen, hstatus, Connection.Closes, hwhole.stream]
  | streamed hpc hgen _ hstatus =>
    rcases hpc with hpc | hpc <;> simp [hpc, hgen, hstatus, Connection.Closes]
  | collected hpc hgen _ _ _ hstatus =>
    rcases hpc with hpc | hpc <;> simp [hpc, hgen, hstatus, Connection.Closes]
  | responded hpc hgen _ _ hstatus => simp [hpc, hgen, hstatus, Connection.Closes]

/-- A request that was counted under `ok` had come to its end. -/
theorem Connection.Phase.complete (h : c.Phase tok taken) (hok : c.status = .ok) :
    Complete taken := by
  cases h with
  | reading _ _ hs | dropped _ _ _ hs | ended _ _ _ hs | flushed _ _ _ hs | late _ _ _ hs
  | done _ _ _ hs => cases hs.symm.trans hok
  | left _ _ _ hs => rcases hs with hs | ⟨hs, -⟩ <;> cases hs.symm.trans hok
  | streamed _ _ hwhole => exact hwhole.complete
  | collected _ _ _ hc | responded _ _ _ hc => exact hc

theorem Connection.Phase.closing_status (h : c.Phase tok taken) {final : Bool}
    (hpc : c.handler.pc = .closing final) (hgen : c.generator = .running) : c.Closes c.status := by
  cases h with
  | reading h | dropped h | ended h | flushed h | responded h => cases h.symm.trans hpc
  | done _ h => cases h.symm.trans hgen
  | left _ _ _ hs =>
    rcases hs with hs | hs
    · exact Or.inr (Or.inl hs)
    · exact Or.inr (Or.inr hs)
  | late _ _ hwhole hs => exact Or.inr (Or.inr ⟨hs, hwhole.stream⟩)
  | streamed _ _ _ hs | collected _ _ _ _ _ hs => exact Or.inl hs

theorem Connection.Phase.response_running (h : c.Phase tok taken) (hpc : c.handler.pc = .response) :
    c.generator = .running := by
  cases h with
  | collected _ hgen => exact hgen
  | reading h | dropped h | ended h | flushed h | done h | responded h => cases h.symm.trans hpc
  | left h | late h | streamed h => rcases h with h | h <;> cases h.symm.trans hpc

theorem Connection.respond_status (c : Connection) (q : Request) :
    (c.respond tok q).status = c.status ∧ (c.respond tok q).generator = c.generator := by
  unfold Connection.respond
  split <;> exact ⟨rfl, rfl⟩

/-- What a connection adds to a sum over the connections that `finish` was called for. -/
def Connection.worth (g : Status → Nat → NewRequest → Nat) (c : Connection) : Nat :=
  match c.closedWith with
  | some s => g s c.handler.taken c.asked
  | none => 0

/-- The sum over the connections that `finish` was called for. -/
def Http.total (v : Http σ) (g : Status → Nat → NewRequest → Nat) : Nat :=
  ∑ r ∈ range v.next, (v.conn r).worth g

theorem Connection.worth_open (hc : c.handler.pc ≠ .response ∧ c.handler.pc ≠ .closed)
    (g : Status → Nat → NewRequest → Nat) : c.worth g = 0 := by
  unfold Connection.worth Connection.closedWith
  cases hpc : c.handler.pc <;> simp_all

/-- A line of a handler is one of `finish`, or one that nothing is counted in. -/
theorem Connection.Phase.counts (h : c.Phase tok taken) (q : Request) (events : List SinkEvent) :
    (c.advance tok q events).2.2 = none ∧
        (∀ g, (c.advance tok q events).1.worth g = c.worth g) ∨
      ∃ s, (c.advance tok q events).2.2 = some s ∧ c.Closes s ∧ (s = .ok → Complete taken) ∧
        (s = .error → q.finished = true) ∧
        ∀ g, (c.advance tok q events).1.worth g = c.worth g + g s c.handler.taken c.asked := by
  -- neither before nor behind the line `finish` has been called
  have hopen : ∀ {c' : Connection},
      (c.handler.pc ≠ .response ∧ c.handler.pc ≠ .closed) →
      (c'.handler.pc ≠ .response ∧ c'.handler.pc ≠ .closed) → ∀ g, c'.worth g = c.worth g :=
    fun hc hc' g => (worth_open hc' g).trans (worth_open hc g).symm
  cases hpc : c.handler.pc with
  | closed =>
    rw [advance_closed hpc]
    exact Or.inl ⟨rfl, fun _ => rfl⟩
  | reading =>
    left
    by_cases hgen : c.generator = .running
    · cases he : events[c.handler.taken]? with
      | none =>
        rw [advance_waits hpc hgen he]
        exact ⟨rfl, fun _ => rfl⟩
      | some e =>
        obtain ⟨t, fin⟩ := e
        obtain ⟨h, hat, heq⟩ := @advance_event tok c q _ _ fin hpc hgen he
        rw [heq]
        refine ⟨rfl, hopen (by simp [hpc]) ?_⟩
        rw [hat.pc]
        cases fin <;> cases c.handler.stream <;> simp
    · rw [advance_resumes hpc hgen]
      exact ⟨rfl, hopen (by simp [hpc]) (by simp [hpc])⟩
  | doneLine =>
    left
    by_cases hgen : c.generator = .line ∧ (c.detok.flush tok).1 ≠ []
    · rw [advance_flush hpc hgen.1 hgen.2]
      exact ⟨rfl, hopen (by simp [hpc]) (by simp [hpc])⟩
    · have hgen' : c.generator = .tail ∨ c.generator = .line ∧ (c.detok.flush tok).1 = [] := by
        cases h with
        | ended _ hline => exact Or.inr ⟨hline, not_not.mp fun hne => hgen ⟨hline, hne⟩⟩
        | flushed _ htail => exact Or.inl htail
        | reading h | dropped h | done h | responded h => cases h.symm.trans hpc
        | left h | late h | streamed h | collected h => rcases h with h | h <;> cases h.symm.trans hpc
      obtain ⟨h', detok, hat, heq⟩ := @advance_doneLine tok c q events hpc hgen'
      rw [heq]
      exact ⟨rfl, hopen (by simp [hpc]) (by simp [hat.pc])⟩
  | closing final =>
    by_cases hline : c.generator = .line
    · rw [advance_sent hpc hline]
      exact Or.inl ⟨rfl, hopen (by simp [hpc]) (by simp [hpc])⟩
    · have hgen : c.generator = .running := by
        cases h with
        | reading h | dropped h | ended h | flushed h | responded h => cases h.symm.trans hpc
        | done _ h => exact absurd h hline
        | left _ hgen | late _ hgen | streamed _ hgen | collected _ hgen => exact hgen
      obtain ⟨h', hat, heq⟩ := @advance_closing tok c q events _ hpc hgen
      right
      refine ⟨if q.finished then c.status else .cancelled, by rw [heq], ?_, fun hs => ?_,
        fun hs => ?_, fun g => ?_⟩
      · split
        · exact h.closing_status hpc hgen
        · exact Or.inr (Or.inl rfl)
      · split at hs
        · exact h.complete hs
        · cases hs
      · split at hs
        · assumption
        · cases hs
      · have hzero : c.worth g = 0 := worth_open (by simp [hpc]) g
        rw [hzero, heq, Nat.zero_add]
        have hpc' := hat.pc
        cases final <;> cases hs : c.handler.stream <;>
          simp [worth, Connection.closedWith, hpc', hs, hat.taken, hgen]
  | response =>
    have hgen := h.response_running hpc
    obtain ⟨h', hat, heq⟩ := @advance_response tok c q events hpc hgen
    obtain ⟨hstatus, hgen'⟩ := @respond_status tok c q
    left
    rw [heq]
    refine ⟨rfl, fun g => ?_⟩
    simp [worth, Connection.closedWith, hat.pc, hat.taken, hpc, hstatus, hgen, hgen',
      respond_asked]

/-! ## The sums -/

theorem sum_update (conn : Ref → Connection) (f : Connection → Nat) {n : Nat} (hr : r < n)
    {d : Nat} (hc : f c = f (conn r) + d) :
    ∑ x ∈ range n, f (Function.update conn r c x) = ∑ x ∈ range n, f (conn x) + d := by
  have hmem : r ∈ range n := mem_range.mpr hr
  rw [← add_sum_erase _ _ hmem, ← add_sum_erase _ (fun x => f (conn x)) hmem, Function.update_self, hc]
  have hrest : ∑ x ∈ (range n).erase r, f (Function.update conn r c x) =
      ∑ x ∈ (range n).erase r, f (conn x) :=
    sum_congr rfl fun x hx => by rw [Function.update_of_ne (ne_of_mem_erase hx)]
  rw [hrest, Nat.add_right_comm]

/-- Who leaves is not counted before `finish` is called. -/
theorem Connection.Phase.disconnect_closedWith (h : c.Phase tok taken) :
    c.disconnect.closedWith = c.closedWith := by
  unfold Connection.closedWith
  cases h with
  | reading hpc =>
    cases hg : c.generator <;> simp [Connection.disconnect, Handler.disconnect, hpc, hg]
  | dropped hpc hgen | ended hpc hgen | flushed hpc hgen | done hpc hgen | responded hpc hgen =>
    simp [Connection.disconnect, Handler.disconnect, hpc, hgen]
  | left hpc hgen | late hpc hgen | streamed hpc hgen | collected hpc hgen =>
    rcases hpc with hpc | hpc <;> simp [Connection.disconnect, hpc, hgen]

theorem Connection.Phase.disconnect_worth (h : c.Phase tok taken)
    (g : Status → Nat → NewRequest → Nat) : c.disconnect.worth g = c.worth g := by
  unfold Connection.worth
  rw [h.disconnect_closedWith, disconnect_taken, disconnect_asked]

/-- The handlers nobody has built are over. -/
def Http.Unused (v : Http σ) : Prop := ∀ r, v.next ≤ r → (v.conn r).handler.pc = .closed

/-- **What a step counts**: one request that is over, a refusal, or nothing. -/
theorem http_counts_step (hm : m.Fresh) (hstep : HttpStep encode tok env cfg v v')
    (h : Rooted env cfg m w v p) (hserved : v.Served tok) (hunused : v.Unused) :
    v'.Unused ∧
      ((v'.obs = v.obs ∨ v'.obs = v.obs.inc .rejected ∨ v'.obs = v.obs.inc .tooLarge) ∧
          (∀ g, v'.total g = v.total g) ∨
        ∃ r s, r < v.next ∧ (v.conn r).Closes s ∧
          v'.obs = Connection.finish (v.request r) s v.obs ∧
          (s = .ok → ∃ ids, ids.length = (v.conn r).handler.taken ∧
            (v.conn r).asked.Announced ids (v.request r)) ∧
          ∀ g, v'.total g = v.total g + g s (v.conn r).handler.taken (v.conn r).asked) := by
  cases hstep with
  | engine t hline =>
    have hnext : Http.next { v with engine := t } = v.next := lineStep_next hline
    refine ⟨fun r hr => hunused r (hnext ▸ hr), Or.inl ⟨Or.inl rfl, fun g => ?_⟩⟩
    unfold Http.total
    rw [hnext]
  | accept body rid now n hn hmax =>
    refine ⟨fun r hr => ?_, Or.inl ⟨Or.inl rfl, fun g => ?_⟩⟩
    · have hr : v.next + 1 ≤ r := hr
      show (Function.update v.conn v.next _ r).handler.pc = .closed
      rw [Function.update_of_ne (Nat.ne_of_gt hr)]
      exact hunused r (Nat.le_of_succ_le hr)
    · show ∑ r ∈ range (v.next + 1), (Function.update v.conn v.next _ r).worth g = _
      have hnew : (Connection.opened n body.stream).worth g = 0 := rfl
      rw [sum_range_succ, Function.update_self, hnew, Nat.add_zero]
      exact sum_congr rfl fun r hr => by rw [Function.update_of_ne (mem_range.mp hr).ne]
  | reject body rid now n hn =>
    exact ⟨hunused, Or.inl ⟨Or.inr (Or.inl rfl), fun _ => rfl⟩⟩
  | tooLarge body rid now e he h413 =>
    exact ⟨hunused, Or.inl ⟨Or.inr (Or.inr rfl), fun _ => rfl⟩⟩
  | handle x =>
    have hnext : (v.handle tok x).next = v.next := http_handle_next v x
    have hothers : (v.next ≤ x → (v.handle tok x).conn x = v.conn x) → (v.handle tok x).Unused := by
      intro hself r hr
      rw [hnext] at hr
      by_cases hrx : r = x
      · subst hrx
        rw [hself hr]
        exact hunused r hr
      · have hconn : (v.handle tok x).conn r = v.conn r := Function.update_of_ne hrx ..
        rw [hconn]
        exact hunused r hr
    have htotal : ∀ g d, x < v.next →
        ((v.conn x).advance tok (v.request x) (v.events x)).1.worth g = (v.conn x).worth g + d →
        (v.handle tok x).total g = v.total g + d := by
      intro g d hx hd
      unfold Http.total
      rw [hnext]
      exact sum_update v.conn (Connection.worth g) hx hd
    rcases Nat.lt_or_ge x v.next with hx | hx
    · refine ⟨hothers fun hge => absurd hx (Nat.not_lt.mpr hge), ?_⟩
      obtain ⟨taken, htaken, hlen, hphase⟩ := hserved x hx
      rcases hphase.counts (v.request x) (v.events x) with
        ⟨hnone, hsame⟩ | ⟨s, hs, hor, hok, -, hadd⟩
      · refine Or.inl ⟨Or.inl ?_, fun g => htotal g 0 hx (hsame g)⟩
        unfold Http.handle
        dsimp only
        rw [hnone]
      · refine Or.inr ⟨x, s, hx, hor, ?_, fun he => ?_, fun g => htotal g _ hx (hadd g)⟩
        · unfold Http.handle
          dsimp only
          rw [hs]
        · exact ⟨_, by rw [List.length_map, hlen],
            h.announced hm (h.next ▸ hx) htaken (hok he)⟩
    · have hclosed := @Connection.advance_closed tok _ (v.request x) (v.events x) (hunused x hx)
      have hconn : (v.handle tok x).conn = v.conn := by
        unfold Http.handle
        dsimp only
        rw [hclosed]
        exact Function.update_eq_self x v.conn
      refine ⟨hothers fun _ => by rw [hconn], Or.inl ⟨Or.inl ?_, fun g => ?_⟩⟩
      · unfold Http.handle
        dsimp only
        rw [hclosed]
      · unfold Http.total
        rw [hnext, hconn]
  | disconnect x =>
    refine ⟨fun r hr => ?_, Or.inl ⟨Or.inl rfl, fun g => ?_⟩⟩
    · show (Function.update v.conn x _ r).handler.pc = .closed
      by_cases hrx : r = x
      · subst hrx
        have hpc := hunused r hr
        rw [Function.update_self]
        simp [Connection.disconnect, hpc]
      · rw [Function.update_of_ne hrx]
        exact hunused r hr
    · refine sum_congr rfl fun r hr => ?_
      show (Function.update v.conn x _ r).worth g = _
      by_cases hrx : r = x
      · subst hrx
        obtain ⟨taken, -, -, hphase⟩ := hserved r (mem_range.mp hr)
        rw [Function.update_self, hphase.disconnect_worth]
      · rw [Function.update_of_ne hrx]

/-! ## Every counter, at every moment -/

structure Http.Counted (v : Http σ) : Prop where
  requests : ∀ s, s ≠ .rejected → s ≠ .tooLarge →
    v.obs.requests s = v.total fun s' _ _ => if s' = s then 1 else 0
  tokens : v.obs.tokens = v.total fun s k _ => if s = .ok then k else 0
  promptTokens : v.obs.promptTokens =
    v.total fun s _ n => if s = .ok then n.promptTokenIds.length else 0
  ttft : v.obs.ttft.length = v.obs.requests .ok
  tpot : v.obs.tpot.length = v.total fun s k _ => if s = .ok ∧ 1 < k then 1 else 0
  e2e : v.obs.e2e.length = v.obs.requests .ok

theorem Http.Counted.refuse (h : v.Counted) (hs : s = .rejected ∨ s = .tooLarge)
    (hobs : v'.obs = v.obs.inc s) (htotal : ∀ g, v'.total g = v.total g) : v'.Counted := by
  have hrequests : ∀ s', s' ≠ .rejected → s' ≠ .tooLarge →
      v'.obs.requests s' = v.obs.requests s' := by
    intro s' hr ht
    rw [hobs]
    exact Function.update_of_ne (by rintro rfl; rcases hs with rfl | rfl <;> contradiction) ..
  have hok := hrequests .ok (by simp) (by simp)
  refine ⟨fun s' hr ht => ?_, ?_, ?_, ?_, ?_, ?_⟩
  · rw [hrequests s' hr ht, htotal]
    exact h.requests s' hr ht
  · rw [htotal, hobs]
    exact h.tokens
  · rw [htotal, hobs]
    exact h.promptTokens
  · rw [hok, hobs]
    exact h.ttft
  · rw [htotal, hobs]
    exact h.tpot
  · rw [hok, hobs]
    exact h.e2e

/-- `obs.requests.labels(s)`, for a status that `finish` is called with. -/
theorem requests_inc {o : Observability} {s s' : Status} :
    (o.inc s).requests s' = o.requests s' + if s = s' then 1 else 0 := by
  by_cases hs : s = s'
  · subst hs
    simp [Observability.inc]
  · simp [Observability.inc, hs, Function.update_of_ne (Ne.symm hs)]

/-- A request that is over, but not well. -/
theorem Http.Counted.unfinished (h : v.Counted) {k : Nat} {n : NewRequest} (hs : s ≠ .ok)
    (hobs : v'.obs = v.obs.inc s)
    (htotal : ∀ g, v'.total g = v.total g + g s k n) : v'.Counted := by
  have hok : v'.obs.requests .ok = v.obs.requests .ok := by
    rw [hobs, requests_inc, if_neg hs]
    rfl
  refine ⟨fun s' hr ht => ?_, ?_, ?_, ?_, ?_, ?_⟩
  · rw [hobs, requests_inc, htotal, h.requests s' hr ht]
  · rw [htotal, hobs, if_neg hs]
    exact h.tokens
  · rw [htotal, hobs, if_neg hs]
    exact h.promptTokens
  · rw [hok, hobs]
    exact h.ttft
  · rw [htotal, hobs, if_neg fun h => hs h.1]
    exact h.tpot
  · rw [hok, hobs]
    exact h.e2e

theorem Http.Counted.finished (h : v.Counted) {n : NewRequest} {ids : List Token}
    (hq : n.Announced ids q) (hobs : v'.obs = v.obs.observeFinished q)
    (htotal : ∀ g, v'.total g = v.total g + g .ok ids.length n) : v'.Counted := by
  obtain ⟨first, hfirst⟩ := Option.ne_none_iff_exists'.mp hq.firstTokenTime
  obtain ⟨finish, hfinish⟩ := Option.ne_none_iff_exists'.mp hq.finishTime
  have heq : v.obs.observeFinished q = { v.obs.inc .ok with
      tokens := v.obs.tokens + ids.length
      promptTokens := v.obs.promptTokens + n.promptTokenIds.length
      ttft := v.obs.ttft ++ [first - q.arrivalTime]
      tpot := if 1 < ids.length then
          v.obs.tpot ++ [((finish : Rat) - first) / (ids.length - 1)] else v.obs.tpot
      e2e := v.obs.e2e ++ [finish - q.arrivalTime] } := by
    simp [Observability.observeFinished, Observability.inc, hfirst, hfinish, hq.tokens, hq.prompt]
  have hok : v'.obs.requests .ok = v.obs.requests .ok + 1 := by
    rw [hobs, heq]
    show (v.obs.inc .ok).requests .ok = _
    rw [requests_inc]
    rfl
  refine ⟨fun s hr ht => ?_, ?_, ?_, ?_, ?_, ?_⟩
  · rw [hobs, heq, htotal, ← h.requests s hr ht]
    exact requests_inc
  · rw [hobs, heq, htotal, ← h.tokens]
    rfl
  · rw [hobs, heq, htotal, ← h.promptTokens]
    rfl
  · rw [hok, hobs, heq, ← h.ttft]
    simp
  · rw [hobs, heq, htotal, ← h.tpot]
    by_cases hlong : 1 < ids.length <;> simp [hlong]
  · rw [hok, hobs, heq, ← h.e2e]
    simp

theorem counted_step (hm : m.Fresh) (hstep : HttpStep encode tok env cfg v v')
    (h : Rooted env cfg m w v p) (hserved : v.Served tok) (hunused : v.Unused)
    (hcounted : v.Counted) : v'.Unused ∧ v'.Counted := by
  obtain ⟨hunused', ⟨hobs, htotal⟩ | ⟨r, s, -, hs, hobs, hok, htotal⟩⟩ :=
    http_counts_step hm hstep h hserved hunused
  · refine ⟨hunused', ?_⟩
    rcases hobs with hobs | hobs | hobs
    · refine ⟨fun s hr ht => ?_, ?_, ?_, ?_, ?_, ?_⟩ <;> rw [hobs] <;> try rw [htotal]
      · exact hcounted.requests s hr ht
      · exact hcounted.tokens
      · exact hcounted.promptTokens
      · exact hcounted.ttft
      · exact hcounted.tpot
      · exact hcounted.e2e
    · exact hcounted.refuse (Or.inl rfl) hobs htotal
    · exact hcounted.refuse (Or.inr rfl) hobs htotal
  · refine ⟨hunused', ?_⟩
    rcases hs with rfl | rfl | ⟨rfl, -⟩
    · obtain ⟨ids, hlen, hq⟩ := hok rfl
      refine hcounted.finished hq hobs fun g => ?_
      rw [htotal, hlen]
    · exact hcounted.unfinished (by simp) hobs htotal
    · exact hcounted.unfinished (by simp) hobs htotal

theorem http_start_counted : (Http.start cfg m w : Http σ).Counted :=
  ⟨fun _ _ _ => rfl, rfl, rfl, rfl, rfl, rfl⟩

/-! ## What is counted under `error` -/

theorem EmitPc.write_finishReason (now : Time) (t : Token) (pc : EmitPc)
    (h : q.finishReason ≠ none) : (pc.write now t q).finishReason ≠ none := by
  cases pc with
  | append | sink => exact h
  | stamp =>
    simp only [EmitPc.write]
    split <;> exact h
  | reason =>
    simp only [EmitPc.write]
    split
    · simp
    · split
      · simp
      · exact h
  | finish =>
    simp only [EmitPc.write]
    split <;> exact h

/-- Whatever has ended stays so. -/
theorem lineStep_finishReason {t t' : LineThread σ} (hstep : LineStep env cfg t t')
    (h : (t.point.sched.heap r).finishReason ≠ none) :
    (t'.point.sched.heap r).finishReason ≠ none := by
  have hkeep : ∀ {x : Ref} {q : Request} {heap : Ref → Request},
      heap = Function.update t.point.sched.heap x q →
      ((t.point.sched.heap x).finishReason ≠ none → q.finishReason ≠ none) →
      (heap r).finishReason ≠ none := fun heq hq =>
    holds_update (P := fun q => q.finishReason ≠ none) heq hq h
  cases hstep with
  | op p p' hop hsame =>
    rw [(hsame r).finishReason]
    exact h
  | submit p pre post x hidle hin => exact hkeep rfl id
  | now p x token due hdue => exact h
  | write p x token now pc hpc => exact hkeep rfl (pc.write_finishReason now token)
  | sink p x token now due hdue =>
    show ((p.sched.callSink x token).heap r).finishReason ≠ none
    unfold Scheduler.callSink
    dsimp only
    split <;> exact h
  | markReason p x hidle hx hc hopen => exact hkeep rfl fun _ => by simp
  | markTime p x => exact hkeep rfl id

/-- Counted under `error`. -/
theorem Connection.worth_error_iff (c : Connection) :
    c.worth (fun s _ _ => if s = .error then 1 else 0) = 1 ↔ c.closedWith = some .error := by
  unfold Connection.worth
  cases c.closedWith with
  | none => simp
  | some s => simp

/-- A line of a handler that counts its request under `error`. -/
theorem Connection.Phase.closes_late (h : c.Phase tok taken)
    (hlate : c.closedWith = some .error → c.handler.stream = true ∧ q.finishReason ≠ none)
    (hclosed : (c.advance tok q events).1.closedWith = some .error) :
    c.handler.stream = true ∧ q.finishReason ≠ none := by
  rw [← worth_error_iff] at hclosed hlate
  rcases h.counts q events with ⟨-, hsame⟩ | ⟨s, -, hs, -, hdone, hadd⟩
  · exact hlate (hsame _ ▸ hclosed)
  · rcases hs with rfl | rfl | ⟨rfl, hstream⟩
    · exact hlate (by simpa [hadd] using hclosed)
    · exact hlate (by simpa [hadd] using hclosed)
    · exact ⟨hstream, Request.finished_iff.mp (hdone rfl)⟩

/-- What is counted under `error` is a stream whose request had finished. -/
def Http.LateErrors (v : Http σ) : Prop :=
  ∀ r < v.next, (v.conn r).closedWith = some .error →
    (v.conn r).handler.stream = true ∧ (v.request r).finishReason ≠ none

theorem Http.request_handle (v : Http σ) (x r : Ref) :
    ((v.handle tok x).request r).finishReason = (v.request r).finishReason := by
  unfold Http.request Http.handle
  dsimp only
  split
  · by_cases hr : r = x
    · subst hr
      simp [Scheduler.cancel, Scheduler.modify]
    · simp [Scheduler.cancel, Scheduler.modify, hr]
  · rfl

theorem lateErrors_step (hstep : HttpStep encode tok env cfg v v') (hserved : v.Served tok)
    (hlate : v.LateErrors) : v'.LateErrors := by
  intro r hr
  cases hstep with
  | engine t hline =>
    intro hclosed
    obtain ⟨hstream, hdone⟩ := hlate r (by rwa [Http.next, ← lineStep_next hline]) hclosed
    exact ⟨hstream, lineStep_finishReason hline hdone⟩
  | accept body rid now n hn hmax =>
    by_cases hnew : r = v.next
    · have hconn : (v.accept n body.stream).conn r = .opened n body.stream := by
        rw [hnew]
        exact Function.update_self ..
      rw [hconn]
      intro hc
      cases hc
    · have hconn : (v.accept n body.stream).conn r = v.conn r := Function.update_of_ne hnew ..
      have hreq : (v.accept n body.stream).request r = v.request r := Function.update_of_ne hnew ..
      rw [hconn, hreq]
      exact hlate r (lt_of_le_of_ne (Nat.le_of_lt_succ hr) hnew)
  | reject body rid now n hn => exact hlate r hr
  | tooLarge body rid now e he h413 => exact hlate r hr
  | handle x =>
    rw [http_handle_next] at hr
    rw [Http.request_handle]
    by_cases hrx : r = x
    · subst hrx
      have hconn : (v.handle tok r).conn r =
          ((v.conn r).advance tok (v.request r) (v.events r)).1 := Function.update_self ..
      obtain ⟨taken, htaken, hlen, hphase⟩ := hserved r hr
      rw [hconn, Connection.advance_stream]
      exact hphase.closes_late (hlate r hr)
    · have hconn : (v.handle tok x).conn r = v.conn r := Function.update_of_ne hrx ..
      rw [hconn]
      exact hlate r hr
  | disconnect x =>
    by_cases hrx : r = x
    · subst hrx
      obtain ⟨taken, -, -, hphase⟩ := hserved r hr
      simp only [Http.disconnect, Function.update_self]
      rw [hphase.disconnect_closedWith, Connection.disconnect_stream]
      exact hlate r hr
    · simp only [Http.disconnect, Function.update_of_ne hrx]
      exact hlate r hr

end LlmServe
