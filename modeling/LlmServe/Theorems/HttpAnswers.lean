import LlmServe.Properties.Connections
import LlmServe.Properties.ServerWorld
import LlmServe.Spec.Http

/-!
# What a client receives

The whole way from a forward pass to the wire: whatever clients post, however they leave and however
the engine batches, evicts and pages, each connection has sent the lines for the beginning of greedy
decoding of its own prompt, and a connection that ends well has sent all of it, as text
(`http_answers`).
-/

namespace LlmServe

open Infra Point Relation

variable {σ : Type} {encode : Text → List Token} {tok : Tokenizer} {env : Env σ}
  {cfg : EngineConfig} {m : Manager} {w : σ} {v v' : Http σ} {p p' : Point σ} {t : LineThread σ}
  {r : Ref} {taken : List SinkEvent}

/-! ## Events -/

/-- What was logged stays. -/
theorem move_log {v v' : View} (h : Move cfg m r v v') : v.log <+: v'.log := by
  cases h <;> first | exact List.prefix_refl _ | exact List.prefix_append _ _

theorem calls_prefix {l l' : List Event} (h : l <+: l') : calls r l <+: calls r l' := by
  obtain ⟨rest, rfl⟩ := h
  rw [calls_append]
  exact List.prefix_append _ _

theorem Good.calls_log (hgood : Good cfg m p) (hops : Reach env cfg p p') (r : Ref) :
    calls r p.sched.trace <+: calls r p'.sched.trace := by
  have hmoves := hgood.moves hops r
  have hlog : (p.view r).log <+: (p'.view r).log := by
    refine reach_invariant (P := fun x => (p.view r).log <+: x.log) ?_ hmoves (List.prefix_refl _)
    exact fun x y hxy hx => hx.trans (move_log hxy)
  have hcalls := calls_prefix (r := r) hlog
  rwa [show calls r (p.view r).log = calls r p.sched.trace from calls_filter _,
    show calls r (p'.view r).log = calls r p'.sched.trace from calls_filter _] at hcalls

/-! ## The request behind a final event -/

/-- A request whose final event is out is not being written to. -/
theorem Mid.heap_of_final (hmid : Mid env t p) (hgood : Good cfg m p) {token : Token}
    (hfinal : (token, true) ∈ calls r p.sched.trace) :
    t.point.sched.heap r = p.sched.heap r := by
  have hdone := (hgood.completed_of_final hfinal).finishReason
  cases hmid with
  | whole => rfl
  | emit _ x tok' due pc hdue =>
    have hopen : (p.sched.heap x).finishReason = none :=
      (hgood.facts x).ending.due_open (by simp [view, dueRefs, hdue])
    have hrx : r ≠ x := fun he => hdone (he ▸ hopen)
    exact Function.update_of_ne hrx ..
  | mark _ x hidle hx hc hopen =>
    have hrx : r ≠ x := fun he => hdone (he ▸ Request.not_finished_iff.mp hopen)
    exact Function.update_of_ne hrx ..

/-- Behind a final event nothing comes. -/
theorem OnlyLast.complete_eq {cs : List SinkEvent} (honly : OnlyLast cs) (htaken : taken <+: cs)
    (hc : Complete taken) : taken = cs := by
  obtain ⟨init, last, rfl⟩ := hc
  obtain ⟨rest, rfl⟩ := htaken
  cases rest with
  | nil => rw [List.append_nil]
  | cons e rest =>
    have hmem : (last, true) ∈ (init.map (fun t => (t, false)) ++ [(last, true)] ++
        e :: rest).dropLast := by
      rw [List.dropLast_append_of_ne_nil (List.cons_ne_nil _ _)]
      simp
    cases honly _ hmem

/-- The calls of the sink of an accepted request. -/
theorem Rooted.streamed (hm : m.Fresh) (h : Rooted env cfg m w v p) (hr : r < p.sched.next)
    (hne : calls r p.sched.trace ≠ []) : p.Submitted r ∧
      Streamed (v.conn r).asked.capped (v.conn r).asked.ignoreEos
        (p.sched.heap r).outputTokenIds (calls r p.sched.trace) := by
  have hgood := h.good hm
  have hstream := hgood.stream r
  have hlog : calls r (p.view r).log = calls r p.sched.trace := calls_filter _
  have hsub : p.Submitted r := by
    refine ⟨hr, fun hin => hne ?_⟩
    have hout : (p.sched.heap r).outputTokenIds = [] :=
      (hgood.facts r).ending.unsubmitted (Or.inr (phase_inbox hin))
    by_cases hsink : (p.sched.heap r).sink = none
    · exact hlog ▸ hstream.silent hsink
    · have htoks := hstream.tokens hsink
      rw [hlog] at htoks
      exact List.map_eq_nil_iff.mp (htoks.trans hout)
  have hev := h.sourced.evolves hsub
  have hsink : (p.sched.heap r).sink ≠ none := by
    rw [hev.sink]
    exact (h.posted r hr).sink
  have hs := hstream.streamed hsink
  rw [hlog] at hs
  refine ⟨hsub, ?_⟩
  have hmax : (p.sched.heap r).maxNewTokens = (v.conn r).asked.capped := hev.maxNewTokens
  have heos : (p.sched.heap r).ignoreEos = (v.conn r).asked.ignoreEos := hev.ignoreEos
  rw [← hmax, ← heos]
  exact hs

/-- **A complete sequence of events comes with a request that has ended so.** -/
theorem Rooted.announced (hm : m.Fresh) (h : Rooted env cfg m w v p) (hr : r < p.sched.next)
    (htaken : taken <+: v.events r) (hc : Complete taken) :
    (v.conn r).asked.Announced (taken.map Prod.fst) (v.request r) := by
  have hgood := h.good hm
  rw [h.events] at htaken
  have hfinal : ∃ token, (token, true) ∈ calls r p.sched.trace := by
    obtain ⟨init, last, rfl⟩ := hc
    exact ⟨last, htaken.subset (by simp)⟩
  obtain ⟨token, hfinal⟩ := hfinal
  obtain ⟨hsub, hs⟩ := h.streamed hm hr (List.ne_nil_of_mem hfinal)
  have hall := hs.onlyLast.complete_eq htaken hc
  have hev := h.sourced.evolves hsub
  have hdone := hgood.completed_of_final hfinal
  have hend := (hgood.facts r).ending
  have htoks : taken.map Prod.fst = (p.sched.heap r).outputTokenIds := by
    rw [hall]
    exact hs.tokens
  -- whoever was told its end was not cancelled before
  have hself : (p.sched.heap r).finishReason ≠ some .cancelled := by
    intro hcan
    have hopen := (hend.aborted hcan).2
    have hflags := (hgood.stream r).no_final hopen
    have hlog : calls r (p.view r).log = calls r p.sched.trace := calls_filter _
    cases hflags (token, true) (hlog ▸ hfinal)
  have hreason : (p.sched.heap r).finishReason = (v.conn r).asked.reason (taken.map Prod.fst) := by
    rw [htoks]
    refine (hend.reason hself).trans ?_
    show Request.endReason (p.sched.heap r).maxNewTokens (p.sched.heap r).ignoreEos _ = _
    rw [hev.maxNewTokens, hev.ignoreEos]
    rfl
  have hcell : v.request r = p.sched.heap r := h.mid.heap_of_final hgood hfinal
  rw [hcell]
  exact ⟨hev.promptTokenIds, htoks.symm, hreason, hdone.finishReason, hdone.firstTokenTime,
    hdone.finishTime⟩

/-! ## Every connection, at every moment -/

/-- Every handler is in one of its phases, behind the first events of its queue. -/
def Http.Served (tok : Tokenizer) (v : Http σ) : Prop :=
  ∀ r < v.next, ∃ taken, taken <+: v.events r ∧ taken.length = (v.conn r).handler.taken ∧
    (v.conn r).Phase tok taken

theorem http_handle_next (v : Http σ) (x : Ref) : (v.handle tok x).next = v.next := by
  unfold Http.next Http.handle
  dsimp only
  split <;> rfl

theorem served_step (hm : m.Fresh) (hstep : HttpStep encode tok env cfg v v')
    (h : Rooted env cfg m w v p) (h' : Rooted env cfg m w v' p') (hops : Reach env cfg p p')
    (hserved : v.Served tok) : v'.Served tok := by
  have hgrow : ∀ r, v.events r <+: v'.events r := fun r => by
    rw [h.events, h'.events]
    exact (h.good hm).calls_log hops r
  intro r hr
  have hkeep : r < v.next → v'.conn r = v.conn r → ∃ taken, taken <+: v'.events r ∧
      taken.length = (v'.conn r).handler.taken ∧ (v'.conn r).Phase tok taken := by
    intro hlt hc
    obtain ⟨taken, htaken, hlen, hphase⟩ := hserved r hlt
    rw [hc]
    exact ⟨taken, htaken.trans (hgrow r), hlen, hphase⟩
  cases hstep with
  | engine t hline => exact hkeep (by rwa [Http.next, ← lineStep_next hline]) rfl
  | accept body rid now n hn hmax =>
    by_cases hnew : r = v.next
    · rw [hnew]
      have hconn : (v.accept n body.stream).conn v.next = .opened n body.stream :=
        Function.update_self ..
      rw [hconn]
      exact ⟨[], List.nil_prefix, rfl, .opened tok n body.stream⟩
    · exact hkeep (lt_of_le_of_ne (Nat.le_of_lt_succ hr) hnew) (Function.update_of_ne hnew ..)
  | reject body rid now n hn => exact hkeep hr rfl
  | tooLarge body rid now e he h413 => exact hkeep hr rfl
  | handle x =>
    have hnext : (v.handle tok x).next = v.next := http_handle_next v x
    by_cases hrx : r = x
    · subst hrx
      have hlt : r < v.next := hnext ▸ hr
      obtain ⟨taken, htaken, hlen, hphase⟩ := hserved r hlt
      obtain ⟨taken', htaken', hlen', hphase'⟩ := hphase.advance (q := v.request r) htaken hlen
        fun hc => h.announced hm (h.next ▸ hlt) htaken hc
      have hconn : (v.handle tok r).conn r =
          ((v.conn r).advance tok (v.request r) (v.events r)).1 := Function.update_self ..
      rw [hconn]
      exact ⟨taken', htaken'.trans (hgrow r), hlen', hphase'⟩
    · exact hkeep (hnext ▸ hr) (Function.update_of_ne hrx ..)
  | disconnect x =>
    by_cases hrx : r = x
    · subst hrx
      obtain ⟨taken, htaken, hlen, hphase⟩ := hserved r hr
      refine ⟨taken, htaken.trans (hgrow r), ?_, ?_⟩
      · rw [hlen]
        simp only [Http.disconnect, Function.update_self, Connection.disconnect_taken]
      · simpa only [Http.disconnect, Function.update_self] using hphase.disconnect
    · exact hkeep hr (Function.update_of_ne hrx ..)

/-- **At every moment of a server.** -/
theorem served_run (hm : m.Fresh)
    (hv : ReflTransGen (HttpStep encode tok env cfg) (.start cfg m w) v) :
    ∃ p, Rooted env cfg m w v p ∧ v.Served tok := by
  induction hv with
  | refl => exact ⟨_, rooted_start, fun r hr => absurd hr (Nat.not_lt_zero r)⟩
  | tail _ hstep ih =>
    obtain ⟨p, hp, hserved⟩ := ih
    obtain ⟨p', hops, hp'⟩ := rooted_step hm hstep hp
    exact ⟨p', hp', served_step hm hstep hp hp' hops hserved⟩

/-! ## Greedy decoding, on the wire -/

/-- What a connection has sent is made of `ids`, the beginning of greedy decoding of its prompt. -/
structure Connection.Answers (next : List Token → Token) (tok : Tokenizer) (c : Connection)
    (ids : List Token) : Prop where
  unrolled : ids = unroll next c.asked.promptTokenIds ids.length
  goes : ∀ pre, pre <+: ids → pre ≠ ids → c.asked.reason pre = none
  /-- Behind the lines of the tokens, once they are all, come some of the last lines. -/
  lines : ∃ rest, c.lines = (if c.handler.stream then tokenLines tok ids else []) ++ rest ∧
    rest <+: tailLines (tail tok ids) ++ [doneLine (c.asked.reason ids) ids.length] ∧
    (rest ≠ [] → c.handler.stream = true ∧ c.asked.reason ids ≠ none)
  ends : c.status = .ok ∨ c.out ≠ none →
    Request.Ends next c.asked.promptTokenIds c.asked.capped c.asked.ignoreEos ids
  streamed : c.status = .ok → c.handler.stream = true →
    c.lines = tokenLines tok ids ++ tailLines (tail tok ids)
        ++ [doneLine (c.asked.reason ids) ids.length] ∧
      c.lines.flatMap JsonObject.text = tok.decode ids
  responded : c.status = .ok → c.handler.stream = false → c.handler.pc = .closed →
    ∃ o, c.out = some o
  out : ∀ o, c.out = some o → o.Of tok c.asked ids

/-- What a phase says, once the tokens are known. -/
theorem Connection.Phase.answers {next : List Token → Token} {c : Connection}
    (h : c.Phase tok taken)
    (hunrolled : taken.map Prod.fst =
      unroll next c.asked.promptTokenIds (taken.map Prod.fst).length)
    (hgoes : ∀ pre, pre <+: taken.map Prod.fst → pre ≠ taken.map Prod.fst →
      c.asked.reason pre = none)
    (hend : Complete taken → c.asked.reason (taken.map Prod.fst) ≠ none) :
    c.Answers next tok (taken.map Prod.fst) := by
  have hends : Complete taken → Request.Ends next c.asked.promptTokenIds c.asked.capped
      c.asked.ignoreEos (taken.map Prod.fst) := fun hc =>
    ⟨hunrolled, hend hc, fun pre hpre hne => not_not.mpr (hgoes pre hpre hne)⟩
  have hopen : c.Open tok taken → c.status ≠ .ok → c.Answers next tok (taken.map Prod.fst) := by
    intro ho hs
    refine ⟨hunrolled, hgoes, ⟨[], ?_, List.nil_prefix, fun hne => absurd rfl hne⟩, ?_, ?_, ?_, ?_⟩
    · rw [ho.lines, List.append_nil]
    · rintro (hok | hout)
      · exact absurd hok hs
      · exact absurd ho.out hout
    · intro hok
      exact absurd hok hs
    · intro hok
      exact absurd hok hs
    · intro o hout
      cases ho.out.symm.trans hout
  have hsent : c.Whole taken → ∀ rest, c.lines = tokenLines tok (taken.map Prod.fst) ++ rest →
      rest <+: tailLines (tail tok (taken.map Prod.fst))
        ++ [doneLine (c.asked.reason (taken.map Prod.fst)) taken.length] →
      (c.status = .ok → c.lines = ndjson tok (c.asked.reason (taken.map Prod.fst)) taken) →
      c.Answers next tok (taken.map Prod.fst) := by
    intro hwhole rest hlines hrest hok
    have hc := hwhole.complete
    refine ⟨hunrolled, hgoes, ⟨rest, ?_, ?_, fun _ => ⟨hwhole.stream, hend hc⟩⟩, fun _ => hends hc,
      ?_, ?_, ?_⟩
    · rw [hwhole.stream]
      exact hlines
    · rw [List.length_map]
      exact hrest
    · intro hs _
      have htext := @text_ndjson tok _ hc (c.asked.reason (taken.map Prod.fst))
      rw [hok hs, List.length_map]
      exact ⟨ndjson_eq hc _, htext⟩
    · intro _ hs
      cases hwhole.stream.symm.trans hs
    · intro o ho
      cases hwhole.out.symm.trans ho
  have hndjson : c.Whole taken →
      c.lines = ndjson tok (c.asked.reason (taken.map Prod.fst)) taken →
      c.Answers next tok (taken.map Prod.fst) := by
    intro hwhole hlines
    refine hsent hwhole _ ?_ (List.prefix_refl _) fun _ => hlines
    rw [← List.append_assoc]
    exact hlines.trans (ndjson_eq hwhole.complete _)
  cases h with
  | reading hpc ho hstatus => exact hopen ho (by simp [hstatus])
  | dropped hpc hgen ho hstatus => exact hopen ho (by simp [hstatus])
  | left hpc hgen ho hstatus => exact hopen ho (by rcases hstatus with h | ⟨h, -⟩ <;> simp [h])
  | ended hpc hgen hwhole hstatus hlines =>
    exact hsent hwhole [] (hlines.trans (List.append_nil _).symm) List.nil_prefix fun hok => by
      simp [hstatus] at hok
  | flushed hpc hgen hwhole hstatus hlines =>
    exact hsent hwhole _ hlines (List.prefix_append _ _) fun hok => by simp [hstatus] at hok
  | late hpc hgen hwhole hstatus rest hlines hrest =>
    exact hsent hwhole _ hlines hrest fun hok => by simp [hstatus] at hok
  | done hpc hgen hwhole hstatus hlines => exact hndjson hwhole hlines
  | streamed hpc hgen hwhole hstatus hlines => exact hndjson hwhole hlines
  | collected hpc hgen hstream hc hout hstatus hlines =>
    refine ⟨hunrolled, hgoes, ⟨[], ?_, List.nil_prefix, fun hne => absurd rfl hne⟩,
      fun _ => hends hc, ?_, ?_, ?_⟩
    · rw [hlines, hstream]
      rfl
    · intro _ hs
      cases hstream.symm.trans hs
    · intro _ _ hclosed
      rcases hpc with hpc | hpc <;> cases hpc.symm.trans hclosed
    · intro o ho
      cases hout.symm.trans ho
  | responded hpc hgen hstream hc hstatus hlines o hout ho =>
    refine ⟨hunrolled, hgoes, ⟨[], ?_, List.nil_prefix, fun hne => absurd rfl hne⟩,
      fun _ => hends hc, ?_, fun _ _ _ => ⟨o, hout⟩, ?_⟩
    · rw [hlines, hstream]
      rfl
    · intro _ hs
      cases hstream.symm.trans hs
    · intro o' ho'
      cases hout.symm.trans ho'
      exact ho

variable {Hidden K V κ : Type} {M : Transformer Hidden K V} {clock : κ → Time × κ}

theorem Rooted.unrolled {w : RunnerState κ K V} {v : Http (RunnerState κ K V)}
    {p : Point (RunnerState κ K V)} (hm : m.Fresh) (hpool : w.pool.layout = m.layout)
    (h : Rooted (Env.ofRunner M clock) cfg m w v p) (hr : r < p.sched.next)
    (htaken : taken <+: v.events r) :
    taken.map Prod.fst =
        unroll M.next (v.conn r).asked.promptTokenIds (taken.map Prod.fst).length ∧
      ∀ pre, pre <+: taken.map Prod.fst → pre ≠ taken.map Prod.fst →
        (v.conn r).asked.reason pre = none := by
  rw [h.events] at htaken
  by_cases hne : calls r p.sched.trace = []
  · rw [hne] at htaken
    rw [List.prefix_nil.mp htaken]
    exact ⟨rfl, fun pre hpre hne => absurd (List.prefix_nil.mp hpre) hne⟩
  · obtain ⟨hsub, hs⟩ := h.streamed hm hr hne
    have hctx := h.sourced.inContext fun r hr => (h.posted r hr).valid
    have hfol := (computed_ops hm hpool hctx (reach_of_withLookup h.reach)).2.2
    have hev := h.sourced.evolves hsub
    have hpre : taken.map Prod.fst <+: (p.sched.heap r).outputTokenIds := by
      rw [← hs.tokens]
      exact htaken.map Prod.fst
    have hout : (p.sched.heap r).outputTokenIds = unroll M.next (v.conn r).asked.promptTokenIds
        (p.sched.heap r).outputTokenIds.length := by
      have hout := hfol.output r
      rwa [hev.promptTokenIds] at hout
    refine ⟨?_, fun pre hp hne => ?_⟩
    · have hle := hpre.length_le
      have hlonger := unroll_prefix M.next (v.conn r).asked.promptTokenIds hle
      rw [← hout] at hlonger
      refine (List.prefix_of_prefix_length_le hpre hlonger ?_).eq_of_length ?_ <;> simp
    · have hshort : pre ≠ (p.sched.heap r).outputTokenIds := by
        rintro rfl
        exact hne (hp.eq_of_length (le_antisymm hp.length_le hpre.length_le))
      have hearly := ((h.good hm).facts r).ending.earlier pre (hp.trans hpre) hshort
      have hmax : (p.sched.heap r).maxNewTokens = (v.conn r).asked.capped := hev.maxNewTokens
      have heos : (p.sched.heap r).ignoreEos = (v.conn r).asked.ignoreEos := hev.ignoreEos
      unfold NewRequest.reason
      rw [← hmax, ← heos]
      exact hearly

/--
**What a client receives is greedy decoding of its own prompt.** In any interleaving of bodies with a
positive limit, handlers, disconnects and lines of the engine thread, whatever is batched, evicted,
recomputed and paged: the lines a connection has sent are those of the first tokens of greedy
decoding of its prompt alone, and behind all of them some of the last lines. If a stream ends with
`ok`, its text is that of the tokens, and the last line names their number and why they end there; a
connection that does not stream and ends with `ok` has sent a response that says the same.
-/
theorem http_answers {w : RunnerState κ K V} {v : Http (RunnerState κ K V)} (hm : m.Fresh)
    (hpool : w.pool.layout = m.layout)
    (hv : ReflTransGen (HttpStep encode tok (Env.ofRunner M clock) cfg) (.start cfg m w) v) :
    ∀ r < v.next, ∃ ids, ids.length = (v.conn r).handler.taken ∧
      (v.conn r).Answers M.next tok ids := by
  obtain ⟨p, hp, hserved⟩ := served_run hm hv
  intro r hr
  obtain ⟨taken, htaken, hlen, hphase⟩ := hserved r hr
  have hlt : r < p.sched.next := hp.next ▸ hr
  obtain ⟨hunrolled, hgoes⟩ := hp.unrolled hm hpool hlt htaken
  refine ⟨_, by rw [List.length_map, hlen], hphase.answers hunrolled hgoes fun hc => ?_⟩
  have hann := hp.announced hm hlt htaken hc
  rw [← hann.reason]
  exact hann.finished

/-! ## A client that reads to the end -/

theorem lines_of_stepOps (h : StepOps env cfg (fun _ _ => True) p p') :
    ReflTransGen (LineStep env cfg) { point := p } { point := p' } := by
  induction h with
  | refl => exact .refl
  | tail _ hop ih => exact ih.trans (lines_of_stepOp hop)

/-- Only the engine thread goes on. -/
theorem http_lines (v : Http σ) {t' : LineThread σ}
    (h : ReflTransGen (LineStep env cfg) v.engine t') :
    ReflTransGen (HttpStep encode tok env cfg) v { v with engine := t' } := by
  induction h with
  | refl => exact .refl
  | @tail x y _ hline ih => exact ih.tail (.engine { v with engine := x } y hline)

/-- A call of `step` is a run of lines. -/
theorem http_step {v : Http σ} (hm : m.Fresh)
    (hv : ReflTransGen (HttpStep encode tok env cfg) (.start cfg m w) v) {s s' : Scheduler σ}
    {inbox : List Ref} (he : v.engine = { point := rest s inbox })
    (hstep : s.step env cfg = .ok s') :
    ReflTransGen (HttpStep encode tok env cfg) v
      { v with engine := { point := rest s' inbox } } := by
  obtain ⟨p, hp, -⟩ := served_run hm hv
  have hpoint : p = rest s inbox := by
    rw [← hp.mid.whole_eq (by rw [he]), he]
  have hops := step_ops (hpoint ▸ (hp.good hm).placed) hstep
  exact http_lines v (by rw [he]; exact lines_of_stepOps hops)

/-- One byte a token. -/
def byteTok : Tokenizer where
  bytes t := [UInt8.ofNat (65 + t.toNat)]
  bytes_ne_nil _ := List.cons_ne_nil _ _

/-- `k` lines of the first handler. -/
def handleTimes : Nat → Http (RunnerState Nat Int Int) → Http (RunnerState Nat Int Int)
  | 0, v => v
  | k + 1, v => handleTimes k (v.handle byteTok 0)

theorem http_handleTimes : ∀ (k : Nat) (v : Http (RunnerState Nat Int Int)),
    ReflTransGen (HttpStep encode byteTok (Env.ofRunner tiny tinyClock) {}) v (handleTimes k v)
  | 0, _ => .refl
  | k + 1, v => .head (.handle v 0) (http_handleTimes k _)

/-- A streaming client asks for two tokens and the engine takes one step: the client reads to the
end, or it leaves at the last line. -/
theorem streamed_run :
    ∃ v : Http (RunnerState Nat Int Int),
      ReflTransGen (HttpStep (fun _ => []) byteTok (Env.ofRunner tiny tinyClock) {})
        (.start {} (.slot (.new 1)) (tinyWorld (.slot (.new 1)))) v ∧
      (((handleTimes 7 v).conn 0).status = .ok ∧ ((handleTimes 7 v).conn 0).lines.length = 3 ∧
        (handleTimes 7 v).next = 1 ∧ (handleTimes 7 v).obs.tokens = 2) ∧
      (handleTimes 1 ((handleTimes 5 v).disconnect 0)).obs.requests .error = 1 := by
  have hm : (Manager.slot (.new 1)).Fresh := Manager.fresh_slot_new 1
  let n : NewRequest := { requestId := "a", promptTokenIds := [1], maxNewTokens := 2, sink := some 0 }
  let v₀ : Http (RunnerState Nat Int Int) := .start {} (.slot (.new 1)) (tinyWorld (.slot (.new 1)))
  let v₁ : Http (RunnerState Nat Int Int) := { v₀.accept n true with
    engine := { point := rest ((v₀.accept n true).engine.point.sched.submit 0) [] } }
  have hstep : ∃ s : Scheduler (RunnerState Nat Int Int),
      ((v₀.accept n true).engine.point.sched.submit 0).step (Env.ofRunner tiny tinyClock) {} =
        .ok s ∧
      (let v : Http (RunnerState Nat Int Int) := { v₁ with engine := { point := rest s [] } }
      (((handleTimes 7 v).conn 0).status = .ok ∧ ((handleTimes 7 v).conn 0).lines.length = 3 ∧
        (handleTimes 7 v).next = 1 ∧ (handleTimes 7 v).obs.tokens = 2) ∧
      (handleTimes 1 ((handleTimes 5 v).disconnect 0)).obs.requests .error = 1) := by
    decide +kernel
  obtain ⟨s, hs, hread⟩ := hstep
  have haccept : ReflTransGen (HttpStep (fun _ => []) byteTok (Env.ofRunner tiny tinyClock) {})
      v₀ (v₀.accept n true) :=
    .single (.accept v₀ { promptTokenIds := some [1], maxNewTokens := 2, stream := true } "a" 0 n
      (by decide) (by decide))
  have hsubmit : ReflTransGen (HttpStep (fun _ => []) byteTok (Env.ofRunner tiny tinyClock) {})
      v₀ v₁ :=
    haccept.tail (.engine _ _ (.submit _ [] [] 0 ⟨rfl, rfl, rfl⟩ rfl))
  exact ⟨_, hsubmit.trans (http_step hm hsubmit rfl hs), hread⟩

theorem http_answers_streamed :
    ∃ v : Http (RunnerState Nat Int Int),
      ReflTransGen (HttpStep (fun _ => []) byteTok (Env.ofRunner tiny tinyClock) {})
        (.start {} (.slot (.new 1)) (tinyWorld (.slot (.new 1)))) v ∧
      (v.conn 0).status = .ok ∧ (v.conn 0).lines.length = 3 ∧
      ∃ ids, ids.length = (v.conn 0).handler.taken ∧
        (v.conn 0).Answers tiny.next byteTok ids := by
  obtain ⟨v, hv, ⟨hok, hlines, hnext, -⟩, -⟩ := streamed_run
  have hread := hv.trans (http_handleTimes 7 v)
  have hlt : 0 < (handleTimes 7 v).next := by
    rw [hnext]
    exact Nat.one_pos
  exact ⟨_, hread, hok, hlines, http_answers (Manager.fresh_slot_new 1) rfl hread 0 hlt⟩

end LlmServe
