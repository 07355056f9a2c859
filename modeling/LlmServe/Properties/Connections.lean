import LlmServe.Engine.Connection
import LlmServe.Properties.Lifecycle
import LlmServe.Properties.ResponseLines

/-!
# What a connection has sent

`Connection.Phase` says for each place a handler can be in what it has sent so far, as a function of
the events it took. A line of the handler leads from one phase to another (`Phase.advance`), as long
as a complete sequence of events comes with a request that has ended as they say (`Announced`).
-/

namespace LlmServe

open Infra IncrementalDetokenizer

variable {tok : Tokenizer} {c : Connection} {q : Request} {events taken : List SinkEvent}
  {ids : List Token} {t : Token}

/-! ## Lines and text -/

/-- The lines for these tokens. -/
def tokenLines (tok : Tokenizer) (ids : List Token) : List JsonObject :=
  List.zipWith tokenLine ids (pieces tok ids)

theorem detok_snoc : ∀ (ids : List Token) (t : Token) (d : IncrementalDetokenizer),
    (pushAll tok d (ids ++ [t])).2 = ((pushAll tok d ids).2.push tok t).2
  | [], _, _ => rfl
  | s :: ids, t, d => detok_snoc ids t (d.push tok s).2

theorem pieces_snoc (ids : List Token) (t : Token) :
    pieces tok (ids ++ [t]) = pieces tok ids ++ [((pushAll tok {} ids).2.push tok t).1] :=
  pushAll_snoc ids t {}

theorem tokenLines_snoc (ids : List Token) (t : Token) :
    tokenLines tok (ids ++ [t]) =
      tokenLines tok ids ++ [tokenLine t ((pushAll tok {} ids).2.push tok t).1] := by
  unfold tokenLines
  rw [pieces_snoc, List.zipWith_append (length_pieces tok ids).symm]
  rfl

theorem ndjson_eq (hc : Complete taken) (reason : Option FinishReason) :
    ndjson tok reason taken = tokenLines tok (taken.map Prod.fst)
      ++ tailLines (tail tok (taken.map Prod.fst)) ++ [doneLine reason taken.length] :=
  ndjson_complete hc reason

theorem Complete.of_open (hopen : ∀ e ∈ taken, e.2 = false) (t : Token) :
    Complete (taken ++ [(t, true)]) := by
  refine ⟨taken.map Prod.fst, t, ?_⟩
  have hflags : taken.map ((fun t => (t, false)) ∘ Prod.fst) = taken.map id :=
    List.map_congr_left fun e he => Prod.ext rfl (hopen e he).symm
  rw [List.map_map, hflags, List.map_id]

/-! ## One line -/

namespace Connection

/-- The handler is at `pc`, on the same response and behind the same number of events. -/
structure At (c : Connection) (pc : HandlerPc) (taken : Nat) (h : Handler) : Prop where
  stream : h.stream = c.handler.stream
  taken : h.taken = taken
  pc : h.pc = pc

theorem advance_waits (hpc : c.handler.pc = .reading) (hgen : c.generator = .running)
    (he : events[c.handler.taken]? = none) : c.advance tok q events = (c, false, none) := by
  simp [advance, hpc, hgen, he]

theorem advance_event {fin : Bool} (hpc : c.handler.pc = .reading) (hgen : c.generator = .running)
    (he : events[c.handler.taken]? = some (t, fin)) : ∃ h,
      c.At (if fin then (if c.handler.stream then .doneLine else .closing true) else .reading)
        (c.handler.taken + 1) h ∧
      c.advance tok q events = ({ c.take tok t fin with handler := h }, false, none) := by
  refine ⟨(c.handler.advance q events).1, ⟨?_, ?_, ?_⟩, ?_⟩ <;> cases fin <;>
    simp [advance, Handler.advance, hpc, hgen, he]

/-- Behind the `yield` of a token. -/
theorem advance_resumes (hpc : c.handler.pc = .reading) (hgen : c.generator ≠ .running) :
    c.advance tok q events = ({ c with generator := .running }, false, none) := by
  unfold advance
  rw [hpc]
  cases h : c.generator <;> simp_all

/-- The text held back goes out before the last line, if there is any. -/
theorem advance_flush (hpc : c.handler.pc = .doneLine) (hgen : c.generator = .line)
    (htail : (c.detok.flush tok).1 ≠ []) :
    c.advance tok q events = ({ c with
      detok := (c.detok.flush tok).2
      lines := c.lines ++ [tailLine (c.detok.flush tok).1]
      generator := .tail }, false, none) := by
  simp [advance, hpc, hgen, htail]

theorem advance_doneLine (hpc : c.handler.pc = .doneLine)
    (hgen : c.generator = .tail ∨ c.generator = .line ∧ (c.detok.flush tok).1 = []) : ∃ h detok,
    c.At (.closing true) c.handler.taken h ∧
    c.advance tok q events = ({ c with
      handler := h
      generator := .line
      detok
      lines := c.lines ++ [doneLine q.finishReason c.handler.taken] }, false, none) := by
  rcases hgen with hgen | ⟨hgen, htail⟩
  · refine ⟨(c.handler.advance q events).1, c.detok, ⟨?_, ?_, ?_⟩, ?_⟩ <;>
      simp [advance, yieldDone, Handler.advance, hpc, hgen]
  · refine ⟨(c.handler.advance q events).1, (c.detok.flush tok).2, ⟨?_, ?_, ?_⟩, ?_⟩ <;>
      simp [advance, yieldDone, Handler.advance, hpc, hgen, htail]

/-- Behind the `yield` of the last line. -/
theorem advance_sent {final : Bool} (hpc : c.handler.pc = .closing final)
    (hgen : c.generator = .line) :
    c.advance tok q events = ({ c with status := .ok, generator := .running }, false, none) := by
  simp [advance, hpc, hgen]

/-- `finally`. -/
theorem advance_closing {final : Bool} (hpc : c.handler.pc = .closing final)
    (hgen : c.generator = .running) : ∃ h,
    c.At (if final && !c.handler.stream then .response else .closed) c.handler.taken h ∧
    c.advance tok q events =
      ({ c with handler := h, status := if q.finished then c.status else .cancelled }, !q.finished,
        some (if q.finished then c.status else .cancelled)) := by
  refine ⟨(c.handler.advance q events).1, ⟨?_, ?_, ?_⟩, ?_⟩ <;> cases hfin : q.finished <;>
    simp [advance, Handler.advance, hpc, hgen, hfin]

theorem advance_response (hpc : c.handler.pc = .response) (hgen : c.generator = .running) : ∃ h,
    c.At .closed c.handler.taken h ∧
    c.advance tok q events = ({ c.respond tok q with handler := h }, false, none) := by
  refine ⟨(c.handler.advance q events).1, ⟨?_, ?_, ?_⟩, ?_⟩ <;>
    simp [advance, Handler.advance, hpc, hgen]

theorem advance_closed (hpc : c.handler.pc = .closed) :
    c.advance tok q events = (c, false, none) := by
  simp [advance, hpc]

end Connection

/-! ## Phases -/

/-- Why greedy decoding of a request stops at these tokens, if it does. -/
def NewRequest.reason (n : NewRequest) (ids : List Token) : Option FinishReason :=
  Request.endReason n.capped n.ignoreEos ids

/-- The request has ended, with these tokens. -/
structure NewRequest.Announced (n : NewRequest) (ids : List Token) (q : Request) : Prop where
  prompt : q.promptTokenIds = n.promptTokenIds
  tokens : q.outputTokenIds = ids
  reason : q.finishReason = n.reason ids
  finished : q.finishReason ≠ none
  firstTokenTime : q.firstTokenTime ≠ none
  finishTime : q.finishTime ≠ none

/-- What the response in one piece says. -/
structure GenerateOut.Of (tok : Tokenizer) (n : NewRequest) (ids : List Token) (o : GenerateOut) :
    Prop where
  requestId : o.requestId = n.requestId
  tokenIds : o.tokenIds = ids
  text : o.text = tok.decode ids
  finishReason : o.finishReason = n.reason ids

namespace Connection

/-- Nothing but the tokens has been sent. -/
structure Open (tok : Tokenizer) (taken : List SinkEvent) (c : Connection) : Prop where
  unfinished : ∀ e ∈ taken, e.2 = false
  lines : c.lines = if c.handler.stream then tokenLines tok (taken.map Prod.fst) else []
  out : c.out = none

/-- All tokens have been sent, and no response in one piece. -/
structure Whole (taken : List SinkEvent) (c : Connection) : Prop where
  stream : c.handler.stream = true
  complete : Complete taken
  out : c.out = none

/-- A handler that took these events, place by place. -/
inductive Phase (tok : Tokenizer) (taken : List SinkEvent) (c : Connection) : Prop
  | reading (hpc : c.handler.pc = .reading) (hopen : c.Open tok taken) (hstatus : c.status = .error)
      (hgen : c.handler.stream = false → c.generator = .running)
      (hdetok : c.detok = (pushAll tok {} (taken.map Prod.fst)).2)
      (htext : c.handler.stream = false → c.text = (pieces tok (taken.map Prod.fst)).flatten)
  /-- Its client left before the stream was started. -/
  | dropped (hpc : c.handler.pc = .closed) (hgen : c.generator = .unstarted)
      (hopen : c.Open tok taken) (hstatus : c.status = .error) (hstream : c.handler.stream = true)
  /-- Its client left before the end: at an `await`, or else at a `yield`. -/
  | left (hpc : c.handler.pc = .closing false ∨ c.handler.pc = .closed) (hgen : c.generator = .running)
      (hopen : c.Open tok taken)
      (hstatus : c.status = .cancelled ∨ c.status = .error ∧ c.handler.stream = true)
  /-- Behind the final event. -/
  | ended (hpc : c.handler.pc = .doneLine) (hgen : c.generator = .line) (hwhole : c.Whole taken)
      (hstatus : c.status = .error) (hlines : c.lines = tokenLines tok (taken.map Prod.fst))
      (hdetok : c.detok = (pushAll tok {} (taken.map Prod.fst)).2)
  /-- Behind the text held back. -/
  | flushed (hpc : c.handler.pc = .doneLine) (hgen : c.generator = .tail) (hwhole : c.Whole taken)
      (hstatus : c.status = .error)
      (hlines : c.lines = tokenLines tok (taken.map Prod.fst)
        ++ tailLines (tail tok (taken.map Prod.fst)))
  /-- Its client left at the `yield` of one of the last lines. -/
  | late (hpc : c.handler.pc = .closing true ∨ c.handler.pc = .closed)
      (hgen : c.generator = .running) (hwhole : c.Whole taken) (hstatus : c.status = .error)
      (rest : List JsonObject) (hlines : c.lines = tokenLines tok (taken.map Prod.fst) ++ rest)
      (hrest : rest <+: tailLines (tail tok (taken.map Prod.fst))
        ++ [doneLine (c.asked.reason (taken.map Prod.fst)) taken.length])
  /-- At the `yield` of the last line. -/
  | done (hpc : c.handler.pc = .closing true) (hgen : c.generator = .line) (hwhole : c.Whole taken)
      (hstatus : c.status = .error)
      (hlines : c.lines = ndjson tok (c.asked.reason (taken.map Prod.fst)) taken)
  /-- The whole stream has been sent. -/
  | streamed (hpc : c.handler.pc = .closing true ∨ c.handler.pc = .closed)
      (hgen : c.generator = .running) (hwhole : c.Whole taken) (hstatus : c.status = .ok)
      (hlines : c.lines = ndjson tok (c.asked.reason (taken.map Prod.fst)) taken)
  /-- The whole text has been collected. -/
  | collected (hpc : c.handler.pc = .closing true ∨ c.handler.pc = .response)
      (hgen : c.generator = .running) (hstream : c.handler.stream = false) (hc : Complete taken)
      (hout : c.out = none) (hstatus : c.status = .ok) (hlines : c.lines = [])
      (hdetok : c.detok = (pushAll tok {} (taken.map Prod.fst)).2)
      (htext : c.text = (pieces tok (taken.map Prod.fst)).flatten)
  | responded (hpc : c.handler.pc = .closed) (hgen : c.generator = .running)
      (hstream : c.handler.stream = false) (hc : Complete taken) (hstatus : c.status = .ok)
      (hlines : c.lines = []) (o : GenerateOut) (hout : c.out = some o)
      (ho : o.Of tok c.asked (taken.map Prod.fst))

namespace Phase

/-- A connection that starts. -/
theorem opened (tok : Tokenizer) (n : NewRequest) (stream : Bool) :
    Phase tok [] (.opened n stream) := by
  refine .reading rfl ⟨nofun, ?_, rfl⟩ rfl ?_ rfl fun _ => rfl
  · cases stream <;> rfl
  · rintro rfl
    rfl

/-- It takes an event. -/
theorem take (hopen : c.Open tok taken) (hstatus : c.status = .error)
    (hgen : c.generator = .running)
    (hdetok : c.detok = (pushAll tok {} (taken.map Prod.fst)).2)
    (htext : c.handler.stream = false → c.text = (pieces tok (taken.map Prod.fst)).flatten)
    (t : Token) (fin : Bool) {h : Handler} (hstream : h.stream = c.handler.stream)
    (hpc : h.pc = if fin then (if c.handler.stream then .doneLine else .closing true)
      else .reading) :
    Phase tok (taken ++ [(t, fin)]) { c.take tok t fin with handler := h } := by
  have hids : (taken ++ [(t, fin)]).map Prod.fst = taken.map Prod.fst ++ [t] := by simp
  have hpush : (c.detok.push tok t).2 = (pushAll tok {} (taken.map Prod.fst ++ [t])).2 := by
    rw [detok_snoc, hdetok]
  have hpiece : pieces tok (taken.map Prod.fst ++ [t]) =
      pieces tok (taken.map Prod.fst) ++ [(c.detok.push tok t).1] := by
    rw [pieces_snoc, hdetok]
  have hline : tokenLines tok (taken.map Prod.fst ++ [t]) =
      tokenLines tok (taken.map Prod.fst) ++ [tokenLine t (c.detok.push tok t).1] := by
    rw [tokenLines_snoc, hdetok]
  have hopen' : ∀ e ∈ taken ++ [(t, false)], e.2 = false := by
    intro e he
    rcases List.mem_append.mp he with he | he
    · exact hopen.unfinished e he
    · rw [List.mem_singleton.mp he]
  have hlines := hopen.lines
  unfold Connection.take
  cases hs : c.handler.stream with
  | true =>
    rw [hs] at hstream hpc hlines
    have hlines' : c.lines ++ [tokenLine t (c.detok.push tok t).1] =
        tokenLines tok ((taken ++ [(t, fin)]).map Prod.fst) := by
      rw [hids, hline, hlines]
      rfl
    cases fin with
    | true =>
      exact .ended hpc rfl ⟨hstream, .of_open hopen.unfinished t, hopen.out⟩ hstatus hlines'
        (hids ▸ hpush)
    | false =>
      refine .reading hpc ⟨hopen', hlines'.trans (if_pos hstream).symm, hopen.out⟩ hstatus ?_
        (hids ▸ hpush) ?_
      · intro hno
        cases hstream.symm.trans hno
      · intro hno
        cases hstream.symm.trans hno
  | false =>
    rw [hs] at hstream hpc hlines
    have htext := htext hs
    have hall : c.text ++ (c.detok.push tok t).1 =
        (pieces tok ((taken ++ [(t, fin)]).map Prod.fst)).flatten := by
      rw [hids, hpiece, htext]
      simp
    cases fin with
    | true =>
      exact .collected (Or.inl hpc) hgen hstream (.of_open hopen.unfinished t) hopen.out rfl hlines
        (hids ▸ hpush) hall
    | false =>
      refine .reading hpc ⟨hopen', ?_, hopen.out⟩ hstatus (fun _ => hgen) (hids ▸ hpush)
        fun _ => hall
      show c.lines = if h.stream then _ else _
      rw [hlines, hstream]
      rfl

/-- **A line of a handler.** -/
theorem advance (h : c.Phase tok taken) (htaken : taken <+: events)
    (hlen : taken.length = c.handler.taken)
    (hq : Complete taken → c.asked.Announced (taken.map Prod.fst) q) :
    ∃ taken', taken' <+: events ∧ taken'.length = (c.advance tok q events).1.handler.taken ∧
      (c.advance tok q events).1.Phase tok taken' := by
  have hfinished : Complete taken → q.finished = true := fun hc =>
    Request.finished_iff.mpr (hq hc).finished
  cases h with
  | reading hpc hopen hstatus hgen hdetok htext =>
    by_cases hrun : c.generator = .running
    · cases he : events[c.handler.taken]? with
      | none =>
        rw [advance_waits hpc hrun he]
        exact ⟨taken, htaken, hlen, .reading hpc hopen hstatus hgen hdetok htext⟩
      | some e =>
        obtain ⟨t, fin⟩ := e
        obtain ⟨h, hat, heq⟩ := @advance_event tok c q _ _ fin hpc hrun he
        have htaken' : taken ++ [(t, fin)] <+: events := by
          obtain ⟨rest, rfl⟩ := htaken
          rw [← hlen, List.getElem?_append_right le_rfl, Nat.sub_self] at he
          cases rest with
          | nil => cases he
          | cons x rest =>
            cases he
            exact ⟨rest, by simp⟩
        rw [heq]
        refine ⟨_, htaken', ?_, .take hopen hstatus hrun hdetok htext t fin hat.stream hat.pc⟩
        rw [hat.taken, ← hlen, List.length_append, List.length_singleton]
    · -- the generator starts, or its last line has gone out
      rw [advance_resumes hpc hrun]
      exact ⟨taken, htaken, hlen,
        .reading hpc ⟨hopen.unfinished, hopen.lines, hopen.out⟩ hstatus (fun _ => rfl) hdetok htext⟩
  | dropped hpc hgen hopen hstatus hstream =>
    rw [advance_closed hpc]
    exact ⟨taken, htaken, hlen, .dropped hpc hgen hopen hstatus hstream⟩
  | left hpc hgen hopen hstatus =>
    rcases hpc with hpc | hpc
    · obtain ⟨h, hat, heq⟩ := @advance_closing tok c q events _ hpc hgen
      rw [heq]
      refine ⟨taken, htaken, hlen.trans hat.taken.symm, .left (Or.inr hat.pc) hgen
        ⟨hopen.unfinished, ?_, hopen.out⟩ ?_⟩
      · rw [hat.stream]
        exact hopen.lines
      · rw [hat.stream]
        dsimp only
        split
        · exact hstatus
        · exact Or.inl rfl
    · rw [advance_closed hpc]
      exact ⟨taken, htaken, hlen, .left (Or.inr hpc) hgen hopen hstatus⟩
  | ended hpc hgen hwhole hstatus hlines hdetok =>
    have htail : (c.detok.flush tok).1 = tail tok (taken.map Prod.fst) := by
      rw [hdetok]
      rfl
    by_cases hnil : tail tok (taken.map Prod.fst) = []
    · obtain ⟨h, detok, hat, heq⟩ :=
        @advance_doneLine tok c q events hpc (Or.inr ⟨hgen, htail.trans hnil⟩)
      rw [heq]
      refine ⟨taken, htaken, hlen.trans hat.taken.symm, .done hat.pc rfl
        ⟨hat.stream.trans hwhole.stream, hwhole.complete, hwhole.out⟩ hstatus ?_⟩
      rw [ndjson_eq hwhole.complete, (hq hwhole.complete).reason, hlen, hlines, hnil]
      simp [tailLines]
    · rw [advance_flush hpc hgen (htail ▸ hnil)]
      refine ⟨taken, htaken, hlen, .flushed hpc rfl
        ⟨hwhole.stream, hwhole.complete, hwhole.out⟩ hstatus ?_⟩
      rw [htail, hlines]
      simp [tailLines, hnil]
  | flushed hpc hgen hwhole hstatus hlines =>
    obtain ⟨h, detok, hat, heq⟩ := @advance_doneLine tok c q events hpc (Or.inl hgen)
    rw [heq]
    refine ⟨taken, htaken, hlen.trans hat.taken.symm, .done hat.pc rfl
      ⟨hat.stream.trans hwhole.stream, hwhole.complete, hwhole.out⟩ hstatus ?_⟩
    rw [ndjson_eq hwhole.complete, (hq hwhole.complete).reason, hlen, hlines]
  | late hpc hgen hwhole hstatus rest hlines hrest =>
    rcases hpc with hpc | hpc
    · obtain ⟨h, hat, heq⟩ := @advance_closing tok c q events _ hpc hgen
      rw [heq, hfinished hwhole.complete]
      refine ⟨taken, htaken, hlen.trans hat.taken.symm, .late (Or.inr ?_) hgen
        ⟨hat.stream.trans hwhole.stream, hwhole.complete, hwhole.out⟩ hstatus rest hlines hrest⟩
      rw [hat.pc, hwhole.stream]
      rfl
    · rw [advance_closed hpc]
      exact ⟨taken, htaken, hlen, .late (Or.inr hpc) hgen hwhole hstatus rest hlines hrest⟩
  | done hpc hgen hwhole hstatus hlines =>
    rw [advance_sent hpc hgen]
    exact ⟨taken, htaken, hlen,
      .streamed (Or.inl hpc) rfl ⟨hwhole.stream, hwhole.complete, hwhole.out⟩ rfl hlines⟩
  | streamed hpc hgen hwhole hstatus hlines =>
    rcases hpc with hpc | hpc
    · obtain ⟨h, hat, heq⟩ := @advance_closing tok c q events _ hpc hgen
      rw [heq, hfinished hwhole.complete]
      refine ⟨taken, htaken, hlen.trans hat.taken.symm, .streamed (Or.inr ?_) hgen
        ⟨hat.stream.trans hwhole.stream, hwhole.complete, hwhole.out⟩ hstatus hlines⟩
      rw [hat.pc, hwhole.stream]
      rfl
    · rw [advance_closed hpc]
      exact ⟨taken, htaken, hlen, .streamed (Or.inr hpc) hgen hwhole hstatus hlines⟩
  | collected hpc hgen hstream hc hout hstatus hlines hdetok htext =>
    rcases hpc with hpc | hpc
    · obtain ⟨h, hat, heq⟩ := @advance_closing tok c q events _ hpc hgen
      rw [heq, hfinished hc]
      refine ⟨taken, htaken, hlen.trans hat.taken.symm, .collected (Or.inr ?_) hgen
        (hat.stream.trans hstream) hc hout hstatus hlines hdetok htext⟩
      rw [hat.pc, hstream]
      rfl
    · obtain ⟨h, hat, heq⟩ := @advance_response tok c q events hpc hgen
      have hann := hq hc
      obtain ⟨first, hfirst⟩ := Option.ne_none_iff_exists'.mp hann.firstTokenTime
      obtain ⟨finish, hfinish⟩ := Option.ne_none_iff_exists'.mp hann.finishTime
      rw [heq]
      unfold Connection.respond
      rw [hfirst, hfinish]
      refine ⟨taken, htaken, hlen.trans hat.taken.symm, .responded hat.pc hgen
        (hat.stream.trans hstream) hc hstatus hlines _ rfl ⟨rfl, hann.tokens, ?_, hann.reason⟩⟩
      show c.text ++ (c.detok.flush tok).1 = _
      rw [htext, hdetok]
      exact pieces_tail tok _
  | responded hpc hgen hstream hc hstatus hlines o hout ho =>
    rw [advance_closed hpc]
    exact ⟨taken, htaken, hlen, .responded hpc hgen hstream hc hstatus hlines o hout ho⟩

/-- **A client leaves.** -/
theorem disconnect (h : c.Phase tok taken) : c.disconnect.Phase tok taken := by
  have hdone : c.handler.pc = .response ∨ c.handler.pc = .closed → c.disconnect = c := by
    rintro (hpc | hpc) <;> simp [Connection.disconnect, hpc]
  have hclosing : ∀ {final}, c.handler.pc = .closing final → c.generator = .running →
      c.disconnect = c := by
    intro final hpc hgen
    simp [Connection.disconnect, hpc, hgen]
  cases h with
  | reading hpc hopen hstatus hgen hdetok htext =>
    have hstream : c.generator ≠ .running → c.handler.stream = true := fun hne =>
      Bool.not_eq_false _ ▸ fun hno => hne (hgen hno)
    cases hg : c.generator with
    | unstarted =>
      simp only [Connection.disconnect, hpc, hg]
      exact .dropped rfl rfl ⟨hopen.unfinished, hopen.lines, hopen.out⟩ hstatus
        (hstream (by simp [hg]))
    | running =>
      simp only [Connection.disconnect, Handler.disconnect, hpc, hg]
      exact .left (Or.inl rfl) rfl ⟨hopen.unfinished, hopen.lines, hopen.out⟩ (Or.inl rfl)
    | line =>
      simp only [Connection.disconnect, Handler.disconnect, hpc, hg]
      exact .left (Or.inl rfl) rfl ⟨hopen.unfinished, hopen.lines, hopen.out⟩
        (Or.inr ⟨hstatus, hstream (by simp [hg])⟩)
    | tail =>
      simp only [Connection.disconnect, Handler.disconnect, hpc, hg]
      exact .left (Or.inl rfl) rfl ⟨hopen.unfinished, hopen.lines, hopen.out⟩
        (Or.inr ⟨hstatus, hstream (by simp [hg])⟩)
  | dropped hpc hgen hopen hstatus hstream =>
    rw [hdone (Or.inr hpc)]
    exact .dropped hpc hgen hopen hstatus hstream
  | left hpc hgen hopen hstatus =>
    rcases hpc with hpc | hpc
    · rw [hclosing hpc hgen]
      exact .left (Or.inl hpc) hgen hopen hstatus
    · rw [hdone (Or.inr hpc)]
      exact .left (Or.inr hpc) hgen hopen hstatus
  | ended hpc hgen hwhole hstatus hlines hdetok =>
    simp only [Connection.disconnect, Handler.disconnect, hpc, hgen]
    exact .late (Or.inl rfl) rfl ⟨hwhole.stream, hwhole.complete, hwhole.out⟩ hstatus []
      (hlines.trans (List.append_nil _).symm) List.nil_prefix
  | flushed hpc hgen hwhole hstatus hlines =>
    simp only [Connection.disconnect, Handler.disconnect, hpc, hgen]
    exact .late (Or.inl rfl) rfl ⟨hwhole.stream, hwhole.complete, hwhole.out⟩ hstatus _ hlines
      (List.prefix_append _ _)
  | late hpc hgen hwhole hstatus rest hlines hrest =>
    rcases hpc with hpc | hpc
    · rw [hclosing hpc hgen]
      exact .late (Or.inl hpc) hgen hwhole hstatus rest hlines hrest
    · rw [hdone (Or.inr hpc)]
      exact .late (Or.inr hpc) hgen hwhole hstatus rest hlines hrest
  | done hpc hgen hwhole hstatus hlines =>
    simp only [Connection.disconnect, Handler.disconnect, hpc, hgen]
    refine .late (Or.inl hpc) rfl ⟨hwhole.stream, hwhole.complete, hwhole.out⟩ hstatus _ ?_
      (List.prefix_refl _)
    rw [← List.append_assoc]
    exact hlines.trans (ndjson_eq hwhole.complete _)
  | streamed hpc hgen hwhole hstatus hlines =>
    rcases hpc with hpc | hpc
    · rw [hclosing hpc hgen]
      exact .streamed (Or.inl hpc) hgen hwhole hstatus hlines
    · rw [hdone (Or.inr hpc)]
      exact .streamed (Or.inr hpc) hgen hwhole hstatus hlines
  | collected hpc hgen hstream hc hout hstatus hlines hdetok htext =>
    rcases hpc with hpc | hpc
    · rw [hclosing hpc hgen]
      exact .collected (Or.inl hpc) hgen hstream hc hout hstatus hlines hdetok htext
    · rw [hdone (Or.inl hpc)]
      exact .collected (Or.inr hpc) hgen hstream hc hout hstatus hlines hdetok htext
  | responded hpc hgen hstream hc hstatus hlines o hout ho =>
    rw [hdone (Or.inr hpc)]
    exact .responded hpc hgen hstream hc hstatus hlines o hout ho

end Phase

end Connection

end LlmServe
