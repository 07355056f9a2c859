import LlmServe.Properties.CutStream
import LlmServe.Properties.LineLength
import LlmServe.Properties.Planned
import LlmServe.Theorems.HttpAnswers

/-!
# What a load test counts

The whole way of one request of the load generator: it is planned, its body is read and let in, the
engine serves it among all the others, its stream is cut off somewhere or not, and the reader counts
what arrives. An answer that is reported `ok` has exactly as many tokens as were planned
(`load_test_counted`).
-/

namespace LlmServe

open Infra Point Relation Bench

variable {σ : Type} {encode : Text → List Token} {tok : Tokenizer} {env : Env σ}
  {cfg : EngineConfig} {m : Manager} {w : σ} {v v' : Http σ} {p : Point σ} {r : Ref}
  {taken : List SinkEvent} {c : Connection} {ids : List Token}

/-! ## What stays with a connection -/

/-- A connection keeps what it asked for, and how it is answered. -/
theorem kept_step (hstep : HttpStep encode tok env cfg v v') (hr : r < v.next) :
    (v'.conn r).asked = (v.conn r).asked ∧
      (v'.conn r).handler.stream = (v.conn r).handler.stream ∧ r < v'.next := by
  cases hstep with
  | engine t hline =>
    refine ⟨rfl, rfl, ?_⟩
    rwa [Http.next, lineStep_next hline]
  | accept body rid now n hn hmax =>
    have hne : r ≠ v.next := Nat.ne_of_lt hr
    have hconn : (v.accept n body.stream).conn r = v.conn r := Function.update_of_ne hne ..
    rw [hconn]
    exact ⟨rfl, rfl, Nat.lt_succ_of_lt hr⟩
  | reject body rid now n hn => exact ⟨rfl, rfl, hr⟩
  | tooLarge body rid now e he h413 => exact ⟨rfl, rfl, hr⟩
  | handle x =>
    refine ⟨asked_update (Connection.advance_asked ..) r, ?_, http_handle_next v x ▸ hr⟩
    by_cases hrx : r = x
    · subst hrx
      have hconn : (v.handle tok r).conn r =
          ((v.conn r).advance tok (v.request r) (v.events r)).1 := Function.update_self ..
      rw [hconn]
      exact Connection.advance_stream ..
    · have hconn : (v.handle tok x).conn r = v.conn r := Function.update_of_ne hrx ..
      rw [hconn]
  | disconnect x =>
    refine ⟨asked_update (Connection.disconnect_asked _) r, ?_, hr⟩
    by_cases hrx : r = x
    · subst hrx
      simp only [Http.disconnect, Function.update_self]
      exact Connection.disconnect_stream _
    · simp only [Http.disconnect, Function.update_of_ne hrx]

theorem kept_run (hv : ReflTransGen (HttpStep encode tok env cfg) v v') (hr : r < v.next) :
    (v'.conn r).asked = (v.conn r).asked ∧
      (v'.conn r).handler.stream = (v.conn r).handler.stream ∧ r < v'.next := by
  induction hv with
  | refl => exact ⟨rfl, rfl, hr⟩
  | tail _ hstep ih =>
    obtain ⟨hasked, hstream, hlt⟩ := ih
    obtain ⟨hasked', hstream', hlt'⟩ := kept_step hstep hlt
    exact ⟨hasked'.trans hasked, hstream'.trans hstream, hlt'⟩

/-! ## What a stream has sent -/

/-- The lines of a streaming connection, at any moment: those of the tokens it took, and nothing
else, or the beginning of a whole response. -/
inductive Connection.Sent (tok : Tokenizer) (taken : List SinkEvent) (c : Connection) : Prop
  | tokens (hopen : ∀ e ∈ taken, e.2 = false)
      (hlines : c.lines = tokenLines tok (taken.map Prod.fst)) (hstatus : c.status ≠ .ok)
  | response (hc : Complete taken) (reason : Option FinishReason)
      (hlines : c.lines <+: ndjson tok reason taken)
      (hall : c.status = .ok → c.lines = ndjson tok reason taken)

theorem Connection.Phase.sent (h : c.Phase tok taken) (hstream : c.handler.stream = true) :
    c.Sent tok taken := by
  have hopen : c.Open tok taken → c.status ≠ .ok → c.Sent tok taken := by
    intro ho hs
    refine .tokens ho.unfinished ?_ hs
    rw [ho.lines, hstream]
    rfl
  -- a part of what is sent in the end
  have hpart : c.Whole taken → ∀ rest, c.lines = tokenLines tok (taken.map Prod.fst) ++ rest →
      rest <+: tailLines (tail tok (taken.map Prod.fst))
        ++ [doneLine (c.asked.reason (taken.map Prod.fst)) taken.length] →
      c.status ≠ .ok → c.Sent tok taken := by
    intro hwhole rest hlines hrest hs
    refine .response hwhole.complete (c.asked.reason (taken.map Prod.fst)) ?_ fun hok =>
      absurd hok hs
    rw [hlines, ndjson_eq hwhole.complete, List.append_assoc]
    exact (List.prefix_append_right_inj _).mpr hrest
  cases h with
  | reading hpc ho hstatus => exact hopen ho (by simp [hstatus])
  | dropped hpc hgen ho hstatus => exact hopen ho (by simp [hstatus])
  | left hpc hgen ho hstatus => exact hopen ho (by rcases hstatus with h | ⟨h, -⟩ <;> simp [h])
  | ended hpc hgen hwhole hstatus hlines =>
    exact hpart hwhole [] (hlines.trans (List.append_nil _).symm) List.nil_prefix (by simp [hstatus])
  | flushed hpc hgen hwhole hstatus hlines =>
    exact hpart hwhole _ hlines (List.prefix_append _ _) (by simp [hstatus])
  | late hpc hgen hwhole hstatus rest hlines hrest =>
    exact hpart hwhole _ hlines hrest (by simp [hstatus])
  | done hpc hgen hwhole hstatus hlines =>
    exact .response hwhole.complete _ (hlines ▸ List.prefix_refl _) fun _ => hlines
  | streamed hpc hgen hwhole hstatus hlines =>
    exact .response hwhole.complete _ (hlines ▸ List.prefix_refl _) fun _ => hlines
  | collected _ _ hs | responded _ _ hs => cases hs.symm.trans hstream

/-! ## How many tokens that are -/

/-- A request that has not ended is under its limit. -/
theorem length_of_reason_none {n : NewRequest} (hcap : 1 ≤ n.capped) (h : n.reason ids = none) :
    (ids.length : Int) < n.capped := by
  rcases List.eq_nil_or_concat ids with rfl | ⟨init, t, rfl⟩
  · exact hcap
  · rw [List.concat_eq_append] at h ⊢
    unfold NewRequest.reason at h
    rw [Request.endReason_snoc] at h
    split at h
    · cases h
    · next hno =>
      rw [List.length_append, List.length_singleton]
      push_cast
      omega

/-- A request that ignores the end-of-text token ends at its limit and not before. -/
theorem length_of_goes {n : NewRequest} (heos : n.ignoreEos = true) (hcap : 1 ≤ n.capped)
    (hgoes : ∀ pre, pre <+: ids → pre ≠ ids → n.reason pre = none) :
    (ids.length : Int) ≤ n.capped ∧ (n.reason ids ≠ none → (ids.length : Int) = n.capped) := by
  rcases List.eq_nil_or_concat ids with rfl | ⟨init, t, rfl⟩
  · refine ⟨by simpa using Int.le_of_lt hcap, fun hne => absurd rfl hne⟩
  · rw [List.concat_eq_append] at hgoes ⊢
    have hinit := hgoes init (List.prefix_append _ _) (by simp)
    have hlt := length_of_reason_none hcap hinit
    have hlen : ((init ++ [t]).length : Int) = init.length + 1 := by simp
    refine ⟨by omega, fun hne => ?_⟩
    by_contra hshort
    refine hne ?_
    unfold NewRequest.reason
    rw [Request.endReason_snoc, if_neg (by omega), heos]
    simp

/-- Where no event was the last, nothing has ended. -/
theorem Rooted.reason_open (hm : m.Fresh) (h : Rooted env cfg m w v p) (hr : r < p.sched.next)
    (htaken : taken <+: v.events r) (hopen : ∀ e ∈ taken, e.2 = false) :
    (v.conn r).asked.reason (taken.map Prod.fst) = none := by
  rcases List.eq_nil_or_concat taken with rfl | ⟨init, e, rfl⟩
  · rfl
  · rw [List.concat_eq_append] at htaken hopen ⊢
    rw [h.events] at htaken
    have hne : calls r p.sched.trace ≠ [] := by
      intro hnil
      rw [hnil] at htaken
      simpa using List.prefix_nil.mp htaken
    obtain ⟨hsub, hs⟩ := h.streamed hm hr hne
    have hev := h.sourced.evolves hsub
    have hmax : (p.sched.heap r).maxNewTokens = (v.conn r).asked.capped := hev.maxNewTokens
    have heos : (p.sched.heap r).ignoreEos = (v.conn r).asked.ignoreEos := hev.ignoreEos
    by_cases hall : init ++ [e] = calls r p.sched.trace
    · -- the last event says whether the request has ended
      have hlast := hs.last e (by rw [← hall, List.getLast?_concat]; rfl)
      rw [hopen e (List.mem_append_right _ List.mem_cons_self)] at hlast
      unfold NewRequest.reason
      rw [hall, hs.tokens]
      simpa using hlast.symm
    · have hpre : (init ++ [e]).map Prod.fst <+: (p.sched.heap r).outputTokenIds := by
        rw [← hs.tokens]
        exact htaken.map Prod.fst
      have hshort : (init ++ [e]).map Prod.fst ≠ (p.sched.heap r).outputTokenIds := by
        intro heq
        refine hall (htaken.eq_of_length ?_)
        have hlen := congrArg List.length (heq.trans hs.tokens.symm)
        simpa using hlen
      have hearly := ((h.good hm).facts r).ending.earlier _ hpre hshort
      unfold NewRequest.reason
      rw [← hmax, ← heos]
      exact hearly

/-! ## Lines that fit -/

theorem int64_of_inVocab {t : Token} (h : InVocab t) : Int64 t :=
  ⟨Int.le_trans (by decide) h.1, Int.lt_trans h.2 (by decide)⟩

theorem fits_tokenLines {taken : List SinkEvent} (hopen : ∀ e ∈ taken, e.2 = false)
    (hn : taken.length < 1023) (hbytes : ∀ t, (tok.bytes t).length ≤ 128)
    (hids : ∀ e ∈ taken, InVocab e.1) : ∀ o ∈ tokenLines tok (taken.map Prod.fst), Fits o := by
  have hc : Complete (taken ++ [(0, true)]) := .of_open hopen 0
  have hlen : (taken ++ [((0 : Token), true)]).length ≤ 1023 := by
    rw [List.length_append, List.length_singleton]
    exact hn
  have hfits := fits_of_bounded hc none hlen (fun e _ => hbytes e.1) fun e he => by
    rcases List.mem_append.mp he with he | he
    · exact hids e he
    · obtain rfl := List.mem_singleton.mp he
      decide
  intro o ho
  refine hfits o ?_
  have hids' : (taken ++ [((0 : Token), true)]).map Prod.fst = taken.map Prod.fst ++ [0] := by simp
  rw [ndjson_eq hc, hids', tokenLines_snoc]
  simp [ho]

/-! ## What the reader counts -/

theorem mem_tokenLines {o : JsonObject} (h : o ∈ tokenLines tok ids) :
    ∃ t ∈ ids, ∃ text, o = tokenLine t text := by
  unfold tokenLines at h
  obtain ⟨i, hi, rfl⟩ := List.mem_iff_getElem.mp h
  rw [List.getElem_zipWith]
  rw [List.length_zipWith] at hi
  have hlt : i < ids.length := by omega
  exact ⟨_, List.getElem_mem hlt, _, rfl⟩

theorem mem_tailLines {o : JsonObject} {text : Text} (h : o ∈ tailLines text) :
    o = tailLine text := by
  unfold tailLines at h
  split at h
  · cases h
  · exact List.mem_singleton.mp h

theorem unmarshal_tokenLines (hids : ∀ t ∈ ids, InVocab t) :
    ∀ o ∈ tokenLines tok ids, unmarshal o.dumps = Msg.ofObject o := by
  intro o ho
  obtain ⟨t, ht, text, rfl⟩ := mem_tokenLines ho
  rw [ofObject_tokenLine]
  exact unmarshal_tokenLine (int64_of_inVocab (hids t ht)) text

theorem unmarshal_ndjson (hc : Complete taken) (hids : ∀ t ∈ taken.map Prod.fst, InVocab t)
    (reason : Option FinishReason) :
    ∀ o ∈ ndjson tok reason taken, unmarshal o.dumps = Msg.ofObject o := by
  intro o ho
  rw [ndjson_eq hc] at ho
  rcases List.mem_append.mp ho with ho | ho
  · rcases List.mem_append.mp ho with ho | ho
    · exact unmarshal_tokenLines hids o ho
    · obtain rfl := mem_tailLines ho
      exact unmarshal_tailLine _
  · obtain rfl := List.mem_singleton.mp ho
    exact unmarshal_doneLine _ _

section

variable (start arrival : Rat) (clock : Nat → Rat) {lines : List JsonObject}

/-- Some lines, read one after the other. -/
def readObjects (lines : List JsonObject) : Reading :=
  readLines unmarshal start arrival clock {} (lines.map JsonObject.dumps)

theorem filterMap_dumps (hjson : ∀ o ∈ lines, unmarshal o.dumps = Msg.ofObject o) :
    (lines.map JsonObject.dumps).filterMap unmarshal = lines.filterMap Msg.ofObject := by
  rw [List.filterMap_map]
  exact List.filterMap_congr hjson

theorem readObjects_outTokens (hjson : ∀ o ∈ lines, unmarshal o.dumps = Msg.ofObject o) :
    (readObjects start arrival clock lines).r.outTokens
      = (lines.filterMap Msg.ofObject).countP (·.tokenId.isSome) := by
  unfold readObjects
  rw [readLines_outTokens, filterMap_dumps hjson]
  exact Nat.zero_add _

theorem readObjects_done (hjson : ∀ o ∈ lines, unmarshal o.dumps = Msg.ofObject o) :
    (readObjects start arrival clock lines).done = (lines.filterMap Msg.ofObject).any (·.done) := by
  unfold readObjects
  rw [readLines_done, filterMap_dumps hjson, Bool.false_or]

theorem readObjects_status :
    (readObjects start arrival clock lines).r.status = .incomplete :=
  readLines_status unmarshal start arrival _ _ _

/-- Without the last line the result is what was read so far. -/
theorem result_of_not_done {rd : Reading} (h : rd.done = false) : rd.result = rd.r := by
  unfold Reading.result
  rw [h]
  rfl

/-- Only a line that says so ends a response. -/
theorem any_done_eq_false (h : ∀ o ∈ lines, ∀ msg, Msg.ofObject o = some msg → msg.done = false) :
    (lines.filterMap Msg.ofObject).any (·.done) = false := by
  rw [Bool.eq_false_iff]
  intro hany
  obtain ⟨msg, hmsg, hdone⟩ := List.any_eq_true.mp hany
  obtain ⟨o, ho, hom⟩ := List.mem_filterMap.mp hmsg
  exact Bool.false_ne_true ((h o ho msg hom).symm.trans hdone)

/-- The first lines of a response have no more tokens than all of them, and none but the last says
that the response is done. -/
theorem messages_take (k : Nat) (hc : Complete taken) (reason : Option FinishReason) :
    ((((ndjson tok reason taken).take k).filterMap Msg.ofObject).countP (·.tokenId.isSome)
      ≤ taken.length) ∧
    (k < (ndjson tok reason taken).length →
      (((ndjson tok reason taken).take k).filterMap Msg.ofObject).any (·.done) = false) := by
  constructor
  · have hsub := ((List.take_sublist k (ndjson tok reason taken)).filterMap Msg.ofObject).countP_le
      (p := fun m : Msg => m.tokenId.isSome)
    rw [filterMap_ndjson hc] at hsub
    refine hsub.trans (Nat.le_of_eq ?_)
    simp [messages, List.countP_map, Function.comp_def]
  · intro hk
    have hlen : (ndjson tok reason taken).length =
        (tokenLines tok (taken.map Prod.fst) ++ tailLines (tail tok (taken.map Prod.fst))).length
          + 1 := by
      rw [ndjson_eq hc, List.length_append, List.length_singleton]
    refine any_done_eq_false fun o ho msg hom => ?_
    rw [ndjson_eq hc, List.take_append_of_le_length (by omega)] at ho
    rcases List.mem_append.mp (List.mem_of_mem_take ho) with hf | hf
    · obtain ⟨t, -, text, rfl⟩ := mem_tokenLines hf
      cases hom
      rfl
    · obtain rfl := mem_tailLines hf
      cases hom
      rfl

/-! ## Streams, cut off or not -/

/-- A stream that is still under way, or was left. -/
theorem counted_tokens (hids : ∀ t ∈ ids, InVocab t) (hfit : ∀ o ∈ tokenLines tok ids, Fits o)
    {received : Text} (h : received <+: streamBody (tokenLines tok ids)) :
    let r := doRequest unmarshal start arrival clock (.answered 200 received)
    r.status = .incomplete ∧ r.outTokens ≤ ids.length := by
  obtain ⟨k, hk, -⟩ := doRequest_received hfit h start arrival clock
  have hmem : ∀ o ∈ (tokenLines tok ids).take k, unmarshal o.dumps = Msg.ofObject o :=
    fun o ho => unmarshal_tokenLines hids o (List.mem_of_mem_take ho)
  have hdone : (readObjects start arrival clock ((tokenLines tok ids).take k)).done = false := by
    rw [readObjects_done start arrival clock hmem]
    refine any_done_eq_false fun o ho msg hom => ?_
    obtain ⟨t, -, text, rfl⟩ := mem_tokenLines (List.mem_of_mem_take ho)
    cases hom
    rfl
  dsimp only
  rw [hk]
  show (readObjects start arrival clock _).result.status = _ ∧
    (readObjects start arrival clock _).result.outTokens ≤ _
  rw [result_of_not_done hdone]
  refine ⟨readObjects_status start arrival clock, ?_⟩
  rw [readObjects_outTokens start arrival clock hmem]
  refine List.countP_le_length.trans ((List.length_filterMap_le _ _).trans ?_)
  refine (List.length_take_le' _ _).trans ?_
  simp [tokenLines, length_pieces]

/-- A response of which some lines were sent, and some of them arrived. -/
theorem counted_response (hc : Complete taken) (reason : Option FinishReason)
    (hids : ∀ t ∈ taken.map Prod.fst, InVocab t) (hfit : ∀ o ∈ ndjson tok reason taken, Fits o)
    (hsent : lines <+: ndjson tok reason taken) {received : Text}
    (h : received <+: streamBody lines) :
    let r := doRequest unmarshal start arrival clock (.answered 200 received)
    r.outTokens ≤ taken.length ∧
      (r.status = .incomplete ∨ r.status = .ok ∧
        Reported r taken.length (clock 0 - start - arrival)
          (clock (lines.length - 1) - start - arrival)) ∧
      (lines = ndjson tok reason taken → received = streamBody lines → r.status = .ok) := by
  have hjson := @unmarshal_ndjson tok _ hc hids reason
  obtain ⟨k, hk, hwhole⟩ :=
    doRequest_received (fun o ho => hfit o (hsent.subset ho)) h start arrival clock
  obtain ⟨htokens, hlast⟩ := @messages_take tok _ (min k lines.length) hc reason
  have htake : lines.take k = (ndjson tok reason taken).take (min k lines.length) := by
    conv_lhs => rw [List.prefix_iff_eq_take.mp hsent, List.take_take]
  have hmem : ∀ o ∈ lines.take k, unmarshal o.dumps = Msg.ofObject o :=
    fun o ho => hjson o (hsent.subset (List.mem_of_mem_take ho))
  rw [← htake] at htokens hlast
  have hread : doRequest unmarshal start arrival clock (.answered 200 received)
      = (readObjects start arrival clock (lines.take k)).result := hk
  have hout := readObjects_outTokens start arrival clock hmem
  dsimp only
  by_cases hall : min k lines.length < (ndjson tok reason taken).length
  · -- the last line is missing
    have hdone := (readObjects_done start arrival clock hmem).trans (hlast hall)
    rw [hread, result_of_not_done hdone]
    refine ⟨hout ▸ htokens, Or.inl (readObjects_status start arrival clock), fun hlines hrec => ?_⟩
    rw [hwhole hrec, hlines] at hall
    exact absurd hall (by simp)
  · -- nothing is missing
    have hle := hsent.length_le
    have hlines : lines = ndjson tok reason taken := hsent.eq_of_length (by omega)
    obtain ⟨k', hk', hwhole'⟩ := doRequest_received hfit (List.prefix_refl _) start arrival clock
    rw [hwhole' rfl, List.take_length] at hk'
    have hrep := reported_doRequest start arrival clock hc reason hjson hfit
    have htakeAll : lines.take k = ndjson tok reason taken := by
      rw [htake, List.take_of_length_le (by omega)]
    have heq : doRequest unmarshal start arrival clock (.answered 200 received)
        = doRequest unmarshal start arrival clock
          (.answered 200 (streamBody (ndjson tok reason taken))) := by
      rw [hk, hk', htakeAll]
    rw [heq, hlines]
    exact ⟨Nat.le_of_eq hrep.outTokens, Or.inr ⟨hrep.status, hrep⟩, fun _ _ => hrep.status⟩

end

/-! ## One request of a load test -/

/-- The report on a planned request: its connection `c` has sent some lines, and `received` arrived
before the deadline. -/
structure Bench.Planned.Counted (p : Planned) (c : Connection) (received : Text) (start : Rat)
    (clock : Nat → Rat) (r : Result) : Prop where
  status : r.status = .ok ∨ r.status = .incomplete
  outTokens : (r.outTokens : Int) ≤ p.maxNew
  ok : r.status = .ok → Reported r p.maxNew.toNat (clock 0 - start - p.arrival)
    (clock (c.lines.length - 1) - start - p.arrival)
  whole : c.status = .ok → received = streamBody c.lines → r.status = .ok

/-- What the handler makes of the body. -/
theorem toRequest_asked {pl : Planned} (hp : pl.Sized) {mgr : Manager} {rid : String} {now : Time}
    {sink : Nat} :
    (∀ e, pl.asked.toRequest encode mgr rid now sink = .error e → e.statusCode = 413) ∧
    ∀ n, pl.asked.toRequest encode mgr rid now sink = .ok n →
      n.promptTokenIds = pl.prompt ∧ n.ignoreEos = true ∧ n.capped = pl.maxNew := by
  have hlen : 0 < pl.prompt.length ∧ pl.prompt.length < 1024 := by
    have := hp.prompt
    have := hp.maxNew
    have := hp.fits
    omega
  have hids : pl.asked.ids encode = .ok pl.prompt := rfl
  have hreq : pl.asked.toRequest encode mgr rid now sink =
      if mgr.fitsEver pl.prompt.length (min pl.maxNew (1024 - pl.prompt.length)) = false then
        .error { statusCode := 413, detail := "request needs more KV memory than the server has" }
      else .ok { requestId := rid, promptTokenIds := pl.prompt, maxNewTokens := pl.maxNew
                 ignoreEos := true, arrivalTime := now, sink := some sink } := by
    unfold GenerateIn.toRequest
    rw [hids]
    show (if ¬(0 < pl.prompt.length ∧ pl.prompt.length < 1024) then _ else _) = _
    rw [if_neg (not_not.mpr hlen)]
    rfl
  rw [hreq]
  constructor
  · intro e he
    split at he
    · cases he
      rfl
    · cases he
  · intro n hn
    split at hn
    · cases hn
    · cases hn
      refine ⟨rfl, rfl, ?_⟩
      have hcap : min pl.maxNew ((1024 : Int) - pl.prompt.length) = pl.maxNew := by
        have := hp.fits
        omega
      exact hcap

variable {Hidden K V κ : Type} {M : Transformer Hidden K V} {clock : κ → Time × κ}

/-- A connection that was let in with the body of a planned request, at any later moment. -/
theorem counted_of_sized {w : RunnerState κ K V} {v v' : Http (RunnerState κ K V)} (hm : m.Fresh)
    (hpool : w.pool.layout = m.layout) (hvocab : M.InVocab)
    (hbytes : ∀ t, (tok.bytes t).length ≤ 128) {pl : Planned} (hp : pl.Sized)
    (hv : ReflTransGen (HttpStep encode tok (Env.ofRunner M clock) cfg) (.start cfg m w) v)
    {rid : String} {now : Time} {n : NewRequest}
    (hn : v.request? encode pl.asked rid now = .ok n)
    (hv' : ReflTransGen (HttpStep encode tok (Env.ofRunner M clock) cfg) (v.accept n true) v')
    {received : Text} (hrec : received <+: streamBody (v'.conn v.next).lines) (start : Rat)
    (clk : Nat → Rat) :
    pl.Counted (v'.conn v.next) received start clk
      (doRequest unmarshal start pl.arrival clk (.answered 200 received)) := by
  obtain ⟨hprompt, heos, hcap⟩ := (toRequest_asked hp).2 n hn
  -- the connection is still about the planned request
  have hnew : v.next < (v.accept n true).next := Nat.lt_succ_self _
  have hconn : (v.accept n true).conn v.next = .opened n true := Function.update_self ..
  obtain ⟨hasked, hstream, hlt⟩ := kept_run hv' hnew
  rw [hconn] at hasked hstream
  rw [Connection.opened_asked] at hasked
  have hrun : ReflTransGen (HttpStep encode tok (Env.ofRunner M clock) cfg) (.start cfg m w) v' :=
    (hv.tail (.accept v pl.asked rid now n hn hp.maxNew)).trans hv'
  obtain ⟨p, hroot, hserved⟩ := served_run hm hrun
  obtain ⟨taken, htaken, -, hphase⟩ := hserved v.next hlt
  have hr : v.next < p.sched.next := hroot.next ▸ hlt
  obtain ⟨hunrolled, hgoes⟩ := hroot.unrolled hm hpool hr htaken
  -- its tokens are ids of the vocabulary, and not more than were planned
  have hids : ∀ t ∈ taken.map Prod.fst, InVocab t := by
    rw [hunrolled]
    exact forall_mem_unroll fun _ => hvocab _
  have hcap' : (v'.conn v.next).asked.capped = pl.maxNew := by rw [hasked, hcap]
  obtain ⟨hle, hend⟩ := length_of_goes (n := (v'.conn v.next).asked) (by rw [hasked, heos])
    (by rw [hcap']; exact hp.maxNew) hgoes
  rw [hcap', List.length_map] at hle hend
  have hbound : taken.length ≤ 1023 := by
    have := hp.prompt
    have := hp.fits
    omega
  cases hphase.sent hstream with
  | tokens hopen hlines hstatus =>
    have hnone := hroot.reason_open hm hr htaken hopen
    have hlt := length_of_reason_none (by rw [hcap']; exact hp.maxNew) hnone
    have hshort : taken.length < 1023 := by
      have := hp.prompt
      have := hp.fits
      rw [List.length_map] at hlt
      omega
    have hfit := fits_tokenLines hopen hshort hbytes fun e he => hids _ (List.mem_map_of_mem he)
    rw [hlines] at hrec
    obtain ⟨hinc, hout⟩ := counted_tokens start pl.arrival clk hids hfit hrec
    rw [List.length_map] at hout
    refine ⟨Or.inr hinc, by omega, fun hok => ?_, fun hok => absurd hok hstatus⟩
    cases hinc.symm.trans hok
  | response hc reason hlines hall =>
    have hann := hroot.announced hm hr htaken hc
    have hends := hend (hann.reason ▸ hann.finished)
    have hfit := fits_of_bounded hc reason hbound (fun e _ => hbytes e.1) fun e he =>
      hids _ (List.mem_map_of_mem he)
    obtain ⟨hout, hstatus, hwhole⟩ :=
      counted_response start pl.arrival clk hc reason hids hfit hlines hrec
    have hn : pl.maxNew.toNat = taken.length := by omega
    refine ⟨?_, by omega, fun hok => ?_, fun hok hreceived => hwhole (hall hok) hreceived⟩
    · rcases hstatus with h | h
      · exact Or.inr h
      · exact Or.inl h.1
    · rcases hstatus with h | ⟨-, hrep⟩
      · cases h.symm.trans hok
      · rw [hn]
        exact hrep

/-- The random numbers count up. -/
def countingRand : Bench.Rand Nat where
  expFloat64 s := (1, s + 1)
  normFloat64 s := (0, s + 1)
  intn n s := (s % n, s + 1)
  intn_lt s hn := Nat.mod_lt s hn
  roundExp _ _ _ := 64

/-- A server that takes bodies which need no conversion, and no others. -/
def strictBody (text : Text) : Option GenerateIn :=
  (JsonText.parse 2 text).bind GenerateIn.ofValue

theorem takesJson_strictBody : TakesJson strictBody := by
  intro text v body htext hbody
  rw [strictBody, htext]
  exact hbody

/-- `k` calls of `step`. -/
def stepTimes : Nat → Scheduler (RunnerState Nat Int Int) →
    Except PyError (Scheduler (RunnerState Nat Int Int))
  | 0, s => .ok s
  | k + 1, s => s.step (Env.ofRunner tiny tinyClock) {} >>= stepTimes k

section

variable {m : Manager} {w : RunnerState Nat Int Int} {v₀ v : Http (RunnerState Nat Int Int)}

theorem http_stepTimes (hm : m.Fresh) : ∀ {k : Nat} {s s' : Scheduler (RunnerState Nat Int Int)},
    ReflTransGen (HttpStep encode byteTok (Env.ofRunner tiny tinyClock) {}) (.start {} m w)
      { v with engine := { point := rest s [] } } →
    stepTimes k s = .ok s' →
    ReflTransGen (HttpStep encode byteTok (Env.ofRunner tiny tinyClock) {})
      { v with engine := { point := rest s [] } } { v with engine := { point := rest s' [] } }
  | 0, s, s', _, h => by
    cases h
    exact .refl
  | k + 1, s, s', hv, h => by
    obtain ⟨mid, hstep, h⟩ := exists_of_bind_ok h
    have hone := http_step hm hv rfl hstep
    exact hone.trans (http_stepTimes hm (hv.trans hone) h)

end

end LlmServe
