import LlmServe.Properties.RequestFacts

/-!
# The tokens a client sees

`TokenStream` relates the calls of a request's sink to its output tokens. It is an invariant of `Move`:
only `_emit` touches either, and it touches both.

A list of events is read through `calls`. The clause about every completed `_emit` speaks of the
past, so it is stated over the ways to cut the log at such an event (`AtEmitted`), and the log
grows one event at a time (`atEmitted_snoc`).
-/

namespace LlmServe

open Infra Point

/-- The calls of `r`'s sink. -/
def calls (r : Ref) (l : List Event) : List (Token × Bool) :=
  l.filterMap fun
    | .sink x tok fin => if x = r then some (tok, fin) else none
    | _ => none

/-- No call but the last says `finished`. -/
def OnlyLast (cs : List (Token × Bool)) : Prop := ∀ c ∈ cs.dropLast, c.2 = false

variable {r : Ref}

@[simp] theorem calls_nil : calls r [] = [] := rfl

theorem calls_append (l l' : List Event) : calls r (l ++ l') = calls r l ++ calls r l' :=
  List.filterMap_append

/-- Other requests' events are no calls of `r`'s sink. -/
theorem calls_filter (l : List Event) : calls r (l.filter fun e => e.ref = r) = calls r l := by
  induction l with
  | nil => rfl
  | cons e l ih =>
    have hcons : ∀ l', calls r (e :: l') = calls r [e] ++ calls r l' := fun l' =>
      calls_append [e] l'
    by_cases he : e.ref = r
    · rw [List.filter_cons, if_pos (decide_eq_true he), hcons, hcons l, ih]
    · have hnil : calls r [e] = [] := by
        cases e with
        | sink x tok fin =>
          have hx : x ≠ r := he
          simp [calls, hx]
        | _ => rfl
      rw [List.filter_cons, if_neg fun h => he (of_decide_eq_true h), hcons, hnil, ih,
        List.nil_append]

theorem onlyLast_snoc {cs : List (Token × Bool)} {c : Token × Bool}
    (h : ∀ x ∈ cs, x.2 = false) : OnlyLast (cs ++ [c]) := by
  unfold OnlyLast
  rwa [List.dropLast_concat]

theorem no_final_of_last {cs : List (Token × Bool)} (honly : OnlyLast cs)
    (hlast : ∀ c ∈ cs.getLast?, c.2 = false) : ∀ c ∈ cs, c.2 = false := by
  intro c hc
  rcases List.eq_nil_or_concat cs with hnil | ⟨init, c', hinit⟩
  · rw [hnil] at hc
    cases hc
  · rw [List.concat_eq_append] at hinit
    rw [hinit] at hc
    rcases List.mem_append.mp hc with hc | hc
    · exact honly c (by rwa [hinit, List.dropLast_concat])
    · exact List.mem_singleton.mp hc ▸ hlast c' (by rw [hinit]; simp)

/-- A finished stream: calls that promise more, then one that says the request is over. -/
def Closed (cs : List (Token × Bool)) : Prop :=
  ∃ init tok, cs = init ++ [(tok, true)] ∧ ∀ c ∈ init, c.2 = false

/-- The calls that go with the output `out` of a request with these limits. -/
structure Streamed (maxNew : Int) (ignoreEos : Bool) (out : List Token)
    (cs : List (Token × Bool)) : Prop where
  tokens : cs.map Prod.fst = out
  onlyLast : OnlyLast cs
  last : ∀ c ∈ cs.getLast?, c.2 = (Request.endReason maxNew ignoreEos out).isSome

namespace Streamed

variable {maxNew : Int} {ignoreEos : Bool} {out : List Token} {cs cs' : List (Token × Bool)}

theorem snoc (h : Streamed maxNew ignoreEos out cs)
    (hopen : Request.endReason maxNew ignoreEos out = none) (tok : Token) :
    Streamed maxNew ignoreEos (out ++ [tok])
      (cs ++ [(tok, (Request.endReason maxNew ignoreEos (out ++ [tok])).isSome)]) where
  tokens := by rw [List.map_append, h.tokens]; rfl
  onlyLast := onlyLast_snoc (no_final_of_last h.onlyLast fun c hc => by rw [h.last c hc, hopen]; rfl)
  last := by
    rw [List.getLast?_concat]
    rintro c hc
    cases hc
    rfl

/-- One output has one stream: its tokens, of which only the last can say that it is over. -/
theorem eq (h : Streamed maxNew ignoreEos out cs) :
    cs = out.dropLast.map (fun tok => (tok, false)) ++ (out.getLast?.map fun tok =>
      (tok, (Request.endReason maxNew ignoreEos out).isSome)).toList := by
  obtain ⟨htoks, honly, hlast⟩ := h
  rcases List.eq_nil_or_concat cs with rfl | ⟨init, ⟨tok, fin⟩, rfl⟩
  · rw [← htoks]
    rfl
  · rw [List.concat_eq_append] at *
    rw [OnlyLast, List.dropLast_concat] at honly
    have hfin := hlast (tok, fin) (by rw [List.getLast?_concat]; rfl)
    have hinit : (init.map Prod.fst).map (fun tok => (tok, false)) = init := by
      have hid : ∀ c ∈ init, ((fun tok => (tok, false)) ∘ Prod.fst) c = id c := fun c hc =>
        Prod.ext rfl (honly c hc).symm
      rw [List.map_map, List.map_congr_left hid, List.map_id]
    have hout : out = init.map Prod.fst ++ [tok] := by rw [← htoks, List.map_append]; rfl
    rw [← hfin, hout, List.dropLast_concat, List.getLast?_concat, hinit]
    rfl

theorem unique (h : Streamed maxNew ignoreEos out cs) (h' : Streamed maxNew ignoreEos out cs') :
    cs = cs' := h.eq.trans h'.eq.symm

/-- The stream of a request that has ended is finished. -/
theorem closed (h : Streamed maxNew ignoreEos out cs)
    (hend : Request.endReason maxNew ignoreEos out ≠ none) : Closed cs := by
  rcases List.eq_nil_or_concat cs with hnil | ⟨init, ⟨tok, fin⟩, hcs⟩
  · have htoks := h.tokens
    rw [hnil] at htoks
    rw [← htoks] at hend
    exact absurd rfl hend
  · rw [List.concat_eq_append] at hcs
    have hlast := h.last (tok, fin) (by rw [hcs, List.getLast?_concat]; rfl)
    have htrue : fin = true := hlast.trans (Option.isSome_iff_ne_none.mpr hend)
    have honly := h.onlyLast
    rw [OnlyLast, hcs, List.dropLast_concat] at honly
    exact ⟨init, tok, by rw [hcs, htrue], honly⟩

end Streamed

/-- `P before out` at every completed `_emit` of the log. -/
def AtEmitted (r : Ref) (P : List Event → List Token → Prop) (l : List Event) : Prop :=
  ∀ pre post out, l = pre ++ .emitted r out :: post → P pre out

theorem atEmitted_nil (P : List Event → List Token → Prop) : AtEmitted r P [] := by
  intro pre post out h
  have := congrArg List.length h
  simp at this

theorem atEmitted_snoc {P : List Event → List Token → Prop} {l : List Event} {e : Event}
    (h : AtEmitted r P l) (he : ∀ out, e = .emitted r out → P l out) : AtEmitted r P (l ++ [e]) := by
  intro pre post out heq
  rcases List.eq_nil_or_concat post with rfl | ⟨init, e', rfl⟩
  · obtain ⟨hl, hlast⟩ := List.append_inj' heq rfl
    cases hl
    exact he out (by simpa using hlast)
  · rw [List.concat_eq_append, ← List.cons_append, ← List.append_assoc] at heq
    exact h pre init out (List.append_inj' heq rfl).1

/-- What the sink got, against what was produced. -/
structure TokenStream (r : Ref) (v : View) : Prop where
  unborn : v.phase = .absent → v.log = []
  silent : v.req.sink = none → calls r v.log = []
  tokens : v.req.sink ≠ none → (calls r v.log).map Prod.fst = v.req.outputTokenIds
  onlyLast : OnlyLast (calls r v.log)
  /-- The last call says whether the tokens so far end the request. -/
  last : ∀ c ∈ (calls r v.log).getLast?, c.2 =
    (Request.endReason v.req.maxNewTokens v.req.ignoreEos v.req.outputTokenIds).isSome
  emitted : v.req.sink ≠ none → AtEmitted r
    (fun before out => (calls r before).map Prod.fst = out ∧ OnlyLast (calls r before)) v.log
  /-- After the final call comes nothing but the end of its own `_emit`. -/
  closing : (∀ c ∈ calls r v.log, c.2 = false) ∨ ∃ init tok out,
    v.log = init ++ [.sink r tok true, .emitted r out] ∧ ∀ c ∈ calls r init, c.2 = false

theorem TokenStream.start : TokenStream r .unborn where
  unborn := fun _ => rfl
  silent := fun _ => rfl
  tokens := fun h => absurd rfl h
  onlyLast := nofun
  last := nofun
  emitted := fun _ => atEmitted_nil _
  closing := Or.inl nofun

variable {cfg : EngineConfig} {m : Manager} {v v' : View}

/-- A request that may go on has not been told that it is finished. -/
theorem TokenStream.no_final (h : TokenStream r v)
    (hopen : Request.endReason v.req.maxNewTokens v.req.ignoreEos v.req.outputTokenIds = none) :
    ∀ c ∈ calls r v.log, c.2 = false :=
  no_final_of_last h.onlyLast fun c hc => by rw [h.last c hc, hopen]; rfl

theorem TokenStream.streamed (h : TokenStream r v) (hs : v.req.sink ≠ none) :
    Streamed v.req.maxNewTokens v.req.ignoreEos v.req.outputTokenIds (calls r v.log) :=
  ⟨h.tokens hs, h.onlyLast, h.last⟩

/-- A forward pass shows the sink nothing. -/
theorem TokenStream.fed (h : TokenStream r v) (he : Ending v) (hopen : v.req.finishReason = none)
    (hsub : v.phase ≠ .absent) (start : Nat) (toks : List Token) :
    TokenStream r { v with due := true, log := v.log ++ [.fed r start toks] } := by
  have hcalls : calls r (v.log ++ [.fed r start toks]) = calls r v.log := by
    rw [calls_append]
    exact List.append_nil _
  have hflags := h.no_final (he.prefix_open hopen _ (List.prefix_refl _))
  refine ⟨fun ha => absurd ha hsub, ?_, ?_, ?_, ?_, fun hs => ?_, ?_⟩
  · exact fun hs => hcalls.trans (h.silent hs)
  · intro hs
    rw [hcalls]
    exact h.tokens hs
  · rw [hcalls]
    exact h.onlyLast
  · rw [hcalls]
    exact h.last
  · exact atEmitted_snoc (h.emitted hs) nofun
  · left
    rw [hcalls]
    exact hflags

theorem calls_emitEvents (q : Request) (tok : Token) :
    calls r (emitEvents r tok q) = if q.sink.isSome then [(tok, q.finished)] else [] := by
  unfold emitEvents
  split <;> simp [calls]

theorem tokenStream_emit (h : TokenStream r v) (he : Ending v) (now : Time) (tok : Token)
    (hdue : v.due = true) :
    TokenStream r
      { v with
        due := false
        req := v.req.emit now tok
        log := v.log ++ emitEvents r tok (v.req.emit now tok) } := by
  have hopen := he.due_open hdue
  have hflags := h.no_final (he.prefix_open hopen _ (List.prefix_refl _))
  have hsub : v.phase ≠ .absent := by
    rcases he.due_phase hdue with hp | hp <;> simp [hp]
  have hfin : (v.req.emit now tok).finished = (Request.endReason (v.req.emit now tok).maxNewTokens
      (v.req.emit now tok).ignoreEos (v.req.emit now tok).outputTokenIds).isSome := by
    unfold Request.finished
    rw [Request.emit_finishReason now tok v.req hopen]
    simp
  cases hs : v.req.sink with
  | none =>
    -- nobody listens, so there is no call, before or after
    have hs' : (v.req.emit now tok).sink = none := by rw [Request.emit_sink, hs]
    have hnil : calls r (v.log ++ emitEvents r tok (v.req.emit now tok)) = [] := by
      rw [calls_append, calls_emitEvents, h.silent hs, hs']
      rfl
    refine ⟨fun ha => absurd ha hsub, fun _ => hnil, fun hne => absurd hs' hne, ?_, ?_,
      fun hne => absurd hs' hne, Or.inl ?_⟩
    · rw [OnlyLast, hnil]
      nofun
    · rw [hnil]
      nofun
    · rw [hnil]
      nofun
  | some k =>
    have hne : v.req.sink ≠ none := by rw [hs]; nofun
    have hs' : (v.req.emit now tok).sink = some k := by rw [Request.emit_sink, hs]
    have hlog : emitEvents r tok (v.req.emit now tok) =
        [.sink r tok (v.req.emit now tok).finished] ++
          [.emitted r (v.req.emit now tok).outputTokenIds] := by
      rw [emitEvents, hs']
      rfl
    have hone : calls r [.sink r tok (v.req.emit now tok).finished]
        = [(tok, (v.req.emit now tok).finished)] := by simp [calls]
    have hcalls : calls r (v.log ++ [.sink r tok (v.req.emit now tok).finished])
        = calls r v.log ++ [(tok, (v.req.emit now tok).finished)] := by
      rw [calls_append, hone]
    have hall : calls r (v.log ++ emitEvents r tok (v.req.emit now tok))
        = calls r v.log ++ [(tok, (v.req.emit now tok).finished)] := by
      rw [calls_append, calls_emitEvents, hs']
      rfl
    have htoks : (calls r v.log ++ [(tok, (v.req.emit now tok).finished)]).map Prod.fst
        = (v.req.emit now tok).outputTokenIds := by
      rw [List.map_append, h.tokens hne, Request.emit_outputTokenIds]
      rfl
    refine ⟨fun ha => absurd ha hsub, fun hn => ?_, fun _ => ?_, ?_, ?_, fun _ => ?_, ?_⟩
    · exact absurd (hs'.symm.trans hn) nofun
    · rw [hall, htoks]
    · rw [hall]
      exact onlyLast_snoc hflags
    · rw [hall, List.getLast?_concat]
      rintro c hc
      cases hc
      exact hfin
    · rw [hlog, ← List.append_assoc]
      refine atEmitted_snoc (atEmitted_snoc (h.emitted hne) nofun) fun out hout => ?_
      cases hout
      rw [hcalls]
      exact ⟨htoks, onlyLast_snoc hflags⟩
    · cases hf : (v.req.emit now tok).finished with
      | false =>
        -- still no final call
        left
        rw [hall, hf]
        intro c hc
        rcases List.mem_append.mp hc with hc | hc
        · exact hflags c hc
        · rw [List.mem_singleton.mp hc]
      | true =>
        -- this call is the final one, and nothing comes after it
        right
        refine ⟨v.log, tok, (v.req.emit now tok).outputTokenIds, ?_, hflags⟩
        rw [hlog, hf]
        rfl

theorem tokenStream_move (hmv : Move cfg m r v v') (he : Ending v) (h : TokenStream r v) : TokenStream r v' := by
  cases hmv with
  | stay => exact h
  | cancel => exact { h with }
  | create n hphase =>
    have hlog := h.unborn hphase
    refine ⟨nofun, ?_, ?_, ?_, ?_, fun _ => ?_, Or.inl ?_⟩ <;> simp only [hlog]
    · exact fun _ => rfl
    · exact fun _ => rfl
    · exact nofun
    · exact nofun
    · exact atEmitted_nil _
    · exact nofun
  | submit hphase =>
    have hout := he.unsubmitted (Or.inr hphase)
    refine { h with unborn := nofun, last := fun c hc => ?_ }
    have hlast := h.last c hc
    rw [hout] at hlast
    show _ = (Request.endReason _ _ v.req.outputTokenIds).isSome
    rw [hlast, hout]
    rfl
  | admitHead blocks seq hphase hlen => exact { h with unborn := nofun }
  | prefill hphase hdue =>
    have hopen := he.early_open (by simp [hphase]) (by simp [hphase]) (by simp [hphase])
    have hfed := h.fed he hopen (by simp [hphase]) 0 v.req.tokens
    exact { hfed with unborn := nofun }
  | emit now tok hdue => exact tokenStream_emit h he now tok hdue
  | decode tok hphase hdue hopen hlast hcov => exact h.fed he hopen (by simp [hphase]) _ _
  | drop | leave | join | preempt => exact { h with unborn := nofun }
  | _ => exact { h with }

end LlmServe
