import LlmServe.Engine.Scheduler
import LlmServe.Infra.Unroll

/-!
# How the fields of one request change

`_emit` is the only place that appends a token or ends a request by itself; `emit_cases` says all
it can do. `Request.Evolves` is what every small step keeps about a request: what the client
chose stays, tokens are only appended, and a finished request is finished for good.
-/

namespace LlmServe

namespace Request

variable (now : Time) (tok : Token) (q : Request)

/--
**All that `_emit` can do.** It appends the token and fills the first-token time; the length limit
is looked at before EOS, and only a request that ends gets a finish time.
-/
theorem emit_cases :
    ∃ first, first ≠ none ∧ (q.firstTokenTime ≠ none → first = q.firstTokenTime) ∧
      ((q.maxNewTokens ≤ q.outputTokenIds.length + 1 ∧
          q.emit now tok = { q with
            outputTokenIds := q.outputTokenIds ++ [tok], firstTokenTime := first
            finishReason := some .length, finishTime := some now }) ∨
        (q.outputTokenIds.length + 1 < q.maxNewTokens ∧ tok = eosTokenId ∧ q.ignoreEos = false ∧
          q.emit now tok = { q with
            outputTokenIds := q.outputTokenIds ++ [tok], firstTokenTime := first
            finishReason := some .stop, finishTime := some now }) ∨
        (q.outputTokenIds.length + 1 < q.maxNewTokens ∧ ¬(tok = eosTokenId ∧ q.ignoreEos = false) ∧
          q.emit now tok = { q with
            outputTokenIds := q.outputTokenIds ++ [tok], firstTokenTime := first
            finishTime := if q.finished then some now else q.finishTime })) := by
  refine ⟨if q.firstTokenTime = none then some now else q.firstTokenTime, ?_, ?_, ?_⟩
  · split <;> simp_all
  · intro h
    rw [if_neg h]
  · by_cases hlen : q.maxNewTokens ≤ q.outputTokenIds.length + 1
    · left
      refine ⟨hlen, ?_⟩
      by_cases hf : q.firstTokenTime = none <;> simp [emit, hf, hlen, finished]
    · by_cases heos : tok = eosTokenId ∧ q.ignoreEos = false
      · right; left
        refine ⟨by omega, heos.1, heos.2, ?_⟩
        by_cases hf : q.firstTokenTime = none <;> simp [emit, hf, hlen, heos, finished]
      · right; right
        refine ⟨by omega, heos, ?_⟩
        by_cases hf : q.firstTokenTime = none <;> by_cases hfin : q.finishReason = none <;>
          simp [emit, hf, hlen, heos, finished, hfin, Option.isSome_iff_ne_none]

@[simp] theorem emit_outputTokenIds :
    (q.emit now tok).outputTokenIds = q.outputTokenIds ++ [tok] := by
  obtain ⟨_, -, -, ⟨-, h⟩ | ⟨-, -, -, h⟩ | ⟨-, -, h⟩⟩ := emit_cases now tok q <;> rw [h]

/-- `_emit` leaves everything else alone. -/
theorem emit_frame :
    (q.emit now tok).requestId = q.requestId ∧
      (q.emit now tok).promptTokenIds = q.promptTokenIds ∧
      (q.emit now tok).maxNewTokens = q.maxNewTokens ∧
      (q.emit now tok).ignoreEos = q.ignoreEos ∧
      (q.emit now tok).arrivalTime = q.arrivalTime ∧
      (q.emit now tok).blockTable = q.blockTable ∧
      (q.emit now tok).admitSeq = q.admitSeq ∧
      (q.emit now tok).preemptCount = q.preemptCount ∧
      (q.emit now tok).cancelled = q.cancelled ∧ (q.emit now tok).sink = q.sink := by
  obtain ⟨_, -, -, ⟨-, h⟩ | ⟨-, -, -, h⟩ | ⟨-, -, h⟩⟩ := emit_cases now tok q <;> simp [h]

@[simp] theorem emit_requestId : (q.emit now tok).requestId = q.requestId := (emit_frame ..).1

@[simp] theorem emit_promptTokenIds : (q.emit now tok).promptTokenIds = q.promptTokenIds :=
  (emit_frame ..).2.1

@[simp] theorem emit_maxNewTokens : (q.emit now tok).maxNewTokens = q.maxNewTokens :=
  (emit_frame ..).2.2.1

@[simp] theorem emit_ignoreEos : (q.emit now tok).ignoreEos = q.ignoreEos :=
  (emit_frame ..).2.2.2.1

@[simp] theorem emit_arrivalTime : (q.emit now tok).arrivalTime = q.arrivalTime :=
  (emit_frame ..).2.2.2.2.1

@[simp] theorem emit_blockTable : (q.emit now tok).blockTable = q.blockTable :=
  (emit_frame ..).2.2.2.2.2.1

@[simp] theorem emit_admitSeq : (q.emit now tok).admitSeq = q.admitSeq :=
  (emit_frame ..).2.2.2.2.2.2.1

@[simp] theorem emit_preemptCount : (q.emit now tok).preemptCount = q.preemptCount :=
  (emit_frame ..).2.2.2.2.2.2.2.1

@[simp] theorem emit_cancelled : (q.emit now tok).cancelled = q.cancelled :=
  (emit_frame ..).2.2.2.2.2.2.2.2.1

@[simp] theorem emit_sink : (q.emit now tok).sink = q.sink := (emit_frame ..).2.2.2.2.2.2.2.2.2

@[simp] theorem emit_seqLen : (q.emit now tok).seqLen = q.seqLen + 1 := by
  simp [seqLen, Nat.add_assoc]

@[simp] theorem emit_tokens : (q.emit now tok).tokens = q.tokens ++ [tok] := by
  simp [tokens]

/-! ## Why a request ends -/

/-- The reason `_emit` gives to a request that has produced `out`. -/
def endReason (maxNew : Int) (ignoreEos : Bool) (out : List Token) : Option FinishReason :=
  match out.getLast? with
  | none => none
  | some tok =>
    if maxNew ≤ out.length then some .length
    else if tok = eosTokenId ∧ ignoreEos = false then some .stop
    else none

@[simp] theorem endReason_nil (maxNew : Int) (ignoreEos : Bool) :
    endReason maxNew ignoreEos [] = none := rfl

theorem endReason_snoc (maxNew : Int) (ignoreEos : Bool) (out : List Token) (tok : Token) :
    endReason maxNew ignoreEos (out ++ [tok]) =
      if maxNew ≤ out.length + 1 then some .length
      else if tok = eosTokenId ∧ ignoreEos = false then some .stop
      else none := by
  simp [endReason]

/-- A request that may go on has produced nothing or is below its limit. -/
theorem lt_of_endReason_none {maxNew : Int} {ignoreEos : Bool} {out : List Token}
    (h : endReason maxNew ignoreEos out = none) : out = [] ∨ (out.length : Int) < maxNew := by
  rcases List.eq_nil_or_concat out with rfl | ⟨init, tok, rfl⟩
  · exact Or.inl rfl
  · right
    rw [List.concat_eq_append, endReason_snoc] at h
    rw [List.length_concat]
    by_contra hle
    rw [if_pos (by omega)] at h
    cases h

theorem endReason_ne_cancelled (maxNew : Int) (ignoreEos : Bool) (out : List Token) :
    endReason maxNew ignoreEos out ≠ some .cancelled := by
  unfold endReason
  split
  · nofun
  · split
    · nofun
    · split <;> nofun

/-- `_emit` on an open request. -/
theorem emit_finishReason (h : q.finishReason = none) :
    (q.emit now tok).finishReason =
      endReason q.maxNewTokens q.ignoreEos (q.outputTokenIds ++ [tok]) := by
  rw [endReason_snoc]
  obtain ⟨_, -, -, ⟨hlen, he⟩ | ⟨hlen, htok, hign, he⟩ | ⟨hlen, hno, he⟩⟩ := emit_cases now tok q
  · rw [he, if_pos hlen]
  · rw [he, if_neg (by omega), if_pos ⟨htok, hign⟩]
  · rw [he, if_neg hno]
    show q.finishReason = _
    rw [if_neg (by omega), h]

theorem emit_firstTokenTime : (q.emit now tok).firstTokenTime ≠ none := by
  obtain ⟨_, hne, -, ⟨-, he⟩ | ⟨-, -, -, he⟩ | ⟨-, -, he⟩⟩ := emit_cases now tok q <;>
    exact he ▸ hne

/-- `_emit` sets a finish time whenever it leaves the request ended. -/
theorem emit_finishTime (h : (q.emit now tok).finishReason ≠ none) :
    (q.emit now tok).finishTime ≠ none := by
  obtain ⟨_, -, -, ⟨-, he⟩ | ⟨-, -, -, he⟩ | ⟨-, -, he⟩⟩ := emit_cases now tok q
  · simp [he]
  · simp [he]
  · rw [he] at h ⊢
    have hf : q.finished = true := finished_iff.mpr h
    simp [hf]

/-- Where greedy decoding of such a prompt ends, under such limits. -/
abbrev Ends (next : List Token → Token) (prompt : List Token) (maxNew : Int) (ignoreEos : Bool)
    (out : List Token) : Prop :=
  Infra.FirstStop next prompt (fun out => endReason maxNew ignoreEos out ≠ none) out

/-! ## What a request keeps -/

/-- What a request keeps, whatever happens to it after its submission. -/
structure Evolves (q q' : Request) : Prop where
  requestId : q'.requestId = q.requestId
  promptTokenIds : q'.promptTokenIds = q.promptTokenIds
  maxNewTokens : q'.maxNewTokens = q.maxNewTokens
  ignoreEos : q'.ignoreEos = q.ignoreEos
  arrivalTime : q'.arrivalTime = q.arrivalTime
  sink : q'.sink = q.sink
  output : q.outputTokenIds <+: q'.outputTokenIds
  cancelled : q.cancelled = true → q'.cancelled = true
  finishReason : q.finishReason ≠ none → q'.finishReason = q.finishReason
  closed : q.finishReason ≠ none → q'.outputTokenIds = q.outputTokenIds
  preemptCount : q.preemptCount ≤ q'.preemptCount

theorem Evolves.refl (q : Request) : q.Evolves q :=
  ⟨rfl, rfl, rfl, rfl, rfl, rfl, List.prefix_refl _, id, fun _ => rfl, fun _ => rfl, le_rfl⟩

theorem Evolves.trans {q₁ q₂ q₃ : Request} (h : q₁.Evolves q₂) (h' : q₂.Evolves q₃) :
    q₁.Evolves q₃ where
  requestId := h'.requestId.trans h.requestId
  promptTokenIds := h'.promptTokenIds.trans h.promptTokenIds
  maxNewTokens := h'.maxNewTokens.trans h.maxNewTokens
  ignoreEos := h'.ignoreEos.trans h.ignoreEos
  arrivalTime := h'.arrivalTime.trans h.arrivalTime
  sink := h'.sink.trans h.sink
  output := h.output.trans h'.output
  cancelled := fun hc => h'.cancelled (h.cancelled hc)
  finishReason := fun hf =>
    (h'.finishReason (by rw [h.finishReason hf]; exact hf)).trans (h.finishReason hf)
  closed := fun hf => (h'.closed (by rw [h.finishReason hf]; exact hf)).trans (h.closed hf)
  preemptCount := h.preemptCount.trans h'.preemptCount

/-- An open request evolves by `_emit`. -/
theorem Evolves.emit (h : q.finishReason = none) : q.Evolves (q.emit now tok) where
  requestId := emit_requestId ..
  promptTokenIds := emit_promptTokenIds ..
  maxNewTokens := emit_maxNewTokens ..
  ignoreEos := emit_ignoreEos ..
  arrivalTime := emit_arrivalTime ..
  sink := emit_sink ..
  output := by rw [emit_outputTokenIds]; exact List.prefix_append _ _
  cancelled := by rw [emit_cancelled]; exact id
  finishReason := fun hf => absurd h hf
  closed := fun hf => absurd h hf
  preemptCount := by rw [emit_preemptCount]

end Request

end LlmServe
