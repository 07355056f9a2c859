import LlmServe.Properties.LineLength
import Mathlib.Data.Rat.Cast.Defs

/-!
# The server's stream and the client's reader

Both ends of the line format: what `ndjson` writes for the events of a request that ran to its
end, and what `doRequest` counts in it. The reader's scanner holds a line in a buffer of 2^20
bytes, and sees the end of a response exactly if every line fits; the lines of a request do.
-/

namespace LlmServe

open Infra Bench

variable {tok : Tokenizer} {events : List SinkEvent}

/-! ## The reader on a complete response -/

/-- The messages of a complete response. -/
def messages (ids : List Token) (tails : List Text) : List Msg :=
  ids.map (fun t => { tokenId := some t }) ++ tails.map (fun _ => ({} : Msg)) ++ [{ done := true }]

theorem filterMap_ndjson (h : Complete events) (finishReason : Option FinishReason) :
    (ndjson tok finishReason events).filterMap Msg.ofObject
      = messages (events.map Prod.fst)
          (if tail tok (events.map Prod.fst) = [] then [] else [tail tok (events.map Prod.fst)]) := by
  rw [ndjson_complete h, List.filterMap_append, List.filterMap_append,
    filterMap_zipWith _ _ (length_pieces tok _), filterMap_tailLines]
  unfold messages tailLines
  split <;> rfl

section

variable {unmarshal : Text → Option Msg} {lines : List JsonObject}

/-- The messages that the loop sees, where decoding gives back what was encoded. -/
theorem filterMap_scanLines (hjson : ∀ o ∈ lines, unmarshal o.dumps = Msg.ofObject o) :
    (scanLines (streamBody lines)).filterMap unmarshal
      = (lines.takeWhile fun o => Fits o).filterMap Msg.ofObject := by
  rw [scanLines_streamBody, List.filterMap_map]
  apply List.filterMap_congr
  intro o ho
  exact hjson o ((List.takeWhile_prefix _).subset ho)

variable (start arrival : Rat) (clock : Nat → Rat)

theorem doRequest_answered (lines : List Text) (body : Text) (hlines : scanLines body = lines) :
    doRequest unmarshal start arrival clock (.answered 200 body)
      = (readLines unmarshal start arrival clock {} lines).result := by
  subst hlines
  rfl

/-- **The reader sees the end exactly if every line fits.** -/
theorem status_doRequest (h : Complete events) (finishReason : Option FinishReason)
    (hjson : ∀ o ∈ ndjson tok finishReason events, unmarshal o.dumps = Msg.ofObject o) :
    (doRequest unmarshal start arrival clock
      (.answered 200 (streamBody (ndjson tok finishReason events)))).status = .ok
      ↔ ∀ o ∈ ndjson tok finishReason events, Fits o := by
  rw [doRequest_answered start arrival clock _ _ rfl,
    result_status _ (readLines_status unmarshal start arrival _ _ _), readLines_done,
    filterMap_scanLines hjson, Bool.false_or]
  constructor
  · intro hdone
    by_contra hfit
    rw [List.any_eq_true] at hdone
    obtain ⟨m, hm, hd⟩ := hdone
    obtain ⟨o, ho, hom⟩ := List.mem_filterMap.mp hm
    rw [ndjson_complete h] at ho hfit
    -- only the last line says that the response is done, and the scan stops before it
    rcases List.mem_append.mp (takeWhile_not_fits hfit o ho) with hf | hf
    · obtain ⟨i, hi, rfl⟩ := List.mem_iff_getElem.mp hf
      rw [List.getElem_zipWith, ofObject_tokenLine] at hom
      cases hom
      cases hd
    · unfold tailLines at hf
      split at hf
      · cases hf
      · obtain rfl := List.mem_singleton.mp hf
        cases hom
        cases hd
  · intro hfit
    rw [takeWhile_fits hfit, filterMap_ndjson h, messages, List.any_append]
    simp

/-! ## What is measured -/

theorem readLines_append : ∀ (xs ys : List Text) (clock : Nat → Rat) (rd : Reading),
    readLines unmarshal start arrival clock rd (xs ++ ys)
      = readLines unmarshal start arrival (fun i => clock (i + xs.length))
          (readLines unmarshal start arrival clock rd xs) ys
  | [], _, _, _ => rfl
  | x :: xs, ys, clock, rd => by
    rw [List.cons_append, readLines, readLines, readLines_append xs ys]
    simp only [List.length_cons, Nat.add_assoc]

/-- Behind the first token TTFT stays. -/
theorem onMsg_ttft (rd : Reading) (now : Rat) (m : Msg) (h : 0 < rd.r.outTokens) :
    (rd.onMsg start arrival now m).r.ttft = rd.r.ttft := by
  have hne : rd.r.outTokens ≠ 0 := by omega
  unfold Reading.onMsg
  cases hd : m.done <;> cases ht : m.tokenId <;> simp [Reading.onToken, Reading.onDone, hne]

theorem readLines_ttft : ∀ (xs : List Text) (clock : Nat → Rat) (rd : Reading),
    0 < rd.r.outTokens → (readLines unmarshal start arrival clock rd xs).r.ttft = rd.r.ttft
  | [], _, _, _ => rfl
  | x :: xs, clock, rd, h => by
    rw [readLines]
    cases hx : unmarshal x with
    | none => exact readLines_ttft xs _ rd h
    | some m =>
      have hpos : 0 < (rd.onMsg start arrival (clock 0) m).r.outTokens := by
        rw [onMsg_outTokens]
        omega
      exact (readLines_ttft xs _ _ hpos).trans (onMsg_ttft start arrival rd _ m h)

/-- The report on a response that was read to its end: `first` is the time of the first token
since the scheduled arrival, `last` that of the last line. -/
structure Reported (r : Result) (n : Nat) (first last : Rat) : Prop where
  status : r.status = .ok
  outTokens : r.outTokens = n
  ttft : r.ttft = first
  e2e : r.e2e = last
  tpot : 1 < n → r.tpot = (r.e2e - r.ttft) / (n - 1)

/-- A loop that ended with a line that says so. -/
theorem reported_result {rd : Reading} {n : Nat} {first last : Rat} (hdone : rd.done = true)
    (hn : rd.r.outTokens = n) (hfirst : rd.r.ttft = first) (hlast : rd.r.e2e = last) :
    Reported rd.result n first last := by
  have hres : rd.result = { rd.r with
      status := .ok
      tpot := if rd.r.outTokens > 1 then (rd.r.e2e - rd.r.ttft) / (rd.r.outTokens - 1 : Nat)
        else rd.r.tpot } := if_pos hdone
  rw [hres]
  constructor
  · rfl
  · exact hn
  · exact hfirst
  · exact hlast
  · intro h1
    have hcast : ((n - 1 : Nat) : Rat) = (n : Rat) - 1 := by
      rw [Nat.cast_sub (by omega), Nat.cast_one]
    simp only [hn, h1, if_true, hcast]

/-- The first line has a token, the last says that the response is done. -/
theorem ndjson_ends (h : Complete events) (finishReason : Option FinishReason) :
    ∃ t text mid, ndjson tok finishReason events
      = tokenLine t text :: mid ++ [doneLine finishReason events.length] := by
  obtain ⟨init, last, rfl⟩ := id h
  rw [ndjson_complete h, map_fst_events]
  obtain ⟨t, ids, hids⟩ := List.exists_cons_of_ne_nil
    (List.append_ne_nil_of_right_ne_nil init (List.cons_ne_nil last []))
  have hlen := length_pieces tok (init ++ [last])
  rw [hids] at hlen ⊢
  obtain ⟨text, texts, htexts⟩ := List.exists_cons_of_length_eq_add_one hlen
  rw [htexts, List.zipWith_cons_cons]
  exact ⟨t, text, _, rfl⟩

/-- **A response whose lines fit is counted right.** -/
theorem reported_doRequest (h : Complete events) (finishReason : Option FinishReason)
    (hjson : ∀ o ∈ ndjson tok finishReason events, unmarshal o.dumps = Msg.ofObject o)
    (hfit : ∀ o ∈ ndjson tok finishReason events, Fits o) :
    Reported (doRequest unmarshal start arrival clock
        (.answered 200 (streamBody (ndjson tok finishReason events))))
      events.length (clock 0 - start - arrival)
      (clock ((ndjson tok finishReason events).length - 1) - start - arrival) := by
  have hscan := scanLines_streamBody (ndjson tok finishReason events)
  rw [takeWhile_fits hfit] at hscan
  have hmsgs := filterMap_scanLines hjson
  rw [takeWhile_fits hfit, filterMap_ndjson h, hscan] at hmsgs
  rw [doRequest_answered start arrival clock _ _ hscan]
  apply reported_result
  · rw [readLines_done, hmsgs, messages, List.any_append]
    simp
  · rw [readLines_outTokens, hmsgs, messages]
    simp [List.countP_map, Function.comp_def]
  · obtain ⟨t, text, mid, hlines⟩ := @ndjson_ends tok _ h finishReason
    have hx : unmarshal (tokenLine t text).dumps = some { tokenId := some t } :=
      hjson _ (by rw [hlines]; exact List.mem_cons_self)
    rw [hlines, List.cons_append, List.map_cons, readLines, hx]
    exact readLines_ttft _ _ _ _ _ Nat.zero_lt_one
  · obtain ⟨t, text, mid, hlines⟩ := @ndjson_ends tok _ h finishReason
    have hx : unmarshal (doneLine finishReason events.length).dumps = some { done := true } :=
      hjson _ (by rw [hlines]; exact List.mem_append_right _ (List.mem_singleton_self _))
    rw [hlines, List.map_append, readLines_append, List.map_singleton, readLines, hx, readLines,
      List.length_append, List.length_singleton, Nat.add_sub_cancel, List.length_map]
    simp only [Reading.onMsg, Reading.onDone, Nat.zero_add, if_true]

end

/-! ## Both ends -/

/--
**The stream and its reader agree.** A complete response has a line for each token in order, at
most one line of held-back text and one last line with the number of tokens; its text is that of
the ids, and that of the response in one piece. For the events of a request (a context has room
for 1023 of them, a token of the vocabulary has at most 128 bytes) the reader, decoding
faithfully, sees one message for each line and reports `ok`, the number of tokens and the mean
gap between them.
-/
theorem stream_agrees (tok : Tokenizer) (finishReason : Option FinishReason)
    (events : List SinkEvent) (h : Complete events) :
    (∃ texts tails : List Text, texts.length = events.length ∧ tails.length ≤ 1 ∧
      ndjson tok finishReason events = List.zipWith tokenLine (events.map Prod.fst) texts
        ++ tails.map tailLine ++ [doneLine finishReason events.length]) ∧
    (ndjson tok finishReason events).flatMap JsonObject.text = tok.decode (events.map Prod.fst) ∧
    responseText tok events = tok.decode (events.map Prod.fst) ∧
    (events.length ≤ 1023 → (∀ e ∈ events, InVocab e.1 ∧ (tok.bytes e.1).length ≤ 128) →
      ∀ (unmarshal : Text → Option Msg) (start arrival : Rat) (clock : Nat → Rat),
        (∀ o ∈ ndjson tok finishReason events, unmarshal o.dumps = Msg.ofObject o) →
        (∃ tails : List Text, tails.length ≤ 1 ∧
          (scanLines (streamBody (ndjson tok finishReason events))).filterMap unmarshal
            = messages (events.map Prod.fst) tails) ∧
        Reported (doRequest unmarshal start arrival clock
            (.answered 200 (streamBody (ndjson tok finishReason events))))
          events.length (clock 0 - start - arrival)
          (clock ((ndjson tok finishReason events).length - 1) - start - arrival)) := by
  refine ⟨?_, text_ndjson h finishReason, responseText_complete h, ?_⟩
  · refine ⟨pieces tok (events.map Prod.fst),
      if tail tok (events.map Prod.fst) = [] then [] else [tail tok (events.map Prod.fst)], ?_, ?_, ?_⟩
    · rw [length_pieces, List.length_map]
    · split <;> simp
    · rw [ndjson_complete h]
      unfold tailLines
      split <;> rfl
  · intro hn hbounds unmarshal start arrival clock hjson
    have hfit : ∀ o ∈ ndjson tok finishReason events, Fits o :=
      fits_of_bounded h finishReason hn (fun e he => (hbounds e he).2) fun e he => (hbounds e he).1
    refine ⟨?_, reported_doRequest start arrival clock h finishReason hjson hfit⟩
    refine ⟨if tail tok (events.map Prod.fst) = [] then []
      else [tail tok (events.map Prod.fst)], ?_, ?_⟩
    · split <;> simp
    · rw [filterMap_scanLines hjson, takeWhile_fits hfit, filterMap_ndjson h]

/-- What `json.Unmarshal` makes of a line, read off its first characters; ids of one digit. -/
def peek (line : Text) : Option Msg :=
  if "\x7b\"done\": true".toList.isPrefixOf line then some { done := true }
  else if "\x7b\"token_id\": null".toList.isPrefixOf line then some {}
  else (line.drop 13).head?.map fun c => { tokenId := some (c.toNat - 48) }

/-- A character of four bytes in two tokens, and a byte that no character has. -/
def twoHalves : Tokenizer where
  bytes t := if t = 0 then [0xF0, 0x9F] else if t = 1 then [0x98, 0x80] else [0xFF]
  bytes_ne_nil t := by split_ifs <;> simp

def halves : List SinkEvent := [(0, false), (1, false), (2, true)]

theorem stream_agrees_halves :
    (doRequest peek 0 1 (fun i => i + 2)
      (.answered 200 (streamBody (ndjson twoHalves (some .length) halves)))).outTokens = 3 := by
  have hc : Complete halves := ⟨[0, 1], 2, rfl⟩
  have hjson : ∀ o ∈ ndjson twoHalves (some .length) halves, peek o.dumps = Msg.ofObject o := by
    decide +kernel
  have hbounds : ∀ e ∈ halves, InVocab e.1 ∧ (twoHalves.bytes e.1).length ≤ 128 := by decide
  have h := (stream_agrees twoHalves (some .length) halves hc).2.2.2 (by decide) hbounds peek 0 1
    (fun i => i + 2) hjson
  exact h.2.outTokens

end LlmServe
