import LlmServe.Properties.ResponseLines
import LlmServe.Bench.DoRequest
import Mathlib.Data.List.TakeWhile

/-!
# What the reader makes of a body

The scanner finds the lines of a streamed response, up to the first that does not fit its buffer.
The loop over them counts the lines with a token and sees whether one says the response is done.
-/

namespace LlmServe.Bench

open Infra

/-! ## The scanner -/

theorem splitLines_line : ∀ {line : Text} (cur rest : Text), '\n' ∉ line →
    splitLines cur (line ++ '\n' :: rest) = (cur ++ line) :: splitLines [] rest
  | [], cur, rest, _ => by
    rw [List.nil_append, splitLines, if_pos rfl, List.append_nil]
  | c :: line, cur, rest, h => by
    rw [List.mem_cons, not_or] at h
    rw [List.cons_append, splitLines, if_neg (Ne.symm h.1), splitLines_line _ _ h.2,
      List.append_assoc, List.singleton_append]

theorem newline_notMem_dumps (o : JsonObject) : '\n' ∉ o.dumps :=
  fun h => absurd (printable_dumps_object o _ h) (by decide)

theorem splitLines_streamBody : ∀ lines : List JsonObject,
    splitLines [] (streamBody lines) = lines.map JsonObject.dumps
  | [] => rfl
  | o :: lines => by
    have hbody : streamBody (o :: lines) = o.dumps ++ '\n' :: streamBody lines := by
      simp only [streamBody, List.flatMap_cons, List.append_assoc, List.singleton_append]
    rw [hbody, splitLines_line [] _ (newline_notMem_dumps o), splitLines_streamBody lines,
      List.nil_append, List.map_cons]

theorem dropCR_dumps (o : JsonObject) : dropCR o.dumps = o.dumps := by
  unfold dropCR
  rw [if_neg]
  intro h
  exact absurd (printable_dumps_object o _ (List.mem_of_getLast? h)) (by decide)

/-- The line fits the scanner's buffer, with its newline. -/
def Fits (o : JsonObject) : Prop := o.dumps.length < maxTokenSize

instance instDecidableFits (o : JsonObject) : Decidable (Fits o) :=
  inferInstanceAs (Decidable (_ < _))

/-- **The scanner finds the lines that were written**, up to one that is too long. -/
theorem scanLines_streamBody (lines : List JsonObject) :
    scanLines (streamBody lines) = (lines.takeWhile fun o => Fits o).map JsonObject.dumps := by
  unfold scanLines
  rw [splitLines_streamBody, List.takeWhile_map, List.map_map]
  apply List.map_congr_left
  intro o _
  exact dropCR_dumps o

theorem takeWhile_fits {lines : List JsonObject} (h : ∀ o ∈ lines, Fits o) :
    (lines.takeWhile fun o => Fits o) = lines :=
  List.takeWhile_eq_self_iff.mpr fun o ho => decide_eq_true (h o ho)

/-- A line that does not fit hides the last line. -/
theorem takeWhile_not_fits {front : List JsonObject} {last : JsonObject}
    (h : ¬ ∀ o ∈ front ++ [last], Fits o) :
    ∀ o ∈ (front ++ [last]).takeWhile fun o => Fits o, o ∈ front := by
  intro o ho
  rw [List.takeWhile_append] at ho
  split at ho
  · rename_i hfront
    -- then the last line is the one that does not fit
    have hall := List.takeWhile_eq_self_iff.mp
      ((List.takeWhile_prefix fun o => decide (Fits o)).eq_of_length hfront)
    have hlast : ¬Fits last := by
      intro hl
      refine h fun x hx => ?_
      rcases List.mem_append.mp hx with hx | hx
      · exact of_decide_eq_true (hall x hx)
      · exact List.mem_singleton.mp hx ▸ hl
    rw [List.takeWhile_cons_of_neg (by simpa using hlast), List.append_nil] at ho
    exact ho
  · exact (List.takeWhile_prefix _).subset ho

/-! ## The loop -/

section

variable (unmarshal : Text → Option Msg) (start arrival : Rat)

theorem onMsg_outTokens (rd : Reading) (now : Rat) (m : Msg) :
    (rd.onMsg start arrival now m).r.outTokens
      = rd.r.outTokens + if m.tokenId.isSome then 1 else 0 := by
  unfold Reading.onMsg
  cases hd : m.done <;> cases ht : m.tokenId <;> simp [Reading.onToken, Reading.onDone]

theorem onMsg_done (rd : Reading) (now : Rat) (m : Msg) :
    (rd.onMsg start arrival now m).done = (rd.done || m.done) := by
  unfold Reading.onMsg
  cases hd : m.done <;> cases ht : m.tokenId <;> simp [Reading.onToken, Reading.onDone]

theorem readLines_outTokens : ∀ (lines : List Text) (clock : Nat → Rat) (rd : Reading),
    (readLines unmarshal start arrival clock rd lines).r.outTokens
      = rd.r.outTokens + (lines.filterMap unmarshal).countP (·.tokenId.isSome)
  | [], _, _ => rfl
  | line :: lines, clock, rd => by
    rw [readLines, readLines_outTokens lines, List.filterMap_cons]
    cases unmarshal line with
    | none => rfl
    | some m =>
      simp only [onMsg_outTokens, List.countP_cons]
      omega

theorem readLines_done : ∀ (lines : List Text) (clock : Nat → Rat) (rd : Reading),
    (readLines unmarshal start arrival clock rd lines).done
      = (rd.done || (lines.filterMap unmarshal).any (·.done))
  | [], _, rd => (Bool.or_false rd.done).symm
  | line :: lines, clock, rd => by
    rw [readLines, readLines_done lines, List.filterMap_cons]
    cases unmarshal line with
    | none => rfl
    | some m => simp only [onMsg_done, List.any_cons, Bool.or_assoc]

/-- The status is `ok` exactly if a line said so, and then TPOT is the mean gap behind the first
token. -/
theorem result_status (rd : Reading) (h : rd.r.status = .incomplete) :
    rd.result.status = .ok ↔ rd.done = true := by
  unfold Reading.result
  cases hd : rd.done <;> simp [h]

theorem onMsg_status (rd : Reading) (now : Rat) (m : Msg) :
    (rd.onMsg start arrival now m).r.status = rd.r.status := by
  unfold Reading.onMsg
  cases hd : m.done <;> cases ht : m.tokenId <;> simp [Reading.onToken, Reading.onDone]

theorem readLines_status : ∀ (lines : List Text) (clock : Nat → Rat) (rd : Reading),
    (readLines unmarshal start arrival clock rd lines).r.status = rd.r.status
  | [], _, _ => rfl
  | line :: lines, clock, rd => by
    rw [readLines, readLines_status lines]
    cases unmarshal line with
    | none => rfl
    | some m => exact onMsg_status start arrival rd _ m

end

/-! ## The messages of a response -/

@[simp] theorem ofObject_tokenLine (t : Token) (text : Text) :
    Msg.ofObject (tokenLine t text) = some { tokenId := some t } := rfl

@[simp] theorem ofObject_tailLine (text : Text) : Msg.ofObject (tailLine text) = some {} := rfl

@[simp] theorem ofObject_doneLine (finishReason : Option FinishReason) (n : Nat) :
    Msg.ofObject (doneLine finishReason n) = some { done := true } := rfl

theorem filterMap_zipWith : ∀ (ids : List Token) (texts : List Text),
    texts.length = ids.length → (List.zipWith tokenLine ids texts).filterMap Msg.ofObject
      = ids.map fun t => { tokenId := some t }
  | [], [], _ => rfl
  | t :: ids, text :: texts, h => by
    rw [List.zipWith_cons_cons, List.filterMap_cons, ofObject_tokenLine, List.map_cons,
      filterMap_zipWith ids texts (Nat.succ.inj h)]

theorem filterMap_tailLines (text : Text) :
    (tailLines text).filterMap Msg.ofObject = (tailLines text).map fun _ => {} := by
  unfold tailLines
  split <;> rfl

end LlmServe.Bench
