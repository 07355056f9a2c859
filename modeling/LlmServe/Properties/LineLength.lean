import LlmServe.Engine.ModelRunner
import LlmServe.Properties.ScanLoop

/-!
# How long a line gets

A byte of text takes at most six characters of a line, however it is decoded: an escape has six,
and a character with two escapes has four bytes. So the lines of a request of this server fit the
reader's buffer.
-/

namespace LlmServe

open Infra Bench

/-! ## The room that a text takes -/

theorem length_escapeUnit (n : Nat) : (escapeUnit n).length = 6 := rfl

theorem length_escapeChar (c : Char) : (escapeChar c).length ≤ 12 := by
  have h := escape_escapeChar c
  generalize escapeChar c = l at h ⊢
  cases h <;> simp [length_escapeUnit]

/-- The characters that a text takes in a line. -/
def escaped (text : Text) : Nat := (text.flatMap escapeChar).length

theorem escaped_append (xs ys : Text) : escaped (xs ++ ys) = escaped xs + escaped ys := by
  unfold escaped
  rw [List.flatMap_append, List.length_append]

theorem escaped_cons (c : Char) (text : Text) :
    escaped (c :: text) = (escapeChar c).length + escaped text := by
  unfold escaped
  rw [List.flatMap_cons, List.length_append]

theorem escaped_singleton (c : Char) : escaped [c] = (escapeChar c).length := by
  unfold escaped
  rw [List.flatMap_singleton]

/-- What a sequence that has begun may still add, paid for by its first byte. -/
def owing : Option Utf8.Begun → Nat
  | none => 0
  | some _ => 6

theorem escaped_replacement (text : Text) :
    escaped (Utf8.replacement :: text) = 6 + escaped text := escaped_cons _ _

theorem escaped_start (b : Nat) :
    escaped (Utf8.start b).1 + owing (Utf8.start b).2 ≤ 6 := by
  have hascii : ∀ b < 0x80, escaped [Char.ofNat b] ≤ 6 := by decide
  rcases Utf8.start_cases b with ⟨hb, h⟩ | h | ⟨p, h⟩
  · rw [h]
    exact hascii b hb
  · rw [h]
    decide
  · rw [h]
    exact Nat.le_refl 6

theorem escaped_step (s : Option Utf8.Begun) (b : Nat) :
    escaped (Utf8.step s b).1 + owing (Utf8.step s b).2 ≤ owing s + 6 := by
  cases s with
  | none =>
    have h := escaped_start b
    exact h.trans (Nat.le_add_left 6 _)
  | some p =>
    unfold Utf8.step
    by_cases hb : p.low ≤ b ∧ b ≤ p.high
    · simp only [hb, and_self, if_true]
      cases p.owed with
      | zero =>
        have hc := length_escapeChar (Char.ofNat (p.bits * 64 + (b - 0x80)))
        simp only [escaped_singleton, owing]
        omega
      | succ n => exact Nat.le_add_left 6 6
    · simp only [hb, if_false, escaped_replacement, Nat.add_assoc]
      exact Nat.add_le_add_left (escaped_start b) 6

theorem escaped_run : ∀ (s : Option Utf8.Begun) (bs : List UInt8),
    escaped (Utf8.run s bs).1 + owing (Utf8.run s bs).2 ≤ owing s + 6 * bs.length
  | s, [] => Nat.le_of_eq (Nat.zero_add _)
  | s, b :: bs => by
    have h := escaped_step s b.toNat
    have ih := escaped_run (Utf8.step s b.toNat).2 bs
    simp only [Utf8.run, escaped_append, List.length_cons]
    omega

/-- **A byte takes at most six characters of a line.** -/
theorem escaped_decode (bs : List UInt8) : escaped (Utf8.decode bs) ≤ 6 * bs.length := by
  have h := escaped_run none bs
  unfold Utf8.decode
  rw [escaped_append]
  cases hs : (Utf8.run none bs).2 with
  | none =>
    rw [hs] at h
    simpa [Utf8.truncated, escaped, owing] using h
  | some p =>
    rw [hs] at h
    simp only [owing] at h
    have hr : escaped (Utf8.truncated (some p)) = 6 := rfl
    omega

/-! ## Lines -/

/-- A text that goes out in pieces: no piece takes more room than all of it. -/
theorem escaped_flatten : ∀ {texts : List Text} {text : Text}, text ∈ texts →
    escaped text ≤ escaped texts.flatten
  | t :: texts, text, h => by
    rw [List.flatten_cons, escaped_append]
    rcases List.mem_cons.mp h with rfl | h
    · exact Nat.le_add_right _ _
    · exact (escaped_flatten h).trans (Nat.le_add_left _ _)

theorem length_allBytes {tok : Tokenizer} {k : Nat} : ∀ {ids : List Token},
    (∀ t ∈ ids, (tok.bytes t).length ≤ k) → (tok.allBytes ids).length ≤ k * ids.length
  | [], _ => Nat.le_refl 0
  | t :: ids, h => by
    have ih := length_allBytes fun u hu => h u (List.mem_cons_of_mem t hu)
    have ht := h t List.mem_cons_self
    simp only [Tokenizer.allBytes, List.flatMap_cons, List.length_append, List.length_cons,
      Nat.mul_add] at ih ⊢
    omega

theorem length_dumpsInt {i : Int} (h0 : 0 ≤ i) (h : i < 1000000) : (dumpsInt i).length ≤ 6 := by
  obtain ⟨n, rfl⟩ := Int.eq_ofNat_of_zero_le h0
  exact (Nat.length_toDigits_le_iff (by decide) (by decide)).mpr (by omega)

theorem length_dumpsString (text : Text) : (dumpsString text).length = escaped text + 2 := by
  simp only [dumpsString, escaped, List.cons_append, List.length_cons, List.length_append,
    List.length_nil, Nat.add_assoc, Nat.zero_add, Nat.reduceAdd]

theorem length_textLine (id : Json) (text : Text) :
    (JsonObject.dumps [("token_id", id), ("text", .str text)]).length
      = id.dumps.length + escaped text + 26 := by
  have htoken : (dumpsString "token_id".toList).length = 10 := by decide
  have htext : (dumpsString "text".toList).length = 6 := by decide
  have hstr : Json.dumps (.str text) = dumpsString text := rfl
  simp only [JsonObject.dumps, List.map_cons, List.map_nil, List.intercalate_cons_cons,
    List.intercalate_singleton, List.length_cons, List.length_append, htoken, htext, hstr,
    length_dumpsString]
  have hcomma : ", ".toList.length = 2 := rfl
  have hcolon : ": ".toList.length = 2 := rfl
  have hnil : ([] : Text).length = 0 := rfl
  omega

theorem length_doneLine {finishReason : Option FinishReason} {n : Nat} (hn : n < 1000000) :
    (doneLine finishReason n).dumps.length ≤ 100 := by
  have hi := length_dumpsInt (i := n) (by omega) (by omega)
  have hint : Json.dumps (.int n) = dumpsInt n := rfl
  have hreason : ((finishReason.map FinishReason.json).getD .null).dumps.length ≤ 11 := by
    cases finishReason with
    | none => decide
    | some reason => cases reason <;> decide
  have h1 : (dumpsString "done".toList).length = 6 := by decide
  have h2 : (dumpsString "finish_reason".toList).length = 15 := by decide
  have h3 : (dumpsString "n_tokens".toList).length = 10 := by decide
  have h4 : (Json.dumps (.bool true)).length = 4 := by decide
  have hcomma : ", ".toList.length = 2 := rfl
  have hcolon : ": ".toList.length = 2 := rfl
  have hnil : ([] : Text).length = 0 := rfl
  simp only [doneLine, JsonObject.dumps, List.map_cons, List.map_nil, List.intercalate_cons_cons,
    List.intercalate_singleton, List.length_cons, List.length_append, h1, h2, h3, h4, hint]
  omega

/-- **The reader's buffer is large enough for this server**: a request has at most 1023 tokens, a
token of its vocabulary at most 128 bytes. -/
theorem fits_of_bounded {tok : Tokenizer} {events : List SinkEvent} (h : Complete events)
    (finishReason : Option FinishReason) (hn : events.length ≤ 1023)
    (hbytes : ∀ e ∈ events, (tok.bytes e.1).length ≤ 128) (hids : ∀ e ∈ events, InVocab e.1) :
    ∀ o ∈ ndjson tok finishReason events, Fits o := by
  have hall : escaped (tok.decode (events.map Prod.fst)) ≤ 6 * (128 * 1023) := by
    have hb := @length_allBytes tok 128 (events.map Prod.fst) (List.forall_mem_map.mpr hbytes)
    rw [List.length_map] at hb
    have he := escaped_decode (tok.allBytes (events.map Prod.fst))
    unfold Tokenizer.decode
    omega
  rw [← pieces_tail, escaped_append] at hall
  unfold Fits maxTokenSize
  rw [ndjson_complete h]
  intro o ho
  rcases List.mem_append.mp ho with ho | ho
  · rcases List.mem_append.mp ho with ho | ho
    · -- the line of a token
      obtain ⟨i, hi, rfl⟩ := List.mem_iff_getElem.mp ho
      rw [List.getElem_zipWith]
      rw [List.length_zipWith] at hi
      have hi1 : i < (events.map Prod.fst).length := by omega
      have hi2 : i < (pieces tok (events.map Prod.fst)).length := by omega
      have hid : InVocab _ := List.forall_mem_map.mpr hids _ (List.getElem_mem hi1)
      have hd := length_dumpsInt hid.1 (Int.lt_trans hid.2 (by decide))
      have ht := escaped_flatten (List.getElem_mem hi2)
      have hint : ∀ j : Int, Json.dumps (.int j) = dumpsInt j := fun _ => rfl
      rw [tokenLine, length_textLine, hint]
      omega
    · -- the line of what the decoder had left
      unfold tailLines at ho
      split at ho
      · cases ho
      · obtain rfl := List.mem_singleton.mp ho
        have hnull : (Json.dumps .null).length = 4 := by decide
        rw [tailLine, length_textLine, hnull]
        omega
  · obtain rfl := List.mem_singleton.mp ho
    have hd : (doneLine finishReason events.length).dumps.length ≤ 100 :=
      length_doneLine (by omega)
    omega

end LlmServe
