import LlmServe.Properties.Windows
import LlmServe.Engine.Api

/-!
# The lines of a streamed response

For the events of a request that ran to its end, `ndjson` writes a line for each token, the text
held back if there is any, and the last line. No line contains a line break.
-/

namespace LlmServe

open Infra IncrementalDetokenizer

/-- The events of a request up to its end: the last one, and no other, is final. -/
def Complete (events : List SinkEvent) : Prop :=
  ∃ init last, events = List.map (fun t => (t, false)) init ++ [(last, true)]

theorem map_fst_events (init : List Token) (last : Token) :
    (init.map (fun t => (t, false)) ++ [(last, true)]).map Prod.fst = init ++ [last] := by
  rw [List.map_append, List.map_map]
  exact congrArg (· ++ [last]) (List.map_id init)

/-! ## What `events_iter` yields -/

variable (tok : Tokenizer)

theorem eventsIter_detok : ∀ (init : List Token) (last : Token) (detok : IncrementalDetokenizer)
    (n : Nat), (eventsIter tok detok n (init.map (fun t => (t, false)) ++ [(last, true)])).2
      = (pushAll tok detok (init ++ [last])).2
  | [], _, _, _ => rfl
  | _ :: init, last, detok, n => eventsIter_detok init last (detok.push tok _).2 (n + 1)

theorem eventsIter_text : ∀ (init : List Token) (last : Token) (fin : Bool)
    (detok : IncrementalDetokenizer) (n : Nat),
    (eventsIter tok detok n (init.map (fun t => (t, false)) ++ [(last, fin)])).1.map
      Yielded.text = (pushAll tok detok (init ++ [last])).1
  | [], _, true, _, _ => rfl
  | [], _, false, _, _ => rfl
  | t :: init, last, fin, detok, n =>
    congrArg ((detok.push tok t).1 :: ·)
      (eventsIter_text init last fin (detok.push tok t).2 (n + 1))

/-- What a consumer writes for the items: `line` for each, and `stop` with the count at the
final one. -/
theorem flatMap_eventsIter {β : Type} (line : Token → Text → β) (stop : Nat → List β) :
    ∀ (init : List Token) (last : Token) (detok : IncrementalDetokenizer) (n : Nat),
    ((eventsIter tok detok n (init.map (fun t => (t, false)) ++ [(last, true)])).1.flatMap
      fun y => line y.t y.text :: if y.fin then stop y.n else [])
      = List.zipWith line (init ++ [last]) (pushAll tok detok (init ++ [last])).1
        ++ stop (n + (init ++ [last]).length)
  | [], last, detok, n => by
    simp [eventsIter, pushAll]
  | t :: init, last, detok, n => by
    have ih := flatMap_eventsIter line stop init last (detok.push tok t).2 (n + 1)
    rw [show n + (t :: init ++ [last]).length = n + 1 + (init ++ [last]).length by
      simp only [List.cons_append, List.length_cons]; omega]
    simp only [List.map_cons, List.cons_append, eventsIter, pushAll, List.flatMap_cons,
      List.zipWith_cons_cons, Bool.false_eq_true, if_false, List.nil_append]
    exact congrArg (line t (detok.push tok t).1 :: ·) ih

/-! ## The two responses -/

/-- What the detokenizer returned for each token, and at the end. -/
def pieces (ids : List Token) : List Text := (pushAll tok {} ids).1

def tail (ids : List Token) : Text := (flush tok (pushAll tok {} ids).2).1

theorem length_pushAll : ∀ (ids : List Token) (d : IncrementalDetokenizer),
    (pushAll tok d ids).1.length = ids.length
  | [], _ => rfl
  | t :: ts, d => congrArg (· + 1) (length_pushAll ts (d.push tok t).2)

theorem length_pieces (ids : List Token) : (pieces tok ids).length = ids.length :=
  length_pushAll tok ids {}

theorem pieces_tail (ids : List Token) :
    (pieces tok ids).flatten ++ tail tok ids = tok.decode ids := by
  unfold pieces tail
  rw [(emitted_pushAll tok ids).flush, ids_pushAll_new]

variable {tok} {events : List SinkEvent}

/-- **The lines of a complete response.** -/
theorem ndjson_complete (h : Complete events) (finishReason : Option FinishReason) :
    ndjson tok finishReason events
      = List.zipWith tokenLine (events.map Prod.fst) (pieces tok (events.map Prod.fst))
        ++ tailLines (tail tok (events.map Prod.fst)) ++ [doneLine finishReason events.length] := by
  obtain ⟨init, last, rfl⟩ := h
  have hids := map_fst_events init last
  have hlen : (init.map (fun t => (t, false)) ++ [(last, true)]).length
      = 0 + (init ++ [last]).length := by
    simp
  rw [hids, hlen, List.append_assoc]
  unfold ndjson pieces tail
  rw [← eventsIter_detok tok init last {} 0]
  exact flatMap_eventsIter tok tokenLine (fun n => tailLines _ ++ [doneLine finishReason n])
    init last {} 0

theorem responseText_complete (h : Complete events) :
    responseText tok events = tok.decode (events.map Prod.fst) := by
  obtain ⟨init, last, rfl⟩ := h
  have hids := map_fst_events init last
  rw [hids, ← pieces_tail]
  unfold responseText pieces tail
  rw [← eventsIter_detok tok init last {} 0, ← eventsIter_text tok init last true {} 0]

/-! ## What the lines say -/

/-- `m["text"]`, nothing where there is none. -/
def JsonObject.text (o : JsonObject) : Text :=
  match o.lookup "text" with
  | some (.str text) => text
  | _ => []

@[simp] theorem text_tokenLine (t : Token) (text : Text) : (tokenLine t text).text = text := rfl

@[simp] theorem text_tailLine (text : Text) : (tailLine text).text = text := rfl

@[simp] theorem text_doneLine (finishReason : Option FinishReason) (n : Nat) :
    (doneLine finishReason n).text = [] := rfl

theorem flatMap_text_tailLines (text : Text) :
    (tailLines text).flatMap JsonObject.text = text := by
  unfold tailLines
  split
  · rename_i h
    exact h.symm
  · simp

theorem flatMap_text_zipWith : ∀ (ids : List Token) (texts : List Text),
    texts.length = ids.length →
    (List.zipWith tokenLine ids texts).flatMap JsonObject.text = texts.flatten
  | [], [], _ => rfl
  | _ :: ids, text :: texts, h => by
    have ih := flatMap_text_zipWith ids texts (Nat.succ.inj h)
    rw [List.zipWith_cons_cons, List.flatMap_cons, text_tokenLine, ih, List.flatten_cons]

theorem text_ndjson (h : Complete events) (finishReason : Option FinishReason) :
    (ndjson tok finishReason events).flatMap JsonObject.text
      = tok.decode (events.map Prod.fst) := by
  rw [ndjson_complete h, List.flatMap_append, List.flatMap_append,
    flatMap_text_zipWith _ _ (length_pieces tok _), flatMap_text_tailLines, pieces_tail]
  simp

/-! ## A line stays on its line -/

/-- Printable ASCII. -/
def Printable (c : Char) : Prop := ' ' ≤ c ∧ c ≤ '~'

instance instDecidablePrintable (c : Char) : Decidable (Printable c) :=
  inferInstanceAs (Decidable (_ ∧ _))

theorem printable_of_all {l : Text} (h : (l.all fun c => Printable c) = true) :
    ∀ c ∈ l, Printable c := fun c hc => of_decide_eq_true (List.all_eq_true.mp h c hc)

theorem printable_escapeUnit (n : Nat) : ∀ c ∈ escapeUnit n, Printable c := by
  have hhex : ∀ d < 16, Printable (Nat.digitChar d) := by decide
  intro c hc
  simp only [escapeUnit, List.map_cons, List.map_nil, List.mem_cons, List.not_mem_nil,
    or_false] at hc
  rcases hc with rfl | rfl | rfl | rfl | rfl | rfl
  · decide
  · decide
  all_goals exact hhex _ (Nat.mod_lt _ (by decide))

/-- What may stand for a character in a string: a short escape, itself, or escapes of its code. -/
inductive Escape (c : Char) : Text → Prop where
  | short (x : Char) (hx : Printable x) : Escape c ['\\', x]
  | self (hc : Printable c) : Escape c [c]
  | unit (n : Nat) : Escape c (escapeUnit n)
  | pair (m n : Nat) : Escape c (escapeUnit m ++ escapeUnit n)

theorem escape_escapeChar (c : Char) : Escape c (escapeChar c) := by
  unfold escapeChar
  iterate 7
    refine iteInduction (motive := Escape c) (fun _ => .short _ (by decide)) (fun _ => ?_)
  refine iteInduction (motive := Escape c) .self (fun _ => ?_)
  exact iteInduction (motive := Escape c) (fun _ => .unit _) (fun _ => .pair _ _)

theorem printable_escapeChar (c : Char) : ∀ x ∈ escapeChar c, Printable x := by
  intro x hx
  have h := escape_escapeChar c
  generalize escapeChar c = l at h hx
  cases h with
  | short y hy =>
    rcases List.mem_cons.mp hx with rfl | hx
    · decide
    · rwa [List.mem_singleton.mp hx]
  | self hc => rwa [List.mem_singleton.mp hx]
  | unit n => exact printable_escapeUnit n x hx
  | pair m n =>
    rcases List.mem_append.mp hx with hx | hx
    · exact printable_escapeUnit m x hx
    · exact printable_escapeUnit n x hx

theorem printable_dumpsString (text : Text) : ∀ c ∈ dumpsString text, Printable c := by
  intro c hc
  simp only [dumpsString, List.cons_append, List.mem_cons, List.mem_append, List.mem_flatMap,
    List.not_mem_nil, or_false] at hc
  rcases hc with rfl | ⟨x, -, hx⟩ | rfl
  · decide
  · exact printable_escapeChar x c hx
  · decide

theorem printable_toDigits (n : Nat) : ∀ c ∈ Nat.toDigits 10 n, Printable c := by
  intro c hc
  have hd := Nat.isDigit_of_mem_toDigits (by decide) (by decide) hc
  rw [Char.isDigit, Bool.and_eq_true, decide_eq_true_iff, decide_eq_true_iff] at hd
  exact ⟨Char.le_trans (by decide) hd.1, Char.le_trans hd.2 (by decide)⟩

theorem printable_dumpsInt : ∀ (i : Int), ∀ c ∈ dumpsInt i, Printable c
  | .ofNat n => printable_toDigits n
  | .negSucc n => by
    intro c hc
    rcases List.mem_cons.mp hc with rfl | hc
    · decide
    · exact printable_toDigits _ c hc

theorem printable_dumps : ∀ (v : Json), ∀ c ∈ v.dumps, Printable c
  | .null => printable_of_all (by decide)
  | .bool true => printable_of_all (by decide)
  | .bool false => printable_of_all (by decide)
  | .int i => printable_dumpsInt i
  | .str text => printable_dumpsString text

theorem mem_intercalate {α : Type} {sep : List α} {a : α} : ∀ {l : List (List α)},
    a ∈ sep.intercalate l → a ∈ sep ∨ ∃ x ∈ l, a ∈ x
  | [], h => by simp at h
  | [x], h => by
    rw [List.intercalate_singleton] at h
    exact .inr ⟨x, List.mem_singleton_self x, h⟩
  | x :: y :: l, h => by
    rw [List.intercalate_cons_cons, List.mem_append, List.mem_append] at h
    rcases h with (h | h) | h
    · exact .inr ⟨x, List.mem_cons_self, h⟩
    · exact .inl h
    · rcases mem_intercalate h with h | ⟨z, hz, h⟩
      · exact .inl h
      · exact .inr ⟨z, List.mem_cons_of_mem x hz, h⟩

/-- **A line of the body is printable ASCII**, so a character is a byte and no line breaks. -/
theorem printable_dumps_object (o : JsonObject) : ∀ c ∈ o.dumps, Printable c := by
  have hcomma : ∀ c ∈ ", ".toList, Printable c := printable_of_all (by decide)
  have hcolon : ∀ c ∈ ": ".toList, Printable c := printable_of_all (by decide)
  intro c hc
  simp only [JsonObject.dumps, List.cons_append, List.mem_cons, List.mem_append,
    List.not_mem_nil, or_false] at hc
  rcases hc with rfl | hc | rfl
  · decide
  · rcases mem_intercalate hc with hc | ⟨x, hx, hc⟩
    · exact hcomma c hc
    · obtain ⟨⟨key, v⟩, -, rfl⟩ := List.mem_map.mp hx
      simp only [List.mem_append] at hc
      rcases hc with (hc | hc) | hc
      · exact printable_dumpsString _ c hc
      · exact hcolon c hc
      · exact printable_dumps v c hc
  · decide

end LlmServe
