import LlmServe.Engine.Detokenizer

/-!
# The detokenizer's window

Both ends of the window stand between two characters of the whole text, so decoding from there
gives what a decode of all ids gives there. The text returned so far is that of the ids before
`read`, and `read` moves only when the text of all ids does not end in U+FFFD.
-/

namespace LlmServe

open Infra

namespace Tokenizer

variable (tok : Tokenizer)

/-- The ids end between two characters. -/
def Clean (ids : List Token) : Prop := Utf8.Clean (tok.allBytes ids)

@[simp] theorem allBytes_append (xs ys : List Token) :
    tok.allBytes (xs ++ ys) = tok.allBytes xs ++ tok.allBytes ys := List.flatMap_append

theorem decode_append {xs : List Token} (h : tok.Clean xs) (ys : List Token) :
    tok.decode (xs ++ ys) = tok.decode xs ++ tok.decode ys := by
  unfold decode
  rw [allBytes_append, Utf8.decode_append h]

theorem Clean.append {tok : Tokenizer} {xs ys : List Token} (h : tok.Clean xs) :
    tok.Clean (xs ++ ys) ↔ tok.Clean ys := by
  unfold Clean
  rw [allBytes_append]
  exact Utf8.Clean.append h

theorem allBytes_ne_nil {ids : List Token} (h : ids ≠ []) : tok.allBytes ids ≠ [] := by
  obtain ⟨t, ts, rfl⟩ := List.exists_cons_of_ne_nil h
  unfold allBytes
  rw [List.flatMap_cons]
  exact List.append_ne_nil_of_left_ne_nil (tok.bytes_ne_nil t) _

/-- Every token shows in the text. -/
theorem decode_ne_nil {ids : List Token} (h : ids ≠ []) : tok.decode ids ≠ [] :=
  Utf8.decode_ne_nil (tok.allBytes_ne_nil h)

end Tokenizer

namespace IncrementalDetokenizer

variable (tok : Tokenizer)

/-- The ids split at the ends of the window: `done` is behind it, `seen` emitted, `held` not. -/
structure Split (d : IncrementalDetokenizer) (done seen held : List Token) : Prop where
  ids : d.ids = done ++ seen ++ held
  prefixIdx : d.prefixIdx = done.length
  read : d.read = (done ++ seen).length
  cleanDone : tok.Clean done
  cleanSeen : tok.Clean seen

variable {tok} {d : IncrementalDetokenizer} {done seen held : List Token}

/-- An id more, before anything is released. -/
theorem Split.snoc (h : Split tok d done seen held) (t : Token) :
    Split tok { d with ids := d.ids ++ [t] } done seen (held ++ [t]) :=
  { h with ids := by rw [h.ids, List.append_assoc] }

theorem Split.prefixText (h : Split tok d done seen held) : d.prefixText tok = tok.decode seen := by
  unfold IncrementalDetokenizer.prefixText
  rw [h.ids, h.read, h.prefixIdx, List.take_left' rfl, List.drop_left' rfl]

theorem Split.newText (h : Split tok d done seen held) :
    d.newText tok = tok.decode seen ++ tok.decode held := by
  unfold IncrementalDetokenizer.newText
  rw [h.ids, h.prefixIdx, List.append_assoc, List.drop_left' rfl, tok.decode_append h.cleanSeen]

/-- What `drop` leaves of the window's text is the text of the ids held back. -/
theorem Split.rest (h : Split tok d done seen held) :
    (d.newText tok).drop (d.prefixText tok).length = tok.decode held := by
  rw [h.newText, h.prefixText, List.drop_left' rfl]

theorem Split.decode_all (h : Split tok d done seen held) (more : List Token) :
    tok.decode (d.ids ++ more) = tok.decode (done ++ seen) ++ tok.decode (held ++ more) := by
  have hclean : tok.Clean (done ++ seen) := h.cleanDone.append.mpr h.cleanSeen
  rw [h.ids, List.append_assoc, tok.decode_append hclean]

/-- Nothing pushed. -/
theorem split_new : Split tok {} [] [] [] where
  ids := rfl
  prefixIdx := rfl
  read := rfl
  cleanDone := Utf8.clean_nil
  cleanSeen := Utf8.clean_nil

/-- The text returned for the ids so far is that of `done ++ seen`. -/
def Emitted (tok : Tokenizer) (d : IncrementalDetokenizer) (text : Text) : Prop :=
  ∃ done seen held, Split tok d done seen held ∧ text = tok.decode (done ++ seen)

theorem emitted_new : Emitted tok {} [] := ⟨[], [], [], split_new, rfl⟩

/-- One `push` keeps the text returned so far true. -/
theorem Emitted.push {text : Text} (h : Emitted tok d text) (t : Token) :
    Emitted tok (d.push tok t).2 (text ++ (d.push tok t).1) := by
  obtain ⟨done, seen, held, hs, rfl⟩ := h
  have hs' := hs.snoc t
  unfold IncrementalDetokenizer.push release
  split
  · rename_i hrel
    -- the window moves: what was held back is complete
    have hlast : (tok.decode (held ++ [t])).getLast? ≠ some Utf8.replacement := by
      intro hl
      apply hrel.2
      rw [hs'.newText, List.getLast?_append, hl]
      rfl
    have hheld : tok.Clean (held ++ [t]) := Utf8.clean_of_getLast hlast
    have hclean : tok.Clean (done ++ seen) := hs.cleanDone.append.mpr hs.cleanSeen
    refine ⟨done ++ seen, held ++ [t], [], ?_, ?_⟩
    · constructor
      · rw [List.append_nil]
        exact hs'.ids
      · exact hs.read
      · exact congrArg List.length hs'.ids
      · exact hclean
      · exact hheld
    · rw [hs'.rest, tok.decode_append hclean]
  · exact ⟨done, seen, held ++ [t], hs', List.append_nil _⟩

theorem ids_push (t : Token) : (d.push tok t).2.ids = d.ids ++ [t] := by
  unfold IncrementalDetokenizer.push release
  split <;> rfl

theorem ids_pushAll : ∀ (ids : List Token) (d : IncrementalDetokenizer),
    (d.pushAll tok ids).2.ids = d.ids ++ ids
  | [], d => (List.append_nil _).symm
  | t :: ts, d => by
    rw [pushAll, ids_pushAll ts, ids_push, List.append_assoc, List.singleton_append]

theorem pushAll_snoc : ∀ (ids : List Token) (t : Token) (d : IncrementalDetokenizer),
    (d.pushAll tok (ids ++ [t])).1
      = (d.pushAll tok ids).1 ++ [((d.pushAll tok ids).2.push tok t).1]
  | [], _, _ => rfl
  | s :: ids, t, d => congrArg ((d.push tok s).1 :: ·) (pushAll_snoc ids t (d.push tok s).2)

/-- **Any number of `push` calls.** -/
theorem Emitted.pushAll : ∀ {text : Text} {d : IncrementalDetokenizer} (ids : List Token),
    Emitted tok d text → Emitted tok (d.pushAll tok ids).2 (text ++ (d.pushAll tok ids).1.flatten)
  | text, d, [], h => by
    rw [IncrementalDetokenizer.pushAll, List.flatten_nil, List.append_nil]
    exact h
  | text, d, t :: ts, h => by
    rw [IncrementalDetokenizer.pushAll, List.flatten_cons, ← List.append_assoc]
    exact Emitted.pushAll ts (h.push t)

theorem ids_pushAll_new (ids : List Token) : (pushAll tok {} ids).2.ids = ids := ids_pushAll ids {}

/-- The pieces of a detokenizer from its first token on. -/
theorem emitted_pushAll (tok : Tokenizer) (ids : List Token) :
    Emitted tok (pushAll tok {} ids).2 (pushAll tok {} ids).1.flatten := emitted_new.pushAll ids

/-- **What a `push` withholds**: nothing exactly if the text of all ids does not end in U+FFFD. -/
theorem Emitted.push_complete_iff {text : Text} (h : Emitted tok d text) (t : Token) :
    text ++ (d.push tok t).1 = tok.decode (d.ids ++ [t]) ↔
      (tok.decode (d.ids ++ [t])).getLast? ≠ some Utf8.replacement := by
  obtain ⟨done, seen, held, hs, rfl⟩ := h
  have hs' := hs.snoc t
  have hshown : tok.decode (held ++ [t]) ≠ [] :=
    tok.decode_ne_nil (List.concat_ne_nil t held)
  have hlonger : (tok.decode seen ++ tok.decode (held ++ [t])).length
      > (tok.decode seen).length := by
    have := List.length_pos_iff.mpr hshown
    rw [List.length_append]
    omega
  rw [hs.decode_all [t], List.append_cancel_left_eq, List.getLast?_append_of_ne_nil _ hshown]
  unfold IncrementalDetokenizer.push release
  rw [hs'.newText, hs'.prefixText, List.getLast?_append_of_ne_nil _ hshown, List.drop_left' rfl]
  split
  · rename_i hrel
    exact ⟨fun _ => hrel.2, fun _ => rfl⟩
  · rename_i hrel
    -- nothing is returned, and `held ++ [t]` has text
    exact ⟨fun hnil => absurd hnil.symm hshown, fun hlast => absurd ⟨hlonger, hlast⟩ hrel⟩

/-- The text returned so far is never taken back. -/
theorem Emitted.isPrefix {text : Text} (h : Emitted tok d text) (more : List Token) :
    text <+: tok.decode (d.ids ++ more) := by
  obtain ⟨done, seen, held, hs, rfl⟩ := h
  exact ⟨_, (hs.decode_all more).symm⟩

/-- `flush` returns what is missing. -/
theorem Emitted.flush {text : Text} (h : Emitted tok d text) :
    text ++ (d.flush tok).1 = tok.decode d.ids := by
  obtain ⟨done, seen, held, hs, rfl⟩ := h
  have hall := hs.decode_all []
  rw [List.append_nil, List.append_nil] at hall
  rw [hall, IncrementalDetokenizer.flush, hs.rest]

end IncrementalDetokenizer

end LlmServe
